import Xv6.Cpus.Steps

/-!
# Switches

What a CPU does to a slot that no CPU executes: a visit under its lock, and the switch of a
scheduler to the process in it and back.
-/

namespace Xv6.Cpus

open Xv6.Foundation Function
open Xv6.Procs (ProcState)

set_option autoImplicit false

variable {T C : Type} [DecidableEq T] {s : State T C} {c d : C} {pt : Point T}
  {r : List (Instr T)} {p q : T} {qs : List T}

namespace Inv

theorem slotOf_locked (h : Inv s) (hr : (s.cpu d).running = none)
    (hs : slotOf (s.thread (.sched d)).code = some q) :
    (s.thread (.sched d)).pt.held = [.proc q] ∧ s.holder (.proc q) = some d := by
  have hg := h.good d
  rw [cur_of_none hr] at hg
  have hheld : (s.thread (.sched d)).pt.held = [.proc q] := by
    cases hc : (s.thread (.sched d)).code with
    | nil => simp [hc, slotOf] at hs
    | cons i r =>
      rw [show s.thread (.sched d) = ⟨i :: r, (s.thread (.sched d)).pt⟩ by rw [← hc]] at hg
      obtain ⟨y, he, -, -⟩ := hg.effect
      rw [hc] at hs
      cases i with
      | load q' qs | clear q' qs =>
        cases hs
        simp only [Cpu.thread, hr, Point.effect, Option.ite_none_right_eq_some] at he
        exact (Point.atSwitch_iff.mp he.1.2.1).1
      | _ => cases hs
  refine ⟨hheld, (h.locks _ d).mpr ?_⟩
  rw [cur_of_none hr, hheld]
  exact List.mem_singleton_self _

theorem state_of_locked (h : Inv s) (hl : s.holder (.proc q) = some c) (hc : d ≠ c)
    (hr : (s.cpu d).running = some q) : (s.slot q).state = .running := by
  have hself := (h.good d).self q hr
  have hst := hself.state
  cases hm : (s.thread (s.cur d)).pt.mode with
  | run => rwa [hm] at hst
  | left st =>
    have hd : s.holder (.proc q) = some d := (h.locks _ d).mpr (hself.locked st hm)
    exact absurd (Option.some.inj (hd.symm.trans hl)) hc
  | gone => exact absurd hm (h.good d).mode_ne_gone

/-- A slot that is locked and not `RUNNING` is not executed, but by a process that is about to give
up its CPU. -/
theorem not_executed (h : Inv s) (hl : s.holder (.proc q) = some c)
    (hm : (s.thread (s.cur c)).pt.mode = .run) (hst : (s.slot q).state ≠ .running) :
    (s.cpu d).running ≠ some q := by
  intro hr
  by_cases hd : d = c
  · subst hd
    have := ((h.good d).self q hr).state
    rw [hm] at this
    exact hst this
  · exact hst (h.state_of_locked hl hd hr)

end Inv

variable [DecidableEq C]

/-! ## Visits -/

theorem Inv.setIdle (h : Inv s) (hq : ∀ d, (s.cpu d).running ≠ some q)
    (hst : (s.slot q).state ≠ .running) (z : Slot) (L : Local T) (hz : z.state ≠ .running)
    (hready : Choosable z.state → Ready C q z L) : Inv ((s.setSlot q z).setThread (.proc q) L) := by
  have hcur : ∀ d, s.cur d ≠ .proc q := fun d => (Inv.proc_ne hq).symm
  have hslot : ∀ d p, (s.cpu d).running = some p → update s.slot q z p = s.slot p := by
    intro d p hp
    refine update_of_ne ?_ ..
    rintro rfl
    exact hq d hp
  refine ⟨fun d => ?_, fun l d => ?_, h.sole, fun p d hd => ?_, fun p hp hc => ?_,
    fun d p qs r hd hcode => ?_, fun d p hd hcode => ?_, fun p hp => ?_⟩
  · change Good _ d (s.cpu d) (update s.thread (.proc q) L (s.cur d))
    rw [update_of_ne (hcur d)]
    exact (h.good d).congr (hslot d)
  · change _ ↔ l ∈ (update s.thread (.proc q) L (s.cur d)).pt.held
    rw [update_of_ne (hcur d)]
    exact h.locks l d
  · simp only [State.setThread_thread]
    exact h.away p d hd
  · by_cases hpq : p = q
    · subst hpq
      simp only [State.setThread_thread, State.setThread_slot, State.setSlot_slot,
        update_self] at hc ⊢
      exact hready hc
    · simp only [State.setThread_thread, State.setThread_slot, State.setSlot_slot,
        update_of_ne hpq] at hc ⊢
      rw [update_of_ne (by simpa using hpq)]
      exact h.parked p hp hc
  · simp only [State.setThread_thread] at hcode
    have hpq : p ≠ q := by
      rintro rfl
      exact hst (h.loading d p qs r hd hcode)
    simp only [State.setThread_slot, State.setSlot_slot, update_of_ne hpq]
    exact h.loading d p qs r hd hcode
  · simp only [State.setThread_thread] at hcode
    exact h.apart d p hd hcode
  · have hpq : p ≠ q := by
      rintro rfl
      simp [hz] at hp
    simp only [State.setThread_slot, State.setSlot_slot, update_of_ne hpq] at hp
    simp only [State.setThread_thread]
    exact h.busy p hp

omit [DecidableEq C] in
theorem ready_fresh (q : T) (st : ProcState) :
    Ready C q ⟨st, .fresh⟩ ⟨forkret q, parked q false false⟩ := by
  exact ⟨by simp, rfl, rfl, rfl, by simp [parked], Point.fits_forkret rfl rfl rfl rfl,
    by simp [forkret, myproc, release, Instr.plain], by simp, fun _ => ⟨rfl, rfl⟩⟩

theorem Inv.visit (h : Inv s) (hl : s.holder (.proc q) = some c)
    (hm : (s.thread (s.cur c)).pt.mode = .run) (v : Visit) :
    Inv (visitSlot q v s) ∧ (visitSlot q v s).cpu = s.cpu ∧ (visitSlot q v s).holder = s.holder ∧
      (visitSlot q v s).thread (s.cur c) = s.thread (s.cur c) := by
  have hset : ∀ (st : ProcState) (x : Ctx) (L : Local T), (s.slot q).state ≠ .running →
      st ≠ .running → (Choosable st → Ready C q ⟨st, x⟩ L) →
      Inv ((s.setSlot q ⟨st, x⟩).setThread (.proc q) L) ∧
      ((s.setSlot q ⟨st, x⟩).setThread (.proc q) L).thread (s.cur c) = s.thread (s.cur c) := by
    intro st x L hst hst' hready
    have hq : ∀ d, (s.cpu d).running ≠ some q := fun d => h.not_executed hl hm hst
    exact ⟨h.setIdle hq hst _ L hst' hready, update_of_ne (Inv.proc_ne hq).symm ..⟩
  have hkeep : ∀ st : ProcState, (s.slot q).state ≠ .running → st ≠ .running →
      (Choosable st → Choosable (s.slot q).state) →
      Inv (s.setSlot q { s.slot q with state := st }) := by
    intro st hst hst' hch
    have hq : ∀ d, (s.cpu d).running ≠ some q := fun d => h.not_executed hl hm hst
    have hi := (hset st (s.slot q).ctx (s.thread (.proc q)) hst hst' fun hc =>
      { h.parked q hq (hch hc) with }).1
    dsimp only [State.setThread, State.setSlot] at hi
    rwa [update_eq_self] at hi
  unfold visitSlot
  split
  · rename_i hst
    exact ⟨hkeep _ (by simp [hst]) (by simp) (by simp [hst, Choosable]), rfl, rfl, rfl⟩
  · rename_i hst
    have := hset .used .fresh _ (by simp [hst]) (by simp) fun _ => ready_fresh q _
    exact ⟨this.1, rfl, rfl, this.2⟩
  · rename_i hst
    exact ⟨hkeep _ (by simp [hst]) (by simp) (by simp [hst, Choosable]), rfl, rfl, rfl⟩
  · rename_i hst
    exact ⟨hkeep _ (by simp [hst]) (by simp) (by simp [Choosable]), rfl, rfl, rfl⟩
  · rename_i hst
    exact ⟨hkeep _ (by simp [hst]) (by simp) (by simp [Choosable]), rfl, rfl, rfl⟩
  · exact ⟨h, rfl, rfl, rfl⟩

theorem fine_visit {v : Visit} (h : Inv s) (ht : s.thread (s.cur c) = ⟨.visit q v :: r, pt⟩) :
    Fine (exec c (s.cur c) r s (.visit q v)) := by
  have hg := h.good_cur ht
  obtain ⟨y, he, ha, hfits⟩ := hg.effect
  simp only [Point.effect, Option.ite_none_right_eq_some, Option.some.injEq] at he
  obtain ⟨⟨hm, hin⟩, rfl⟩ := he
  obtain ⟨hi, hcpu, hholder, hthread⟩ :=
    h.visit ((h.holder_iff ht _).mpr hin) (by rw [ht]; exact hm) v
  have hcur : (visitSlot q v s).cur c = s.cur c := by simp [State.cur, hcpu]
  have ht' : (visitSlot q v s).thread ((visitSlot q v s).cur c) = ⟨.visit q v :: r, pt⟩ := by
    rw [hcur, hthread, ht]
  have hg' := hi.good_cur ht'
  have := hi.advance ht' rfl (by rw [hcur]; exact ha) ((visitSlot q v s).cpu c)
    (visitSlot q v s).holder rfl ?_ (hi.holder_iff ht') fun _ _ _ => Iff.rfl
  · rwa [update_eq_self, hcur] at this
  · refine hg'.next rfl rfl (hi.rest_plain ht') rfl rfl ?_ hg'.noff hg'.nodup hg'.nested hg'.armed
      hg'.intr (hg'.intena · id) (by rw [hcpu]; exact hfits)
    exact fun p st _ hl => by simp [hm] at hl

/-! ## Switches -/

/-- CPU `c` has locked slot `p`, which no other CPU executes; it changes the slot, the thread of the
process and its own scheduler, and may go from one to the other. -/
theorem Inv.switch (h : Inv s) (x : Cpu T) (z : Slot) (Ls Lp : Local T)
    (hbefore : (s.cpu c).running = none ∨ (s.cpu c).running = some p)
    (hafter : x.running = none ∨ x.running = some p)
    (helse : ∀ d, d ≠ c → (s.cpu d).running ≠ some p)
    (hheld : (s.thread (s.cur c)).pt.held = [.proc p])
    (hold : ∀ q qs r, (s.thread (.sched c)).code = .load q qs :: r → q = p)
    (hsched : x.running = none → Good (update s.slot p z) c x Ls ∧
      Ls.pt.held = [.proc p] ∧ (Choosable z.state → Ready C p z Lp) ∧
      (∀ q, slotOf Ls.code = some q → q = p) ∧
      ((∃ qs r, Ls.code = .load p qs :: r) ↔ z.state = .running))
    (hproc : x.running = some p → Good (update s.slot p z) c x Lp ∧
      Lp.pt.held = [.proc p] ∧ Suspended p Ls) :
    Inv ⟨update s.slot p z, update s.cpu c x, s.holder,
      update (update s.thread (.sched c) Ls) (.proc p) Lp⟩ := by
  have hlock : s.holder (.proc p) = some c := (h.locks _ c).mpr (by simp [hheld])
  -- the other CPUs are as before
  have hcpu : ∀ d, d ≠ c → update s.cpu c x d = s.cpu d := fun d hd =>
    update_of_ne hd ..
  have hlc : ∀ d, d ≠ c → update (update s.thread (.sched c) Ls) (.proc p) Lp
      (.sched d) = s.thread (.sched d) := by
    intro d hd
    rw [update_of_ne (by simp), update_of_ne (by simpa using hd)]
  have hsame : update (update s.thread (.sched c) Ls) (.proc p) Lp (.sched c)
      = Ls := by
    rw [update_of_ne (by simp), update_self]
  have hthread : ∀ q, q ≠ p → update (update s.thread (.sched c) Ls) (.proc p) Lp
      (.proc q) = s.thread (.proc q) := by
    intro q hq
    rw [update_of_ne (by simpa using hq), update_of_ne (by simp)]
  have hcur : ∀ d, d ≠ c → update (update s.thread (.sched c) Ls) (.proc p) Lp
      (s.cur d) = s.thread (s.cur d) := by
    intro d hd
    cases hr : (s.cpu d).running with
    | none => rw [cur_of_none hr, hlc d hd]
    | some q =>
      rw [cur_of_running hr, hthread q]
      rintro rfl
      exact helse d hd hr
  have hslot : ∀ q, q ≠ p → update s.slot p z q = s.slot q := fun q hq =>
    update_of_ne hq ..
  have hnext : Good (update s.slot p z) c x
      (update (update s.thread (.sched c) Ls) (.proc p) Lp (x.thread c)) ∧
      (update (update s.thread (.sched c) Ls) (.proc p) Lp (x.thread c)).pt.held =
        [.proc p] := by
    rcases hafter with hx | hx
    · rw [Cpu.thread, hx]
      dsimp only
      rw [hsame]
      exact ⟨(hsched hx).1, (hsched hx).2.1⟩
    · rw [Cpu.thread, hx]
      dsimp only
      rw [update_self]
      exact ⟨(hproc hx).1, (hproc hx).2.1⟩
  -- nobody but `c` is about to switch to `p` or has come back from it
  have hnobody : ∀ d, d ≠ c → (s.cpu d).running = none →
      slotOf (s.thread (.sched d)).code ≠ some p := by
    intro d hd hr hs
    exact hd (Option.some.inj ((h.slotOf_locked hr hs).2.symm.trans hlock))
  have hrun : ∀ q, q ≠ p → ∀ d, (update s.cpu c x d).running = some q ↔
      (s.cpu d).running = some q := by
    intro q hq d
    by_cases hd : d = c
    · subst hd
      rw [update_self]
      have hp : (some p : Option T) ≠ some q := by simpa using Ne.symm hq
      rcases hafter with hx | hx <;> rcases hbefore with hb | hb <;> simp [hx, hb, Ne.symm hq]
    · rw [hcpu d hd]
  refine ⟨fun d => ?_, fun l d => ?_, fun q d d' hd hd' => ?_, fun q d hd => ?_, fun q hq hst => ?_,
    fun d q qs r hd hcode => ?_, fun d q hd hcode => ?_, fun q hst => ?_⟩
  · rw [State.cur_eq]
    dsimp only
    by_cases hd : d = c
    · subst hd
      rw [update_self]
      exact hnext.1
    · rw [hcpu d hd, ← State.cur_eq, hcur d hd]
      refine (h.good d).congr fun q hq => hslot q ?_
      rintro rfl
      exact helse d hd hq
  · rw [State.cur_eq]
    dsimp only
    by_cases hd : d = c
    · subst hd
      rw [update_self, hnext.2, ← hheld]
      exact h.locks l d
    · rw [hcpu d hd, ← State.cur_eq, hcur d hd]
      exact h.locks l d
  · by_cases hq : q = p
    · subst hq
      have hone : ∀ e, (update s.cpu c x e).running = some q → e = c := by
        intro e he
        by_contra hne
        rw [hcpu e hne] at he
        exact helse e hne he
      rw [hone d hd, hone d' hd']
    · rw [hrun q hq] at hd hd'
      exact h.sole q d d' hd hd'
  · by_cases hdc : d = c
    · subst hdc
      dsimp only at hd ⊢
      rw [update_self] at hd
      rw [hsame]
      rcases hafter with hx | hx
      · rw [hx] at hd
        cases hd
      · obtain rfl : p = q := Option.some.inj (hx.symm.trans hd)
        exact (hproc hx).2.2
    · dsimp only at hd ⊢
      rw [hcpu d hdc] at hd
      rw [hlc d hdc]
      exact h.away q d hd
  · by_cases hqp : q = p
    · subst hqp
      have hx : x.running = none := by
        have := hq c
        dsimp only at this
        rw [update_self] at this
        exact hafter.resolve_right this
      dsimp only at hst ⊢
      rw [update_self] at hst ⊢
      rw [update_self]
      exact (hsched hx).2.2.1 hst
    · dsimp only at hst ⊢
      rw [hslot q hqp] at hst ⊢
      rw [hthread q hqp]
      exact h.parked q (fun d hd => hq d ((hrun q hqp d).mpr hd)) hst
  · dsimp only at hd hcode ⊢
    by_cases hdc : d = c
    · subst hdc
      rw [update_self] at hd
      rw [hsame] at hcode
      obtain rfl : q = p := (hsched hd).2.2.2.1 q (by rw [hcode]; rfl)
      rw [update_self]
      exact (hsched hd).2.2.2.2.mp ⟨qs, r, hcode⟩
    · rw [hcpu d hdc] at hd
      rw [hlc d hdc] at hcode
      have hqp : q ≠ p := by
        rintro rfl
        exact hnobody d hdc hd (by rw [hcode]; rfl)
      rw [hslot q hqp]
      exact h.loading d q qs r hd hcode
  · intro e he
    dsimp only at hd hcode he
    by_cases hdc : d = c
    · subst hdc
      rw [update_self] at hd
      rw [hsame] at hcode
      obtain rfl : q = p := (hsched hd).2.2.2.1 q hcode
      by_cases hed : e = d
      · subst hed
        rw [update_self, hd] at he
        cases he
      · rw [hcpu e hed] at he
        exact helse e hed he
    · rw [hcpu d hdc] at hd
      rw [hlc d hdc] at hcode
      have hqp : q ≠ p := by
        rintro rfl
        exact hnobody d hdc hd hcode
      exact h.apart d q hd hcode e ((hrun q hqp e).mp he)
  · dsimp only at hst ⊢
    by_cases hqp : q = p
    · subst hqp
      rw [update_self] at hst
      rcases hafter with hx | hx
      · obtain ⟨qs, r, hcode⟩ := (hsched hx).2.2.2.2.mpr hst
        exact Or.inr ⟨c, qs, r, by rw [update_self, hx], by rw [hsame, hcode]⟩
      · exact Or.inl ⟨c, by rw [update_self, hx]⟩
    · rw [hslot q hqp] at hst
      rcases h.busy q hst with ⟨d, hd⟩ | ⟨d, qs, r, hd, hcode⟩
      · exact Or.inl ⟨d, (hrun q hqp d).mpr hd⟩
      · have hdc : d ≠ c := by
          rintro rfl
          exact hqp (hold q qs r hcode)
        exact Or.inr ⟨d, qs, r, by rw [hcpu d hdc, hd], by rw [hlc d hdc, hcode]⟩

theorem fine_jump {b : Bool} (h : Inv s) (ht : s.thread (s.cur c) = ⟨.jump b :: r, pt⟩) :
    Fine (exec c (s.cur c) r s (.jump b)) := by
  have hg := h.good_cur ht
  obtain ⟨p, y, hr, he, ha, hfits⟩ := hg.effect_proc rfl
  have hself := hg.self p hr
  cases hm : pt.mode with
  | run | gone => simp [Point.effect, hm] at he
  | left st =>
    simp only [Point.effect, hm, Option.ite_none_right_eq_some,
      Option.some.injEq] at he
    obtain ⟨⟨hat, hb⟩, rfl⟩ := he
    obtain ⟨hheld, hd⟩ := Point.atSwitch_iff.mp hat
    obtain ⟨hst, hor⟩ : (s.slot p).state = st ∧ _ := by simpa [Mode.Shows, hm] using hself.state
    have hsus := h.away p c hr
    obtain ⟨qs, hcode⟩ := hsus.code
    have hctx : (s.slot p).ctx = .saved := hself.saved b r rfl
    have hi := h.switch (p := p) { s.cpu c with running := none } (s.slot p)
      { s.thread (.sched c) with pt := { (s.thread (.sched c)).pt with en := (s.cpu c).intena } }
      ⟨.restore b :: r, { pt with mode := if st = .zombie then .gone else .run }⟩
      (Or.inr hr) (Or.inl rfl) (fun d hne hd => hne (h.sole p d c hd hr)) (by rw [ht]; exact hheld)
      (fun q qs r hc => by rw [hcode] at hc; cases hc) (fun _ => ⟨?_, hsus.held, ?_, ?_, ?_⟩)
      (fun hx => by cases hx)
    · rw [update_eq_self] at hi
      rw [← State.cur_eq] at ha
      rw [cur_of_running hr] at ht ha
      simp only [exec, Fine, toScheduler, State.advance, State.setThread, State.setCpu, ht, ha,
        cur_of_running hr, Option.getD_some]
      rw [update_of_ne (by simp), update_comm (by simp)]
      exact hi
    · have hnoff : (s.cpu c).noff = 1 := hg.noff.trans hd
      have hintr : (s.cpu c).intr = false := hg.intr_off (by simp [hd])
      refine ⟨?_, ?_, ?_, ?_, ?_, ?_, ?_, ?_, ?_, ?_⟩
      · simp [hnoff, hsus.depth]
      · simp [hsus.held]
      · simp [hsus.held, hsus.depth]
      · simp [hsus.irq]
      · simp [hintr, hsus.depth]
      · simp [Point.eff, hsus.irq]
      · simp [hcode, Point.fits, Point.run, Point.after, Point.effect, Cpu.thread, hsus.mode,
          hsus.held, hsus.depth, hsus.irq, Point.atSwitch, Point.idle]
      · simp [hcode]
      · exact fun p hp => by cases hp
      · exact fun _ => ⟨by simp [hcode, slotOf, hself.proc], hsus.mode⟩
    · intro hch
      have hz : st ≠ .zombie := by
        rintro rfl
        simp [hst, Choosable] at hch
      rw [if_neg hz] at hfits
      refine ⟨by simp [hctx], hheld, hd, by simp [hz], hg.armed, ?_, hg.tail, fun _ => trivial,
        fun hf => by simp [hctx] at hf⟩
      rw [if_neg hz]
      refine Point.fits_cons.mpr ⟨_, ?_, by simpa [Cpu.thread, hr] using hfits⟩
      rw [Point.after_of_not_gone (by simp)]
      simp [Point.effect, Point.atSwitch, hheld, hd, hb, Point.eff]
    · exact fun q hq => by simpa [hcode, slotOf, eq_comm] using hq
    · simp only [hcode, hst]
      constructor
      · rintro ⟨_, _, hc⟩
        cases hc
      · rintro rfl
        simp at hor

section
variable (h : Inv s)
include h

omit [DecidableEq C] in
theorem Inv.at_switch {i : Instr T} (hi : i = .pick q qs ∨ i = .load q qs ∨ i = .clear q qs)
    (ht : s.thread (s.cur c) = ⟨i :: r, pt⟩) : (s.cpu c).running = none ∧ pt.mode = .run ∧
      pt.held = [.proc q] ∧ pt.depth = 1 ∧ pt.irq = false ∧ s.holder (.proc q) = some c ∧
      (s.cpu c).noff = 1 ∧ (s.cpu c).intr = false := by
  have hg := h.good_cur ht
  obtain ⟨y, he, -, -⟩ := hg.effect
  cases hr : (s.cpu c).running with
  | some p => rcases hi with rfl | rfl | rfl <;> simp [Cpu.thread, hr, Point.effect] at he
  | none =>
    have : pt.mode = .run ∧ pt.atSwitch q ∧ pt.irq = false := by
      rcases hi with rfl | rfl | rfl <;>
      · simp only [Cpu.thread, hr, Point.effect, Option.ite_none_right_eq_some] at he
        exact he.1
    obtain ⟨hm, hat, hirq⟩ := this
    obtain ⟨hheld, hd⟩ := Point.atSwitch_iff.mp hat
    exact ⟨rfl, hm, hheld, hd, hirq, (h.holder_iff ht _).mpr (by simp [hheld]), hg.noff.trans hd,
      hg.intr_off (by simp [hd])⟩

omit [DecidableEq C] h in
theorem Good.reload {slot : T → Slot} {x : Cpu T} {code : List (Instr T)}
    (hg : Good slot c x ⟨code, pt⟩) (slot' : T → Slot) (code' : List (Instr T))
    (hr : x.running = none) (hnot : ¬ Restoring code)
    (hfits : pt.fits (.sched c : Thread T C) code' = true)
    (htail : ∀ i ∈ code'.tail, i.plain = true) :
    Good slot' c { x with proc := slotOf code' } ⟨code', pt⟩ := by
  refine ⟨hg.noff, hg.nodup, hg.nested, hg.armed, hg.intr, fun hpos _ => hg.intena hpos hnot, ?_,
    htail, fun p hp => ?_, fun _ => ⟨rfl, (hg.sched hr).2⟩⟩
  · simpa [Cpu.thread, hr] using hfits
  · rw [show x.running = some p from hp] at hr
    cases hr

omit [DecidableEq C] h in
theorem fits_unlock (hm : pt.mode = .run) (hheld : pt.held = [.proc q]) (hd : pt.depth = 1)
    (hirq : pt.irq = false) :
    pt.fits (.sched c : Thread T C) (release (.proc q) ++ [.scan qs]) = true := by
  simp [Point.fits, release, Point.run, Point.after, Point.effect, Point.idle, hm, hheld, hd, hirq]

omit h in
theorem update_sched_keep (th : Thread T C → Local T) (L : Local T) :
    update (update th (.sched c) L) (.proc q) (th (.proc q)) =
      update th (.sched c) L := by
  rw [update_comm (by simp), update_eq_self]

theorem fine_pick (ht : s.thread (s.cur c) = ⟨.pick q qs :: r, pt⟩) :
    Fine (exec c (s.cur c) r s (.pick q qs)) := by
  obtain ⟨hr, hm, hheld, hd, hirq, hlock, -, -⟩ := h.at_switch (Or.inl rfl) ht
  have hg := h.good_cur ht
  have hproc : (s.cpu c).proc = none := (hg.sched hr).1
  simp only [exec]
  split
  · rename_i hst
    have hq : ∀ d, (s.cpu d).running ≠ some q := fun d =>
      h.not_executed hlock (by rw [ht]; exact hm) (by simp [hst])
    have hready := h.parked q hq (by simp [hst, Choosable])
    have hi := h.switch (p := q) { s.cpu c with proc := some q } { s.slot q with state := .running }
      ⟨[.load q qs], pt⟩ (s.thread (.proc q)) (Or.inl hr) (Or.inl hr) (fun d _ => hq d)
      (by rw [ht]; exact hheld) ?_ (fun _ => ⟨?_, hheld, fun _ => { hready with }, ?_, ?_⟩)
      (fun hx => absurd hx (hq c))
    · rw [update_sched_keep] at hi
      rw [cur_of_none hr] at ht ⊢
      simpa [Fine, State.setCode, State.setThread, State.setSlot, State.setCpu, ht] using hi
    · rw [cur_of_none hr] at ht
      intro q' qs' r' hc
      rw [ht] at hc
      cases hc
    · refine hg.reload _ [.load q qs] hr id ?_ (by simp)
      simp [Point.fits, Point.run, Point.after, Point.effect, Point.atSwitch, Point.idle, hm, hheld,
        hd, hirq]
    · exact fun q' hq' => by simpa [slotOf, eq_comm] using hq'
    · simp
  · have hcode : ∀ i ∈ release (.proc q) ++ [Instr.scan qs], i.plain = true := by
      simp [release, Instr.plain]
    refine h.setCode ?_ (fun _ => by rw [ht]; rfl) fun _ => rfl
    rw [ht]
    have hnext := hg.reload s.slot (release (.proc q) ++ [.scan qs]) hr id (fits_unlock hm hheld hd
      hirq) fun i hi => hcode i (List.mem_of_mem_tail hi)
    rwa [Good.slotOf_of_plain hcode, ← hproc] at hnext

theorem fine_clear (ht : s.thread (s.cur c) = ⟨.clear q qs :: r, pt⟩) :
    Fine (exec c (s.cur c) r s (.clear q qs)) := by
  obtain ⟨hr, hm, hheld, hd, hirq, hlock, -, -⟩ := h.at_switch (Or.inr (Or.inr rfl)) ht
  have hg := h.good_cur ht
  have hcur : s.thread (.sched c) = ⟨.clear q qs :: r, pt⟩ := by rw [← cur_of_none hr, ht]
  have hq : ∀ d, (s.cpu d).running ≠ some q := h.apart c q hr (by rw [hcur]; rfl)
  have hcode : ∀ i ∈ release (.proc q) ++ [Instr.scan qs], i.plain = true := by
    simp [release, Instr.plain]
  -- the process has left the `RUNNING` state before the switch
  have hst : (s.slot q).state ≠ .running := by
    intro hst
    rcases h.busy q hst with ⟨d, hd⟩ | ⟨d, qs', r', hd, hload⟩
    · exact hq d hd
    · have hd' := (h.slotOf_locked hd (by rw [hload]; rfl)).2
      obtain rfl : d = c := Option.some.inj (hd'.symm.trans hlock)
      rw [hcur] at hload
      cases hload
  have hi := h.switch (p := q) { s.cpu c with proc := none } (s.slot q)
    ⟨release (.proc q) ++ [.scan qs], pt⟩ (s.thread (.proc q)) (Or.inl hr) (Or.inl hr)
    (fun d _ => hq d) (by rw [ht]; exact hheld) ?_ (fun _ => ⟨?_, hheld, h.parked q hq, ?_, ?_⟩)
    (fun hx => absurd hx (hq c))
  · rw [update_sched_keep] at hi
    rw [cur_of_none hr]
    simpa [exec, Fine, State.setCode, State.setThread, State.setCpu, hcur] using hi
  · intro q' qs' r' hc
    rw [hcur] at hc
    cases hc
  · exact hg.reload _ _ hr id (fits_unlock hm hheld hd hirq) fun i hi =>
      hcode i (List.mem_of_mem_tail hi)
  · exact fun q' hq' => by simp [release, slotOf] at hq'
  · simp [release, hst]

theorem fine_load (ht : s.thread (s.cur c) = ⟨.load q qs :: r, pt⟩) :
    Fine (exec c (s.cur c) r s (.load q qs)) := by
  obtain ⟨hr, hm, hheld, hd, hirq, hlock, hnoff, hintr⟩ := h.at_switch (Or.inr (Or.inl rfl)) ht
  have hg := h.good_cur ht
  have hcur : s.thread (.sched c) = ⟨.load q qs :: r, pt⟩ := by rw [← cur_of_none hr, ht]
  have hq : ∀ d, (s.cpu d).running ≠ some q := h.apart c q hr (by rw [hcur]; rfl)
  have hst : (s.slot q).state = .running := h.loading c q qs r hr (by rw [hcur])
  have hready := h.parked q hq (by simp [hst, Choosable])
  have hproc : (s.cpu c).proc = some q := (hg.sched hr).1
  rw [exec, if_neg hready.ctx]
  have hi := h.switch (p := q) { s.cpu c with running := some q } { s.slot q with ctx := .torn }
    ⟨[.clear q qs], pt⟩ { s.thread (.proc q) with
      pt := { (s.thread (.proc q)).pt with
        en := if (s.slot q).ctx = .fresh then (s.cpu c).intena else (s.thread (.proc q)).pt.en } }
    (Or.inl hr) (Or.inr rfl) (fun d _ => hq d) (by rw [ht]; exact hheld) ?_ (fun hx => by cases hx)
    (fun _ => ⟨?_, hready.held, ⟨⟨qs, rfl⟩, hheld, hd, hm, hirq⟩⟩)
  · rw [cur_of_none hr]
    simpa [Fine, toProcess, State.setCode, State.setThread, State.setCpu, State.setSlot, hcur]
      using hi
  · intro q' qs' r' hc
    rw [hcur] at hc
    cases hc
    rfl
  · -- a context that `swtch` has saved, or one of `allocproc`
    cases hctx : (s.slot q).ctx with
    | torn => exact absurd hctx hready.ctx
    | saved =>
      have hres := hready.saved hctx
      refine ⟨?_, ?_, ?_, ?_, ?_, ?_, ?_, ?_, ?_, ?_⟩
      · simp [hnoff, hready.depth]
      · simp [hready.held]
      · simp [hready.held, hready.depth]
      · simpa using hready.armed
      · simp [hintr, hready.depth]
      · exact fun _ hnot => absurd hres hnot
      · simpa [Cpu.thread] using hready.fits
      · exact hready.tail
      · rintro p ⟨⟩
        refine ⟨hproc, by simp [hready.mode, Mode.Shows, hst], fun st hl => ?_, fun b r' hc => ?_,
          by simp⟩
        · simp [hready.mode] at hl
        · rw [show (s.thread (.proc q)).code = .jump b :: r' from hc] at hres
          exact hres.elim
      · exact fun hn => by cases hn
    | fresh =>
      obtain ⟨hcode, hirq'⟩ := hready.fresh hctx
      refine ⟨?_, ?_, ?_, ?_, ?_, ?_, ?_, ?_, ?_, ?_⟩
      · simp [hnoff, hready.depth]
      · simp [hready.held]
      · simp [hready.held, hready.depth]
      · simp [hirq']
      · simp [hintr, hready.depth]
      · simp [Point.eff, hirq']
      · simp only [hcode]
        exact Point.fits_forkret hready.mode hready.held hready.depth hirq'
      · exact hready.tail
      · rintro p ⟨⟩
        refine ⟨hproc, by simp [hready.mode, Mode.Shows, hst], fun st hl => ?_, fun b r' hc => ?_,
          by simp⟩
        · simp [hready.mode] at hl
        · simp [hcode, forkret, myproc] at hc
      · exact fun hn => by cases hn

end

end Xv6.Cpus
