import Xv6.Cpus.Invariant

/-!
# Every step keeps the invariant

No instruction panics, and each leaves the invariant as it was.
-/

namespace Xv6.Cpus

open Xv6.Foundation Function
open Xv6.Procs (ProcState)

set_option autoImplicit false

variable {T C : Type} [DecidableEq T]

/-- No panic, and the invariant afterwards. -/
def Fine : Outcome (State T C) Panic Unit → Prop
  | .ok _ s => Inv s
  | .panic _ => False
  | .blocked => True

variable {s : State T C} {c : C} {slot : T → Slot} {x x' : Cpu T} {L : Local T} {pt y : Point T}
  {i : Instr T} {r : List (Instr T)} {p : T}

namespace Good

theorem mode_ne_gone (h : Good slot c x L) : L.pt.mode ≠ .gone := by
  intro hm
  cases hr : x.running with
  | some p =>
    have := (h.self p hr).state
    rw [hm] at this
    exact this
  | none =>
    have := (h.sched hr).2
    rw [hm] at this
    cases this

theorem effect (h : Good slot c x ⟨i :: r, pt⟩) : ∃ y, pt.effect (x.thread c) i = some y ∧
    pt.after (x.thread c) i = some y ∧ y.fits (x.thread c) r = true := by
  obtain ⟨y, hy, hfits⟩ := Point.fits_cons.mp h.fits
  exact ⟨y, (Point.after_of_not_gone h.mode_ne_gone).symm.trans hy, hy, hfits⟩

/-- What the scheduler cannot execute, a process does. -/
theorem effect_proc (h : Good slot c x ⟨i :: r, pt⟩) (hi : pt.effect (.sched c) i = none) :
    ∃ p y, x.running = some p ∧ pt.effect (.proc p : Thread T C) i = some y ∧
      pt.after (x.thread c) i = some y ∧ y.fits (x.thread c) r = true := by
  obtain ⟨y, he, ha, hfits⟩ := h.effect
  cases hr : x.running with
  | none => simp [Cpu.thread, hr, hi] at he
  | some p => exact ⟨p, y, rfl, by simpa [Cpu.thread, hr] using he, ha, hfits⟩

theorem intr_off (h : Good slot c x L) (hd : 0 < L.pt.depth) : x.intr = false := by
  rw [h.intr, decide_eq_false (by omega)]
  rfl

omit [DecidableEq T] in
theorem slotOf_of_plain (hr : ∀ i ∈ r, i.plain = true) : slotOf r = none := by
  cases r with
  | nil => rfl
  | cons i r =>
    have := hr i List.mem_cons_self
    cases i with
    | load q qs | clear q qs => cases this
    | _ => rfl

theorem next {code : List (Instr T)} (h : Good slot c x L) (hrun : x'.running = x.running)
    (hproc : x'.proc = x.proc) (hcode : ∀ i ∈ code, i.plain = true) (hold : slotOf L.code = none)
    (hmode : y.mode = L.pt.mode)
    (hlocked : ∀ p st, x.running = some p → y.mode = .left st → .proc p ∈ y.held)
    (hnoff : x'.noff = y.depth) (hnodup : y.held.Nodup) (hnested : y.held.length ≤ y.depth)
    (harmed : y.irq = true → y.en = true) (hintr : x'.intr = (decide (y.depth = 0) && y.eff))
    (hintena : 0 < y.depth → x'.intena = y.eff) (hfits : y.fits (x.thread c) code = true) :
    Good slot c x' ⟨code, y⟩ := by
  refine ⟨hnoff, hnodup, hnested, harmed, hintr, fun hd _ => hintena hd, ?_,
    fun i hi => hcode i (List.mem_of_mem_tail hi), fun p hp => ?_, fun hn => ?_⟩
  · rw [show x'.thread c = x.thread c by simp [Cpu.thread, hrun]]
    exact hfits
  · rw [hrun] at hp
    have hself := h.self p hp
    refine ⟨hproc.trans hself.proc, hmode ▸ hself.state, fun st hst => hlocked p st hp hst, ?_,
      hself.begun⟩
    intro b r hc
    have := hcode (.jump b) (by rw [show code = .jump b :: r from hc]; exact List.mem_cons_self)
    cases this
  · rw [hrun] at hn
    rw [hproc, slotOf_of_plain hcode, hmode]
    exact ⟨(h.sched hn).1.trans hold, (h.sched hn).2⟩

end Good

variable [DecidableEq C]

theorem Inv.setCode {code : List (Instr T)} (h : Inv s)
    (hgood : Good s.slot c (s.cpu c) ⟨code, (s.thread (s.cur c)).pt⟩)
    (hold : (s.cpu c).running = none → slotOf (s.thread (s.cur c)).code = none)
    (hnew : (s.cpu c).running = none → slotOf code = none) : Inv (s.setCode (s.cur c) code) := by
  have hi := h.focus (s.cpu c) ⟨code, (s.thread (s.cur c)).pt⟩ s.slot s.holder rfl hgood
    (fun l => h.locks l c) (fun _ _ _ => Iff.rfl) (fun _ _ => rfl) hold hnew
  rwa [update_eq_self] at hi

section
variable (h : Inv s) (ht : s.thread (s.cur c) = ⟨i :: r, pt⟩)
include h ht

omit [DecidableEq C] in
theorem Inv.good_cur : Good s.slot c (s.cpu c) ⟨i :: r, pt⟩ := ht ▸ h.good c

omit [DecidableEq C] in
theorem Inv.rest_plain : ∀ j ∈ r, j.plain = true := (h.good_cur ht).tail

theorem Inv.advance (hi : slotOf (i :: r) = none) (hafter : pt.after (s.cur c) i = some y)
    (x : Cpu T) (holder' : Lock T → Option C) (hrun : x.running = (s.cpu c).running)
    (hgood : Good s.slot c x ⟨r, y⟩) (hmine : ∀ l, holder' l = some c ↔ l ∈ y.held)
    (hother : ∀ l c', c' ≠ c → (holder' l = some c' ↔ s.holder l = some c')) :
    Inv (State.advance ⟨s.slot, update s.cpu c x, holder', s.thread⟩ (s.cur c) i r) := by
  have hfocus := h.focus x ⟨r, y⟩ s.slot holder' hrun hgood hmine hother (fun _ _ => rfl)
    (fun _ => by rw [ht]; exact hi) fun _ => Good.slotOf_of_plain (h.rest_plain ht)
  simpa [State.advance, State.setThread, ht, hafter] using hfocus

end

section
variable (h : Inv s) {b : Bool}
include h

omit [DecidableEq C] in
theorem Inv.holder_iff (ht : s.thread (s.cur c) = L) (l : Lock T) :
    s.holder l = some c ↔ l ∈ L.pt.held := ht ▸ h.locks l c

theorem fine_intr (ht : s.thread (s.cur c) = ⟨.intr b :: r, pt⟩) :
    Fine (exec c (s.cur c) r s (.intr b)) := by
  have hg := h.good_cur ht
  obtain ⟨y, he, ha, hfits⟩ := hg.effect
  simp only [Point.effect, Option.ite_none_right_eq_some, Option.some.injEq] at he
  obtain ⟨⟨hd, hm, hq⟩, rfl⟩ := he
  refine h.advance ht rfl ha { s.cpu c with intr := b } s.holder rfl ?_ (h.holder_iff ht)
    fun _ _ _ => Iff.rfl
  refine hg.next rfl rfl (h.rest_plain ht) rfl rfl ?_ hg.noff hg.nodup hg.nested ?_ ?_ ?_ hfits
  · exact fun p st _ hl => by simp [hm] at hl
  · exact fun hirq => by simp [hq] at hirq
  · simp [Point.eff, hd, hq]
  · exact fun hpos => by simp [hd] at hpos

theorem fine_sret (ht : s.thread (s.cur c) = ⟨.sret :: r, pt⟩) :
    Fine (exec c (s.cur c) r s .sret) := by
  have hg := h.good_cur ht
  obtain ⟨y, he, ha, hfits⟩ := hg.effect
  simp only [Point.effect, Option.ite_none_right_eq_some, Option.some.injEq] at he
  obtain ⟨⟨hd, hm, hq⟩, rfl⟩ := he
  refine h.advance ht rfl ha { s.cpu c with intr := true } s.holder rfl ?_ (h.holder_iff ht)
    fun _ _ _ => Iff.rfl
  refine hg.next rfl rfl (h.rest_plain ht) rfl rfl ?_ hg.noff hg.nodup hg.nested ?_ ?_ ?_ hfits
  · exact fun p st _ hl => by simp [hm] at hl
  · exact fun hirq => by cases hirq
  · simpa [Point.eff, hd] using (hg.armed hq).symm
  · exact fun hpos => by simp [hd] at hpos

theorem fine_push (ht : s.thread (s.cur c) = ⟨.push :: r, pt⟩) :
    Fine (exec c (s.cur c) r s .push) := by
  have hg := h.good_cur ht
  obtain ⟨y, he, ha, hfits⟩ := hg.effect
  cases he
  have hold : pt.depth = 0 → (s.cpu c).intr = pt.eff := fun hd => by simp [hg.intr, hd]
  have hcode : ∀ j ∈ (Instr.off (s.cpu c).intr :: r), j.plain = true := by
    simpa [Instr.plain] using h.rest_plain ht
  refine h.setCode ?_ (fun _ => by rw [ht]; rfl) fun _ => rfl
  rw [ht]
  refine hg.next rfl rfl hcode rfl rfl ?_ hg.noff hg.nodup hg.nested hg.armed hg.intr ?_ ?_
  · exact fun p st hp hl => (hg.self p hp).locked st hl
  · exact fun hpos => hg.intena hpos id
  · rw [Point.fits_cons]
    refine ⟨_, ?_, hfits⟩
    rw [Point.after_of_not_gone hg.mode_ne_gone, Point.effect, if_pos hold]

theorem fine_off {old : Bool} (ht : s.thread (s.cur c) = ⟨.off old :: r, pt⟩) :
    Fine (exec c (s.cur c) r s (.off old)) := by
  have hg := h.good_cur ht
  obtain ⟨y, he, ha, hfits⟩ := hg.effect
  simp only [Point.effect, Option.ite_none_right_eq_some, Option.some.injEq] at he
  obtain ⟨hold, rfl⟩ := he
  refine h.advance ht rfl ha _ s.holder rfl ?_ (h.holder_iff ht) fun _ _ _ => Iff.rfl
  refine hg.next rfl rfl (h.rest_plain ht) rfl rfl ?_ ?_ hg.nodup ?_ hg.armed ?_ ?_ hfits
  · exact fun p st hp hl => (hg.self p hp).locked st hl
  · simp [hg.noff]
  · exact hg.nested.trans (Nat.le_succ _)
  · simp
  · intro _
    have hnoff : (s.cpu c).noff = pt.depth := hg.noff
    by_cases hd : pt.depth = 0
    · simpa [hnoff, hd, Point.eff] using hold hd
    · simpa [hnoff, hd, Point.eff] using hg.intena (Nat.pos_of_ne_zero hd) id

theorem fine_pop (ht : s.thread (s.cur c) = ⟨.pop :: r, pt⟩) :
    Fine (exec c (s.cur c) r s .pop) := by
  have hg := h.good_cur ht
  obtain ⟨y, he, ha, hfits⟩ := hg.effect
  simp only [Point.effect, Option.ite_none_right_eq_some, Option.some.injEq] at he
  obtain ⟨hlt, rfl⟩ := he
  have hpos : 0 < pt.depth := by omega
  have hnoff : (s.cpu c).noff = pt.depth := hg.noff
  have hintena : (s.cpu c).intena = pt.eff := hg.intena hpos id
  have hpop : popOff c s = .ok () (s.setCpu c { s.cpu c with
      noff := (s.cpu c).noff - 1
      intr := decide ((s.cpu c).noff - 1 = 0) && (s.cpu c).intena }) := by
    rw [popOff, if_neg (by simp [hg.intr_off hpos]), if_neg (by omega)]
  simp only [exec, hpop]
  refine h.advance ht rfl ha _ s.holder rfl ?_ (h.holder_iff ht) fun _ _ _ => Iff.rfl
  refine hg.next rfl rfl (h.rest_plain ht) rfl rfl ?_ ?_ hg.nodup ?_ hg.armed ?_ ?_ hfits
  · exact fun p st hp hl => (hg.self p hp).locked st hl
  · simp [hnoff]
  · simp only
    omega
  · simp [hnoff, hintena, Point.eff]
  · intro _
    simpa [Point.eff] using hintena

theorem fine_take {l : Lock T} (ht : s.thread (s.cur c) = ⟨.take l :: r, pt⟩) :
    Fine (exec c (s.cur c) r s (.take l)) := by
  have hg := h.good_cur ht
  obtain ⟨y, he, ha, hfits⟩ := hg.effect
  simp only [Point.effect, Option.ite_none_right_eq_some, Option.some.injEq] at he
  obtain ⟨⟨hm, hl, hlt⟩, rfl⟩ := he
  have hpos : 0 < pt.depth := by omega
  simp only [exec]
  cases hh : s.holder l with
  | some c' =>
    have hne : c' ≠ c := by
      rintro rfl
      exact hl ((h.holder_iff ht l).mp hh)
    simp [hne, Fine]
  | none =>
    have hi := h.advance ht rfl ha (s.cpu c) (update s.holder l (some c)) rfl ?_ ?_ ?_
    · rw [update_eq_self] at hi
      exact hi
    · refine hg.next rfl rfl (h.rest_plain ht) rfl rfl ?_ hg.noff ?_ ?_ hg.armed hg.intr ?_ hfits
      · exact fun p st _ hl => by simp [hm] at hl
      · exact List.nodup_cons.mpr ⟨hl, hg.nodup⟩
      · exact hlt
      · exact fun _ => hg.intena hpos id
    · intro l'
      by_cases hl' : l' = l
      · simp [hl']
      · simpa [hl'] using h.holder_iff ht l'
    · intro l' c' hc
      by_cases hl' : l' = l
      · simp [hl', hh, Ne.symm hc]
      · simp [hl']

theorem fine_drop {l : Lock T} (ht : s.thread (s.cur c) = ⟨.drop l :: r, pt⟩) :
    Fine (exec c (s.cur c) r s (.drop l)) := by
  have hg := h.good_cur ht
  obtain ⟨y, he, ha, hfits⟩ := hg.effect
  simp only [Point.effect, Option.ite_none_right_eq_some, Option.some.injEq] at he
  obtain ⟨⟨hl, hown⟩, rfl⟩ := he
  have hh : s.holder l = some c := (h.holder_iff ht l).mpr hl
  simp only [exec, hh, if_true]
  have hi := h.advance ht rfl ha (s.cpu c) (update s.holder l none) rfl ?_ ?_ ?_
  · rw [update_eq_self] at hi
    exact hi
  · refine hg.next rfl rfl (h.rest_plain ht) rfl rfl ?_ hg.noff (hg.nodup.erase l) ?_ hg.armed
      hg.intr ?_ hfits
    · intro p st hp hst
      have hin := (hg.self p hp).locked st hst
      refine (List.mem_erase_of_ne ?_).mpr hin
      rintro rfl
      rcases hown with hrun | hne
      · rw [show pt.mode = .left st from hst] at hrun
        cases hrun
      · exact hne (by simp [Cpu.thread, hp, Thread.lock])
    · exact (List.length_erase_le).trans hg.nested
    · exact fun hpos => hg.intena hpos id
  · intro l'
    by_cases hl' : l' = l
    · simp [hl', hg.nodup.not_mem_erase]
    · simpa [hl', List.mem_erase_of_ne hl'] using h.holder_iff ht l'
  · intro l' c' hc
    by_cases hl' : l' = l
    · simp [hl', hh, Ne.symm hc]
    · simp [hl']

theorem fine_myproc (ht : s.thread (s.cur c) = ⟨.myproc :: r, pt⟩) :
    Fine (exec c (s.cur c) r s .myproc) := by
  have hg := h.good_cur ht
  obtain ⟨y, he, ha, hfits⟩ := hg.effect
  simp only [Point.effect, Option.ite_none_right_eq_some, Option.some.injEq] at he
  obtain ⟨⟨hproc, hpos⟩, rfl⟩ := he
  cases hr : (s.cpu c).running with
  | none => simp [Cpu.thread, hr, Thread.lock] at hproc
  | some p =>
    have hp : (s.cur c).lock.isSome ∧ (s.cpu c).proc.map .proc = (s.cur c).lock := by
      simp [cur_of_running hr, Thread.lock, (hg.self p hr).proc]
    rw [exec, if_pos hp]
    have hi := h.advance ht rfl ha (s.cpu c) s.holder rfl ?_ (h.holder_iff ht) fun _ _ _ => Iff.rfl
    · rwa [update_eq_self] at hi
    · refine hg.next rfl rfl (h.rest_plain ht) rfl rfl ?_ hg.noff hg.nodup hg.nested hg.armed
        hg.intr (hg.intena · id) hfits
      exact fun p st hp hl => (hg.self p hp).locked st hl

theorem fine_scan {qs : List T} (ht : s.thread (s.cur c) = ⟨.scan qs :: r, pt⟩) :
    Fine (exec c (s.cur c) r s (.scan qs)) := by
  have hg := h.good_cur ht
  obtain ⟨y, he, ha, hfits⟩ := hg.effect
  cases hr : (s.cpu c).running with
  | some p => simp [Cpu.thread, hr, Point.effect] at he
  | none =>
    simp only [Cpu.thread, hr, Point.effect, Option.ite_none_right_eq_some, Option.some.injEq] at he
    obtain ⟨⟨hm, hheld, hd, hirq⟩, rfl⟩ := he
    have hnext : ∀ code : List (Instr T), (∀ i ∈ code, i.plain = true) →
        pt.fits ((s.cpu c).thread c) code = true → Inv (s.setCode (s.cur c) code) := by
      intro code hcode hfit
      refine h.setCode ?_ (fun _ => by rw [ht]; rfl) fun _ => Good.slotOf_of_plain hcode
      rw [ht]
      refine hg.next rfl rfl hcode rfl rfl ?_ hg.noff hg.nodup hg.nested hg.armed hg.intr
        (hg.intena · id) hfit
      exact fun p st hp _ => by simp [hr] at hp
    cases qs with
    | nil =>
      refine hnext [] (by simp) ?_
      rw [Point.fits_nil, Point.idle_iff]
      exact Or.inr ⟨hheld, hd, hm, hirq⟩
    | cons q qs =>
      refine hnext _ (by simp [acquire, Instr.plain]) ?_
      simp [Point.fits, acquire, Point.run, Point.after, Point.effect, Point.atSwitch, Point.idle,
        Cpu.thread, hr, hm, hheld, hd, hirq]

theorem fine_sched (ht : s.thread (s.cur c) = ⟨.sched :: r, pt⟩) :
    Fine (exec c (s.cur c) r s .sched) := by
  have hg := h.good_cur ht
  obtain ⟨p, y, hr, he, ha, hfits⟩ := hg.effect_proc rfl
  have hself := hg.self p hr
  cases hm : pt.mode with
  | run | gone => simp [Point.effect, hm] at he
  | left st =>
    simp only [Point.effect, hm, Option.ite_none_right_eq_some,
      Option.some.injEq] at he
    obtain ⟨hat, rfl⟩ := he
    obtain ⟨hheld, hd⟩ := Point.atSwitch_iff.mp hat
    have hintr : (s.cpu c).intr = false := hg.intr_off (by simp [hd])
    have hstate : (s.slot p).state ≠ .running := by
      obtain ⟨hst, hor⟩ : (s.slot p).state = st ∧ _ := by simpa [Mode.Shows, hm] using hself.state
      rcases hor with h' | h' | h' <;> simp [hst, h']
    have htests : schedTests c p s = none := by
      have hlock : s.holder (.proc p) = some c := (h.holder_iff ht _).mpr (by simp [hheld])
      have hnoff : (s.cpu c).noff = 1 := hg.noff.trans hd
      simp [schedTests, hlock, hnoff, hstate, hintr]
    simp only [exec, hself.proc, htests]
    have heff : (s.cpu c).intena = pt.eff := hg.intena (by simp [hd]) id
    refine h.setCode ?_ (fun _ => by rw [ht]; rfl) fun _ => rfl
    rw [ht]
    refine { hg with
      intena := fun hpos _ => hg.intena hpos id
      fits := ?_
      self := fun p hp => { hg.self p hp with saved := fun b r hc => by cases hc }
      sched := fun hn => by simp [hr] at hn }
    refine Point.fits_cons.mpr ⟨_, ?_, hfits⟩
    rw [Point.after_of_not_gone hg.mode_ne_gone]
    simp [Cpu.thread, hr, Point.effect, hm, hat, heff]

theorem fine_restore (ht : s.thread (s.cur c) = ⟨.restore b :: r, pt⟩) :
    Fine (exec c (s.cur c) r s (.restore b)) := by
  have hg := h.good_cur ht
  obtain ⟨p, y, hr, he, ha, hfits⟩ := hg.effect_proc rfl
  simp only [Point.effect, Option.ite_none_right_eq_some, Option.some.injEq] at he
  obtain ⟨⟨hm, hat, hb⟩, rfl⟩ := he
  refine h.advance ht rfl ha { s.cpu c with intena := b } s.holder rfl ?_ (h.holder_iff ht)
    fun _ _ _ => Iff.rfl
  refine hg.next rfl rfl (h.rest_plain ht) rfl rfl ?_ hg.noff hg.nodup hg.nested hg.armed hg.intr
    (fun _ => hb) hfits
  exact fun p st _ hl => by simp [hm] at hl

theorem Inv.own {L' : Local T} (ht : s.thread (s.cur c) = L) (hr : (s.cpu c).running = some p)
    (z : Slot) (hgood : Good (update s.slot p z) c (s.cpu c) L')
    (hheld : L'.pt.held = L.pt.held) : Inv ((s.setSlot p z).setThread (s.cur c) L') := by
  have hi := h.focus (s.cpu c) L' (update s.slot p z) s.holder rfl hgood
    (fun l => by rw [hheld]; exact h.holder_iff ht l) (fun _ _ _ => Iff.rfl) ?_
    (fun hn => by simp [hr] at hn) (fun hn => by simp [hr] at hn)
  · rwa [update_eq_self] at hi
  · intro q hq
    refine update_of_ne ?_ ..
    rintro rfl
    exact hq hr

theorem fine_setState {st : ProcState} (ht : s.thread (s.cur c) = ⟨.setState st :: r, pt⟩) :
    Fine (exec c (s.cur c) r s (.setState st)) := by
  have hg := h.good_cur ht
  obtain ⟨p, y, hr, he, ha, hfits⟩ := hg.effect_proc rfl
  have hself := hg.self p hr
  simp only [Point.effect, Option.ite_none_right_eq_some, Option.some.injEq] at he
  obtain ⟨⟨hm, hin, hst⟩, rfl⟩ := he
  have hplain := h.rest_plain ht
  have hnext : Good (update s.slot p { s.slot p with state := st }) c (s.cpu c)
      ⟨r, { pt with mode := .left st }⟩ := by
    refine ⟨hg.noff, hg.nodup, hg.nested, hg.armed, hg.intr, fun hpos _ => hg.intena hpos id,
      hfits, fun i hi => hplain i (List.mem_of_mem_tail hi), fun p' hp' => ?_,
      fun hn => by simp [hr] at hn⟩
    obtain rfl : p = p' := Option.some.inj (hr.symm.trans hp')
    refine ⟨hself.proc, ?_, fun _ _ => hin, fun b r' hc => ?_, by simpa using hself.begun⟩
    · simpa [Mode.Shows] using hst
    · have := hplain (.jump b) (by rw [show r = .jump b :: r' from hc]; exact List.mem_cons_self)
      cases this
  simp only [exec, hself.proc]
  have hi := h.own ht hr _ hnext rfl
  rw [State.cur_eq] at ht hi ⊢
  simpa [Fine, State.advance, State.setSlot, ht, ha] using hi

theorem fine_save (ht : s.thread (s.cur c) = ⟨.save b :: r, pt⟩) :
    Fine (exec c (s.cur c) r s (.save b)) := by
  have hg := h.good_cur ht
  obtain ⟨p, y, hr, he, ha, hfits⟩ := hg.effect_proc rfl
  have hself := hg.self p hr
  have hnext : Good (update s.slot p { s.slot p with ctx := .saved }) c (s.cpu c)
      ⟨.jump b :: r, pt⟩ := by
    refine ⟨hg.noff, hg.nodup, hg.nested, hg.armed, hg.intr, fun hpos _ => hg.intena hpos id,
      ?_, hg.tail, fun p' hp' => ?_, fun hn => by simp [hr] at hn⟩
    · refine Point.fits_cons.mpr ⟨y, ?_, hfits⟩
      simp only [Point.after_of_not_gone hg.mode_ne_gone, Cpu.thread, hr]
      exact he
    · obtain rfl : p = p' := Option.some.inj (hr.symm.trans hp')
      exact ⟨hself.proc, by simpa using hself.state, hself.locked, fun _ _ _ => by simp, by simp⟩
  simp only [exec, hself.proc]
  have hi := h.own ht hr _ hnext rfl
  rw [State.cur_eq] at ht hi ⊢
  simpa [Fine, State.setCode, State.setSlot, ht] using hi

end

end Xv6.Cpus
