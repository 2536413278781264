import Xv6.Cpus.Runs

/-!
# A process runs on at most one CPU

Locks are handed over at a switch: the thread that goes on releases `p->lock`, once, whoever has taken
it.
-/

namespace Xv6.Cpus

open Xv6.Foundation
open Xv6.Procs (ProcState)

set_option autoImplicit false

variable {T C : Type} [DecidableEq T] {s s' : State T C} {c : C} {p q : T} {l : Lock T}
  {t : Thread T C} {x y : Point T} {i : Instr T}

/-! ## How often a lock is released -/

def Instr.takes (l : Lock T) : Instr T → Nat
  | .take l' => if l' = l then 1 else 0
  | _ => 0

/-- `pick`, `load` and `clear` stand for the rest of the body of the loop of `scheduler`, at the end of
which `p->lock` is released. -/
def Instr.drops (l : Lock T) : Instr T → Nat
  | .drop l' => if l' = l then 1 else 0
  | .pick q _ | .load q _ | .clear q _ => if .proc q = l then 1 else 0
  | _ => 0

def takes (l : Lock T) (code : List (Instr T)) : Nat := (code.map (Instr.takes l)).sum

def drops (l : Lock T) (code : List (Instr T)) : Nat := (code.map (Instr.drops l)).sum

def Returns (t : Thread T C) (L : Local T) : Prop :=
  ∃ y, L.pt.run t L.code = some y ∧ y.mode ≠ .gone

namespace Point

theorem count_effect (h : x.effect t i = some y) :
    y.held.count l + i.drops l = x.held.count l + i.takes l := by
  cases i with
  | intr | sret | off | pop | myproc | visit =>
    simp only [effect, Option.ite_none_right_eq_some, Option.some.injEq] at h
    obtain ⟨-, rfl⟩ := h
    rfl
  | push =>
    cases h
    rfl
  | dead => cases h
  | take l' =>
    simp only [effect, Option.ite_none_right_eq_some, Option.some.injEq] at h
    obtain ⟨-, rfl⟩ := h
    simp [Instr.takes, Instr.drops, List.count_cons]
  | drop l' =>
    simp only [effect, Option.ite_none_right_eq_some, Option.some.injEq] at h
    obtain ⟨⟨hl, -⟩, rfl⟩ := h
    by_cases hll : l' = l
    · subst hll
      have := List.count_pos_iff.mpr hl
      simp only [Instr.takes, Instr.drops, List.count_erase_self, if_true]
      omega
    · simp [Instr.takes, Instr.drops, hll, List.count_erase_of_ne (Ne.symm hll)]
  | setState | restore | scan =>
    cases t with
    | proc | sched =>
      simp only [effect, Option.ite_none_right_eq_some, Option.some.injEq, reduceCtorEq] at h
      try
        obtain ⟨-, rfl⟩ := h
        rfl
  | sched | save | jump =>
    cases t with
    | sched => cases h
    | proc =>
      cases hm : x.mode with
      | run | gone => simp [effect, hm] at h
      | left st =>
        simp only [effect, hm, Option.ite_none_right_eq_some, Option.some.injEq] at h
        obtain ⟨-, rfl⟩ := h
        rfl
  | pick q qs | load q qs | clear q qs =>
    cases t with
    | proc => cases h
    | sched =>
      simp only [effect, Option.ite_none_right_eq_some, Option.some.injEq] at h
      obtain ⟨⟨-, hat, -⟩, rfl⟩ := h
      simp [Instr.takes, Instr.drops, (atSwitch_iff.mp hat).1, List.count_singleton]

theorem count_run {code : List (Instr T)} (h : x.run t code = some y) (hy : y.mode ≠ .gone) :
    y.held.count l + drops l code = x.held.count l + takes l code := by
  induction code generalizing x with
  | nil =>
    cases h
    rfl
  | cons i r ih =>
    have hx : x.mode ≠ .gone := by
      intro hg
      rw [run_gone hg] at h
      cases h
      exact hy hg
    rw [run, after_of_not_gone hx] at h
    obtain ⟨z, hz, hrest⟩ := Option.bind_eq_some_iff.mp h
    have := ih hrest
    have := count_effect (l := l) hz
    simp only [drops, takes, List.map_cons, List.sum_cons] at *
    omega

end Point

/-- What a thread has left to do releases each lock that its CPU holds once more often than it takes
it, and each other lock as often. -/
theorem Inv.balanced [DecidableEq C] (h : Inv s) (hret : Returns (s.cur c) (s.thread (s.cur c))) :
    drops l (s.thread (s.cur c)).code =
      takes l (s.thread (s.cur c)).code + if s.holder l = some c then 1 else 0 := by
  have hg := h.good c
  obtain ⟨y, hy, hgone⟩ := hret
  have hidle := hg.fits
  rw [Point.fits, ← State.cur_eq, hy] at hidle
  have hheld : y.held = [] := ((Point.idle_iff.mp (by simpa using hidle)).resolve_left hgone).1
  have hcount := Point.count_run (l := l) hy hgone
  rw [hheld, List.count_nil, hg.nodup.count] at hcount
  simp only [← h.locks] at hcount
  omega

/-! ## At a switch -/

/-- CPU `c` is about to do a part of a `swtch` from or to process `p`. -/
def Switches (c : C) (p : T) (s : State T C) : Prop :=
  ∃ i r, (s.thread (s.cur c)).code = i :: r ∧
    ((∃ b, i = .save b ∨ i = .jump b) ∧ (s.cpu c).running = some p ∨ ∃ qs, i = .load p qs)

theorem Inv.switches (h : Inv s) (hs : Switches c p s) :
    (s.thread (s.cur c)).pt.held = [.proc p] ∧ (s.thread (s.cur c)).pt.depth = 1 := by
  obtain ⟨i, r, hcode, hi⟩ := hs
  have ht : s.thread (s.cur c) = ⟨i :: r, (s.thread (s.cur c)).pt⟩ := by rw [← hcode]
  obtain ⟨y, he, -, -⟩ := (h.good_cur ht).effect
  apply Point.atSwitch_iff.mp
  rcases hi with ⟨⟨b, hb⟩, hr⟩ | ⟨qs, rfl⟩
  · cases hm : (s.thread (s.cur c)).pt.mode with
    | run | gone =>
      rcases hb with rfl | rfl <;> simp [Cpu.thread, hr, Point.effect, hm] at he
    | left st =>
      rcases hb with rfl | rfl <;>
      · simp only [Cpu.thread, hr, Point.effect, hm, Option.ite_none_right_eq_some] at he
        exact he.1.1
  · cases hr : (s.cpu c).running with
    | some p' => simp [Cpu.thread, hr, Point.effect] at he
    | none =>
      simp only [Cpu.thread, hr, Point.effect, Option.ite_none_right_eq_some] at he
      exact he.1.2.1

theorem Inv.proc_cases (h : Inv s) (hc : (s.cpu c).proc = some p) : (s.cpu c).running = some p ∨
      (s.cpu c).running = none ∧ slotOf (s.thread (.sched c)).code = some p := by
  have hg := h.good c
  cases hr : (s.cpu c).running with
  | some q =>
    have := (hg.self q hr).proc
    rw [hc] at this
    exact Or.inl this.symm
  | none =>
    have := (hg.sched hr).1
    rw [hc, cur_of_none hr] at this
    exact Or.inr ⟨rfl, this.symm⟩

theorem Inv.proc_unique (h : Inv s) {c' : C} (hc : (s.cpu c).proc = some p)
    (hc' : (s.cpu c').proc = some p) : c = c' := by
  rcases h.proc_cases hc with hr | ⟨hr, hs⟩ <;> rcases h.proc_cases hc' with hr' | ⟨hr', hs'⟩
  · exact h.sole p c c' hr hr'
  · exact absurd hr (h.apart c' p hr' hs' c)
  · exact absurd hr' (h.apart c p hr hs c')
  · exact Option.some.inj ((h.slotOf_locked hr hs).2.symm.trans (h.slotOf_locked hr' hs').2)

/-- While no one holds its lock, a process is `RUNNING` just while it is executed. -/
theorem Inv.running_iff (h : Inv s) (hl : s.holder (.proc p) = none) :
    (s.slot p).state = .running ↔ ∃ c, (s.cpu c).running = some p := by
  constructor
  · intro hst
    rcases h.busy p hst with hc | ⟨c, qs, r, hr, hcode⟩
    · exact hc
    · have := (h.slotOf_locked hr (by rw [hcode]; rfl)).2
      rw [hl] at this
      cases this
  · rintro ⟨c, hr⟩
    have hself := (h.good c).self p hr
    cases hm : (s.thread (s.cur c)).pt.mode with
    | run =>
      have := hself.state
      rwa [hm] at this
    | left st =>
      have := (h.locks (.proc p) c).mpr (hself.locked st hm)
      rw [hl] at this
      cases this
    | gone => exact absurd hm (h.good c).mode_ne_gone

variable [DecidableEq C]

theorem Switches.holder_eq (hs : Switches c p s) (hstep : step s (.step c) = .ok () s') :
    s'.holder = s.holder := by
  obtain ⟨i, r, hcode, hi⟩ := hs
  simp only [step, hcode] at hstep
  rcases hi with ⟨⟨b, rfl | rfl⟩, -⟩ | ⟨qs, rfl⟩
  · simp only [exec] at hstep
    split at hstep
    · cases hstep
      rfl
    · cases hstep
  · cases hstep
    rfl
  · simp only [exec] at hstep
    split at hstep
    · cases hstep
    · cases hstep
      rfl

theorem Inv.begin_ok (h : Inv s) (hr : (s.cpu c).running = some p)
    (hnil : (s.thread (.proc p)).code = []) (ops : List (Op T))
    (hops : ∀ en, Point.fits (.proc p : Thread T C) ⟨[], 0, .run, en, false⟩
      (ops.flatMap (Op.code (.proc p : Thread T C))) = true) :
    ∃ s', step s (.code c ops) = .ok () s' := by
  have hg := h.good c
  rw [cur_of_running hr] at hg
  obtain ⟨hd, hirq⟩ := hg.idle_of_nil hnil
  have hheld : (s.thread (.proc p)).pt.held = [] :=
    List.eq_nil_of_length_eq_zero (by have := hg.nested; omega)
  have hpt : (s.thread (.proc p)).pt = ⟨[], 0, .run, (s.thread (.proc p)).pt.en, false⟩ := by
    rw [← hheld, ← hd, ← hirq, ← hg.mode_of_depth_zero hd]
  have hfits := hops (s.thread (.proc p)).pt.en
  rw [← hpt] at hfits
  refine ⟨s.setCode (.proc p) (ops.flatMap (Op.code (.proc p : Thread T C))), ?_⟩
  simp only [step, cur_of_running hr, begin, hnil, hfits]
  rfl

section
variable {ini : T}

/-- In every reachable state: a process is `c->proc` of at most one CPU; the context that a scheduler
switches to is complete, and no CPU executes it; a process is `RUNNING` just while a CPU executes it,
if nobody holds its lock; at every part of a switch the CPU holds `p->lock` and has `noff = 1`, and it
holds the same locks after it; what a thread has left to do releases the locks that its CPU holds once
more than it takes them, unless it exits, so that the one that goes on after the switch releases
`p->lock` once; no step panics, and `yield`, and `sleep` and `exit` with one other lock held, can be
called wherever a process has nothing open. -/
theorem one_cpu_per_process (hreach : Reaches ini s) :
    (∀ p c c', (s.cpu c).proc = some p → (s.cpu c').proc = some p → c = c') ∧
    (∀ c q qs r, (s.thread (s.cur c)).code = .load q qs :: r →
      (s.slot q).ctx ≠ .torn ∧ ∀ d, (s.cpu d).running ≠ some q) ∧
    (∀ p, s.holder (.proc p) = none →
      ((s.slot p).state = .running ↔ ∃ c, (s.cpu c).running = some p)) ∧
    (∀ c p, Switches c p s → s.holder (.proc p) = some c ∧ (s.cpu c).noff = 1 ∧
      ∀ s', step s (.step c) = .ok () s' → s'.holder = s.holder) ∧
    (∀ c l, Returns (s.cur c) (s.thread (s.cur c)) → drops l (s.thread (s.cur c)).code =
      takes l (s.thread (s.cur c)).code + if s.holder l = some c then 1 else 0) ∧
    (∀ l e, step s l ≠ .panic e) ∧
    (∀ c p lk, (s.cpu c).running = some p → (s.thread (.proc p)).code = [] → lk ≠ .proc p →
      (∃ s', step s (.code c [.yield]) = .ok () s') ∧
      (∃ s', step s (.code c [.acquire lk, .sleep lk, .release lk]) = .ok () s') ∧
      ∃ s', step s (.code c [.acquire lk, .exit lk]) = .ok () s') := by
  have h := hreach.inv
  refine ⟨fun p c c' => h.proc_unique, fun c q qs r hcode => ?_, fun p => h.running_iff,
    fun c p hs => ⟨(h.locks _ c).mpr ?_, ?_, fun s' => hs.holder_eq⟩, fun c l => h.balanced,
    fun l e he => ?_, fun c p lk hr hnil hlk => ⟨?_, ?_, ?_⟩⟩
  · have ht : s.thread (s.cur c) = ⟨.load q qs :: r, (s.thread (s.cur c)).pt⟩ := by rw [← hcode]
    have hr := (h.at_switch (Or.inr (Or.inl rfl)) ht).1
    rw [cur_of_none hr] at hcode
    have hq := h.apart c q hr (by rw [hcode]; rfl)
    have hst := h.loading c q qs r hr hcode
    exact ⟨(h.parked q hq (by simp [hst, Choosable])).ctx, hq⟩
  · simp [(h.switches hs).1]
  · exact (h.good c).noff.trans (h.switches hs).2
  · have := fine_step h l
    rw [he] at this
    exact this
  · refine h.begin_ok hr hnil _ fun en => ?_
    simp only [List.flatMap_cons, List.flatMap_nil, List.append_nil, Op.code, Point.fits]
    rw [Point.run_yield rfl rfl rfl]
    rfl
  · refine h.begin_ok hr hnil _ fun en => ?_
    simp only [List.flatMap_cons, List.flatMap_nil, List.append_nil, Op.code, Point.fits]
    rw [Point.run_seq (Point.run_acquire rfl (by simp) (by simp)),
      Point.run_seq (Point.run_sleep rfl rfl rfl hlk), Point.run_release (Or.inl rfl) (by simp) (by simp)]
    simp [Point.idle]
  · refine h.begin_ok hr hnil _ fun en => ?_
    obtain ⟨y, hy, hgone⟩ :=
      Point.run_exit (C := C) (p := p) (l := lk) (x := ⟨[lk], 1, .run, en, false⟩) rfl rfl rfl hlk
    simp only [List.flatMap_cons, List.flatMap_nil, List.append_nil, Op.code, Point.fits]
    rw [Point.run_seq (Point.run_acquire rfl (by simp) (by simp)), hy]
    simp [Point.idle, hgone]

end

/-- One of two CPUs is about to switch to the first process. -/
def choosing : State Unit Bool :=
  after execute (.loop false [()] :: List.replicate 6 (.step false)) (boot () Bool)

theorem one_cpu_per_process_choosing :
    choosing.holder (.proc ()) = some false ∧ (choosing.cpu false).noff = 1 ∧
      (choosing.slot ()).ctx ≠ .torn := by
  obtain ⟨t, hrun⟩ : ∃ t, Run Step (boot () Bool) t choosing :=
    Run.after (fun l _ _ _ h => ⟨l, execute_eq_some h⟩) (by decide +kernel)
  have hcode : (choosing.thread (choosing.cur false)).code = [.load () []] := rfl
  have hs : Switches false () choosing := ⟨_, _, hcode, Or.inr ⟨[], rfl⟩⟩
  have hreach : Reaches () choosing := ⟨t, hrun⟩
  have h := one_cpu_per_process hreach
  exact ⟨(h.2.2.2.1 false () hs).1, (h.2.2.2.1 false () hs).2.1, (h.2.1 false () [] [] hcode).1⟩

end Xv6.Cpus
