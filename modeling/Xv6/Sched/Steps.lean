import Xv6.Sched.Model

/-!
# Who holds which lock

What each step does, and the locks that a process holds at each point of `sleep`, `wakeup`, `kill`
and `yield`.
-/

namespace Xv6.Sched

open Xv6.Foundation Function

set_option autoImplicit false

section
variable {P L X : Type}

def PC.HoldsOwn : PC P L X → Prop
  | .sleepRelease _ _ | .sleepSet _ _ | .sleepSched _ _ | .sleepTidy _ _ | .sleepUnlock _ => True
  | .yieldSet | .yieldSched | .unlockSelf => True
  | _ => False

def PC.HoldsOther (q : P) : PC P L X → Prop
  | .wakeupTest _ q' _ | .wakeupRelease _ q' _ => q' = q
  | .killSet q' | .killRelease q' => q' = q
  | _ => False

/-- The points at which `sched` returns, and where a new process starts. -/
def PC.Parked : PC P L X → Prop
  | .sleepTidy _ _ | .unlockSelf => True
  | _ => False

theorem PC.Parked.not_holdsOther {pc : PC P L X} (h : pc.Parked) (q : P) : ¬ pc.HoldsOther q := by
  cases pc <;> first | exact id | cases h

end

section
variable {n : Nat} {C L X : Type} {p q : Fin n}

/-- The locks of the processes, and who runs where. -/
structure ProcLocks (s : State (Fin n) C L X) : Prop where
  single : ∀ c c' p, s.cpu c = .running p → s.cpu c' = .running p → c = c'
  own : ∀ c p, s.cpu c = .running p → (s.pc p).HoldsOwn → s.plock p = some c
  other : ∀ c p q, s.cpu c = .running p → (s.pc p).HoldsOther q → s.plock q = some c
  looked : ∀ c p, s.cpu c = .picked p ∨ s.cpu c = .back p → s.plock p = some c
  parked : ∀ p, (∀ c, s.cpu c ≠ .running p) → (s.pc p).Parked

/-- The other locks. -/
structure UserLocks (s : State (Fin n) C L X) : Prop where
  lockHeld : ∀ c lk, s.lock lk = some c → ∃ p, s.cpu c = .running p ∧ lk ∈ s.held p
  heldLock : ∀ p lk, lk ∈ s.held p → ∃ c, s.cpu c = .running p ∧ s.lock lk = some c
  nodup : ∀ p, (s.held p).Nodup
  entering : ∀ p x lk, s.pc p = .sleepEnter x lk ∨ s.pc p = .sleepRelease x lk → lk ∈ s.held p

/-- The states of the processes. -/
structure States (s : State (Fin n) C L X) : Prop where
  asleep : ∀ p, s.state p = .sleeping → ∃ x lk,
    (s.pc p = .sleepSched x lk ∨ s.pc p = .sleepTidy x lk) ∧ s.chan p = some x
  running : ∀ c p, s.cpu c = .running p →
    s.state p = .running ∨ (∃ x lk, s.pc p = .sleepSched x lk) ∨ s.pc p = .yieldSched

structure Inv (s : State (Fin n) C L X) : Prop extends ProcLocks s, UserLocks s, States s

theorem Inv.not_running_of_picked {s : State (Fin n) C L X} {c : C} (h : Inv s)
    (hc : s.cpu c = .picked p) (hr : s.state p = .runnable) : ∀ c, s.cpu c ≠ .running p := by
  intro c' hc'
  have hlock := h.looked c p (Or.inl hc)
  have hown : (s.pc p).HoldsOwn := by
    rcases h.running c' p hc' with hst | ⟨x, lk, hpc⟩ | hpc
    · simp [hr] at hst
    all_goals
      rw [hpc]
      trivial
  have heq : c' = c := by simpa [hlock] using (h.own c' p hc' hown).symm
  simp [heq, hc] at hc'

/-- A process whose lock another one holds has switched away. -/
theorem Inv.parked_of_locked {s : State (Fin n) C L X} {c : C} (h : Inv s) (hc : s.cpu c = .running p)
    (hq : s.plock q = some c) (hne : q ≠ p) (hown : (s.pc q).HoldsOwn) : (s.pc q).Parked := by
  refine h.parked q fun c' hc' => ?_
  have heq : c' = c := by simpa [hq] using (h.own c' q hc' hown).symm
  rw [heq, hc] at hc'
  exact hne (by simpa using hc'.symm)

end

section
variable {n : Nat} {C L X : Type} [DecidableEq C] [DecidableEq L]

/-- What one step of CPU `c` does, with the position of the process it runs. -/
inductive Move (c : C) (s : State (Fin n) C L X) :
    Option (Event (Fin n) L X) → State (Fin n) C L X → Prop where
  | pick {p} : s.cpu c = .scan → s.plock p = none →
      Move c s none ((s.setPlock p (some c)).setCpu c (.picked p))
  | resume {p} : s.cpu c = .picked p → s.state p = .runnable →
      Move c s none ((s.setState p .running).setCpu c (.running p))
  | pass {p} : s.cpu c = .picked p ∨ s.cpu c = .back p →
      Move c s none ((s.setPlock p none).setCpu c .scan)
  | acquire {p lk} : s.cpu c = .running p → s.pc p = .run → s.lock lk = none →
      Move c s (some (.acquired p lk)) (s.take c p lk)
  | release {p lk} : s.cpu c = .running p → s.pc p = .run → s.lock lk = some c →
      Move c s (some (.released p lk)) (s.drop p lk)
  | sleep {p x lk} : s.cpu c = .running p → s.pc p = .run → s.lock lk = some c →
      Move c s (some (.slept p x lk)) (s.setPc p (.sleepEnter x lk))
  | wakeup {p x} : s.cpu c = .running p → s.pc p = .run →
      Move c s none (s.setPc p (.wakeup x (List.finRange n)))
  | plain {p b} : s.cpu c = .running p → s.pc p = .run → b = .yieldEnter ∨ (∃ q, b = .killEnter q) →
      Move c s none (s.setPc p b)
  | lockSelf {p b} : s.cpu c = .running p → s.plock p = none →
      (∃ x lk, s.pc p = .sleepEnter x lk ∧ b = .sleepRelease x lk) ∨
        s.pc p = .yieldEnter ∧ b = .yieldSet →
      Move c s none ((s.setPlock p (some c)).setPc p b)
  | sleepRelease {p x lk} : s.cpu c = .running p → s.pc p = .sleepRelease x lk →
      Move c s none ((s.drop p lk).setPc p (.sleepSet x lk))
  | sleepSet {p x lk} : s.cpu c = .running p → s.pc p = .sleepSet x lk →
      Move c s none
        (((s.setChan p (some x)).setState p .sleeping).setPc p (.sleepSched x lk))
  | yieldSet {p} : s.cpu c = .running p → s.pc p = .yieldSet →
      Move c s none ((s.setState p .runnable).setPc p .yieldSched)
  | sched {p b} : s.cpu c = .running p → s.held p = [] →
      (∃ x lk, s.pc p = .sleepSched x lk ∧ b = .sleepTidy x lk) ∨
        s.pc p = .yieldSched ∧ b = .unlockSelf →
      Move c s none ((s.setCpu c (.back p)).setPc p b)
  | sleepTidy {p x lk} : s.cpu c = .running p → s.pc p = .sleepTidy x lk →
      Move c s none ((s.setChan p none).setPc p (.sleepUnlock lk))
  | unlockSelf {p b} : s.cpu c = .running p →
      (∃ lk, s.pc p = .sleepUnlock lk ∧ b = .sleepReacquire lk) ∨ s.pc p = .unlockSelf ∧ b = .run →
      Move c s none ((s.setPlock p none).setPc p b)
  | sleepReacquire {p lk} : s.cpu c = .running p → s.pc p = .sleepReacquire lk →
      s.lock lk = none → Move c s (some (.acquired p lk)) ((s.take c p lk).setPc p .run)
  | wakeupDone {p x} : s.cpu c = .running p → s.pc p = .wakeup x [] →
      Move c s (some (.woke p x)) (s.setPc p .run)
  | wakeupSelf {p x rest} : s.cpu c = .running p → s.pc p = .wakeup x (p :: rest) →
      Move c s none (s.setPc p (.wakeup x rest))
  | lockOther {p q b} : s.cpu c = .running p → s.plock q = none →
      (∃ x rest, s.pc p = .wakeup x (q :: rest) ∧ b = .wakeupTest x q rest) ∨
        s.pc p = .killEnter q ∧ b = .killSet q →
      Move c s none ((s.setPlock q (some c)).setPc p b)
  | wake {p q b} : s.cpu c = .running p →
      (∃ x rest, s.pc p = .wakeupTest x q rest ∧ b = .wakeupRelease x q rest ∧
        s.chan q = some x) ∨ s.pc p = .killSet q ∧ b = .killRelease q → s.state q = .sleeping →
      Move c s none ((s.setState q .runnable).setPc p b)
  | noWake {p q b} : s.cpu c = .running p →
      (∃ x rest, s.pc p = .wakeupTest x q rest ∧ b = .wakeupRelease x q rest ∧
        ¬ (s.state q = .sleeping ∧ s.chan q = some x)) ∨ s.pc p = .killSet q ∧ b = .killRelease q →
      Move c s none (s.setPc p b)
  | unlockOther {p q b} : s.cpu c = .running p →
      (∃ x rest, s.pc p = .wakeupRelease x q rest ∧ b = .wakeup x rest) ∨
        s.pc p = .killRelease q ∧ b = .run →
      Move c s none ((s.setPlock q none).setPc p b)

variable {s s' : State (Fin n) C L X} {c : C} {ch : Choice (Fin n) L X}
  {e : Option (Event (Fin n) L X)} {lk : L} {q : Fin n} {w : Fin n}
  {t t' : List (Event (Fin n) L X)} {x : X}

theorem move_of_choose {p : Fin n} (hc : s.cpu c = .running p) (hp : s.pc p = .run)
    (hs : choose c p s ch = some (s', e)) : Move c s e s' := by
  cases ch with
  | go | pick => cases hs
  | acquire lk =>
    obtain ⟨hl, hs⟩ := Option.ite_none_right_eq_some.mp hs
    cases hs
    exact .acquire hc hp hl
  | release lk =>
    obtain ⟨hl, hs⟩ := Option.ite_none_right_eq_some.mp hs
    cases hs
    exact .release hc hp hl
  | sleep x lk =>
    obtain ⟨hl, hs⟩ := Option.ite_none_right_eq_some.mp hs
    cases hs
    exact .sleep hc hp hl
  | wakeup x =>
    cases hs
    exact .wakeup hc hp
  | kill q =>
    cases hs
    exact .plain hc hp (Or.inr ⟨q, rfl⟩)
  | yield =>
    cases hs
    exact .plain hc hp (Or.inl rfl)

section Step
variable [DecidableEq X]

theorem move_of_stepProc {p : Fin n} (hc : s.cpu c = .running p)
    (hs : stepProc c p ch s = some (s', e)) : Move c s e s' := by
  unfold stepProc at hs
  split at hs
  next hpc => exact move_of_choose hc hpc hs
  next x lk hpc =>
    obtain ⟨hl, hs⟩ := Option.ite_none_right_eq_some.mp hs
    cases hs
    exact .lockSelf hc hl (Or.inl ⟨x, lk, hpc, rfl⟩)
  next x lk hpc =>
    cases hs
    exact .sleepRelease hc hpc
  next x lk hpc =>
    cases hs
    exact .sleepSet hc hpc
  next x lk hpc =>
    obtain ⟨hl, hs⟩ := Option.ite_none_right_eq_some.mp hs
    cases hs
    exact .sched hc hl (Or.inl ⟨x, lk, hpc, rfl⟩)
  next x lk hpc =>
    cases hs
    exact .sleepTidy hc hpc
  next lk hpc =>
    cases hs
    exact .unlockSelf hc (Or.inl ⟨lk, hpc, rfl⟩)
  next lk hpc =>
    obtain ⟨hl, hs⟩ := Option.ite_none_right_eq_some.mp hs
    cases hs
    exact .sleepReacquire hc hpc hl
  next x hpc =>
    cases hs
    exact .wakeupDone hc hpc
  next x q rest hpc =>
    split_ifs at hs with hq hl
    · cases hs
      subst hq
      exact .wakeupSelf hc hpc
    · cases hs
      exact .lockOther hc hl (Or.inl ⟨x, rest, hpc, rfl⟩)
  next x q rest hpc =>
    cases hs
    split_ifs with hq
    · exact .wake hc (Or.inl ⟨x, rest, hpc, rfl, hq.2⟩) hq.1
    · exact .noWake hc (Or.inl ⟨x, rest, hpc, rfl, hq⟩)
  next x q rest hpc =>
    cases hs
    exact .unlockOther hc (Or.inl ⟨x, rest, hpc, rfl⟩)
  next q hpc =>
    obtain ⟨hl, hs⟩ := Option.ite_none_right_eq_some.mp hs
    cases hs
    exact .lockOther hc hl (Or.inr ⟨hpc, rfl⟩)
  next q hpc =>
    cases hs
    split_ifs with hq
    · exact .wake hc (Or.inr ⟨hpc, rfl⟩) hq
    · exact .noWake hc (Or.inr ⟨hpc, rfl⟩)
  next q hpc =>
    cases hs
    exact .unlockOther hc (Or.inr ⟨hpc, rfl⟩)
  next hpc =>
    obtain ⟨hl, hs⟩ := Option.ite_none_right_eq_some.mp hs
    cases hs
    exact .lockSelf hc hl (Or.inr ⟨hpc, rfl⟩)
  next hpc =>
    cases hs
    exact .yieldSet hc hpc
  next hpc =>
    obtain ⟨hl, hs⟩ := Option.ite_none_right_eq_some.mp hs
    cases hs
    exact .sched hc hl (Or.inr ⟨hpc, rfl⟩)
  next hpc =>
    cases hs
    exact .unlockSelf hc (Or.inr ⟨hpc, rfl⟩)

theorem move_of_step (hs : step c ch s = some (s', e)) : Move c s e s' := by
  unfold step at hs
  split at hs
  next hc =>
    split at hs
    · obtain ⟨hl, hs⟩ := Option.ite_none_right_eq_some.mp hs
      cases hs
      exact .pick hc hl
    · cases hs
  next p hc =>
    split_ifs at hs with hr
    · cases hs
      exact .resume hc hr
    · cases hs
      exact .pass (Or.inl hc)
  next p hc => exact move_of_stepProc hc hs
  next p hc =>
    cases hs
    exact .pass (Or.inr hc)

end Step

/-! ## The invariant is kept -/

theorem Inv.procLocks_move (h : Inv s) (hm : Move c s e s') : ProcLocks s' := by
  have h0 := h.single
  have h1 := h.own
  have h2 := h.looked
  have h3 := h.other
  have h4 := h.parked
  refine ⟨?_, ?_, ?_, ?_, ?_⟩
  · cases hm with
    | resume hc hr =>
      have hnot := h.not_running_of_picked hc hr
      simp [update_apply]
      grind
    | pick | pass | sched =>
      simp [update_apply]
      grind
    | _ => exact h0
  · intro c' p'
    cases hm <;> simp [update_apply] <;> grind [PC.HoldsOwn, PC.HoldsOther]
  · intro c' p' q'
    cases hm with
    | resume hc hr =>
      have hnot := (h4 _ (h.not_running_of_picked hc hr)).not_holdsOther q'
      simp [update_apply]
      grind
    | _ =>
      simp [update_apply]
      grind [PC.HoldsOwn, PC.HoldsOther]
  · intro c' p'
    cases hm <;> simp [update_apply] <;> grind [PC.HoldsOwn, PC.HoldsOther]
  · intro p'
    cases hm <;> simp [update_apply] <;> grind [PC.Parked]

theorem Inv.userLocks_move (h : Inv s) (hm : Move c s e s') : UserLocks s' := by
  have h0 := h.single
  have h1 := h.lockHeld
  have h2 := h.heldLock
  have h3 := h.nodup
  have h4 := h.entering
  refine ⟨?_, ?_, ?_, ?_⟩
  · cases hm with
    | pick | resume | pass | acquire | release | sleepRelease | sleepReacquire | sched =>
      intro c' lk'
      simp [update_apply]
      grind
    | _ => exact h1
  · cases hm with
    | sleepRelease hc hpc =>
      have h5 := h2 _ _ (h4 _ _ _ (Or.inr hpc))
      intro p' lk'
      simp [update_apply]
      grind [List.Nodup.mem_erase_iff]
    | pick | resume | pass | acquire | release | sleepReacquire | sched =>
      intro p' lk'
      simp [update_apply]
      grind [List.Nodup.mem_erase_iff]
    | _ => exact h2
  · cases hm with
    | acquire | release | sleepRelease | sleepReacquire =>
      intro p'
      simp [update_apply]
      grind [List.Nodup.erase]
    | _ => exact h3
  · cases hm with
    | pick | resume | pass => exact h4
    | _ =>
      intro p' x' lk'
      simp [update_apply]
      grind

theorem Inv.states_move (h : Inv s) (hm : Move c s e s') : States s' := by
  have h0 := h.single
  have h1 := h.running
  have h2 := h.asleep
  constructor
  · cases hm with
    | pick | pass | acquire | release => exact h2
    | @sleepSet p x lk hc hpc =>
      intro p' hp'
      by_cases hp : p' = p
      · exact ⟨x, lk, by simp [hp], by simp [hp]⟩
      · simpa [hp] using h2 p' (by simpa [hp] using hp')
    | _ =>
      intro p'
      simp [update_apply]
      grind
  · cases hm with
    | acquire | release => exact h1
    | _ =>
      intro c' p'
      simp [update_apply]
      grind

theorem Inv.move (h : Inv s) (hm : Move c s e s') : Inv s' :=
  ⟨h.procLocks_move hm, h.userLocks_move hm, h.states_move hm⟩

omit [DecidableEq C] [DecidableEq L] in
theorem inv_boot : Inv (boot n C L X) := by
  refine ⟨⟨?_, ?_, ?_, ?_, ?_⟩, ⟨?_, ?_, ?_, ?_⟩, ⟨?_, ?_⟩⟩ <;> simp [boot, PC.Parked]

end

end Xv6.Sched
