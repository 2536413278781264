import Xv6.Pipes.Outline

/-!
# When pipes lose no wakeup

A process that changes what sleepers wait for holds `pi->lock` until it has woken them, with one
exception: `pipewrite` returns `-1` when it finds itself killed, without waking the readers for
the bytes it has put.
-/

namespace Xv6.Pipes

open Xv6.Foundation Function

set_option autoImplicit false

variable {n : Nat}

instance QuitsAnnounced.decidable : (t : List (Event n)) → Decidable (QuitsAnnounced t)
  | [] => isTrue trivial
  | .returned p (.wrote r) :: t =>
    haveI := decidable t
    inferInstanceAs (Decidable ((r = -1 → unannounced p t = false) ∧ QuitsAnnounced t))
  | .returned _ (.read _ _ _) :: t | .returned _ .closed :: t | .put _ _ :: t | .took _ _ :: t
  | .woke _ _ :: t => decidable t

variable {s s' : State n} {t : List (Event n)} {e : Option (Event n)} {p : Fin n} {c : Chan} {pc : PC n}

/-- Only a process that has set `SLEEPING` sleeps. -/
def Asleep (s : State n) : Prop := ∀ p, s.sleeping p → (s.pc p).parks

theorem Asleep.setPc (h : Asleep s) (hp : s.sleeping p → pc.parks) : Asleep (s.setPc p pc) := by
  intro q hq
  by_cases hqp : q = p
  · subst hqp
    simpa using hp hq
  · simpa [hqp] using h q hq

theorem Asleep.setPc_awake (h : Asleep s) (hp : (s.pc p).parks = false) : Asleep (s.setPc p pc) :=
  h.setPc fun hs => absurd (h p hs) (by simp [hp])

theorem Asleep.wake (h : Asleep s) (chan : Chan) (q : Fin n) : Asleep (wake s chan q) := by
  intro p hp
  rw [wake_pc]
  refine h p ?_
  unfold Pipes.wake at hp
  split_ifs at hp
  · by_cases hpq : p = q
    · simp [hpq] at hp
    · simpa [hpq] using hp
  · exact hp

theorem Asleep.stepSleep {stage : Stage} {k : Loop} (h : Asleep s) (hpc : s.pc p = .sleep c stage k)
    (hs : stepSleep p s c k stage = some s') : Asleep s' := by
  cases stage with
  | entering | locked =>
    cases hs
    exact h.setPc_awake (by rw [hpc]; rfl)
  | released =>
    cases hs
    intro q hq
    by_cases hqp : q = p
    · subst hqp
      simp [PC.parks]
    · simpa [hqp] using h q (by simpa [hqp] using hq)
  | set =>
    cases hs
    exact h.setPc fun _ => rfl
  | parked =>
    simp only [Pipes.stepSleep, Option.ite_none_left_eq_some, Option.some.injEq] at hs
    obtain ⟨hawake, rfl⟩ := hs
    exact h.setPc fun hp => absurd hp hawake
  | reacquire =>
    simp only [Pipes.stepSleep, Option.ite_none_right_eq_some, Option.some.injEq] at hs
    obtain ⟨-, rfl⟩ := hs
    exact h.setPc_awake (by rw [hpc]; rfl)

theorem Asleep.step (h : Asleep s) (hs : Step s e s') : Asleep s' := by
  cases hs with
  | @kill q _ hs =>
    simp only [Pipes.kill, Option.ite_none_left_eq_some, Option.some.injEq] at hs
    obtain ⟨-, rfl⟩ := hs
    intro p hp
    by_cases hpq : p = q
    · simp [hpq] at hp
    · exact h p (by simpa [hpq] using hp)
  | @proc p call _ _ hs =>
    unfold Pipes.step at hs
    split at hs
    next hpc =>
      cases hs
      exact h.setPc_awake (by rw [hpc]; rfl)
    next k hpc =>
      obtain ⟨-, hs⟩ := Option.ite_none_right_eq_some.mp hs
      cases hs
      exact h.setPc_awake (by rw [hpc]; rfl)
    next k hpc =>
      cases hs
      exact h.setPc_awake (by rw [hpc]; rfl)
    next m dst i hpc =>
      cases hs
      exact h.setPc_awake (by rw [hpc]; rfl)
    next b k hpc =>
      cases hs
      exact h.setPc_awake (by rw [hpc]; rfl)
    next b q todo k hpc =>
      split_ifs at hs
      · cases hs
        exact h.setPc_awake (by rw [hpc]; rfl)
      · cases hs
        exact (h.wake b q).setPc_awake (by rw [wake_pc, hpc]; rfl)
    next b stage k hpc =>
      simp only [Option.map_eq_some_iff, Prod.mk.injEq] at hs
      obtain ⟨_, hs, rfl, rfl⟩ := hs
      exact h.stepSleep hpc hs
    next r hpc =>
      cases hs
      exact h.setPc_awake (by rw [hpc]; rfl)

theorem Reaches.asleep {data : Nat → UInt8} (h : Reaches data t s) : Asleep s :=
  Run.invariant (I := fun _ s => Asleep s) (by simp [Asleep, boot])
    (fun _ _ _ _ ih hs => ih.step hs) (fun _ _ _ _ _ ih hs => ih.step hs) h

theorem Reaches.blocks {data : Nat → UInt8} (h : Reaches data t s) (hq : QuitsAnnounced t)
    (hl : s.lock = none) (hs : s.sleeping p) (hc : (s.pc p).sleepsOn c) : s.pipe.Blocks c :=
  (h.outlined c).not_left_asleep (q := p) hl
    (by simp [PC.asleepOn, hs, hc, h.asleep p hs]) hq

/-- If no `pipewrite` quits with bytes it has not announced, then while `pi->lock` is free every
sleeping reader finds an empty buffer and an open write end, and every sleeping writer a full
buffer and an open read end. -/
theorem pipe_no_lost_wakeup {data : Nat → UInt8} (h : Reaches data t s) (hq : QuitsAnnounced t)
    (hl : s.lock = none) (hs : s.sleeping p) :
    ((s.pc p).sleepsOn .nread → s.pipe.Empty ∧ s.pipe.writeopen) ∧
    ((s.pc p).sleepsOn .nwrite → s.pipe.Full ∧ s.pipe.readopen) :=
  ⟨fun hc => h.blocks hq hl hs hc, fun hc => h.blocks hq hl hs hc⟩

/-- Process 1 goes to sleep in `piperead`. -/
def readerSleeps : List (Label 2) := List.replicate 7 (.proc 1 (.read 1 fun _ => true))

/-- Process 0 writes one byte more than the buffer holds, and goes to sleep in `pipewrite`. -/
def writerSleeps : List (Label 2) :=
  List.replicate (PIPESIZE + 10) (.proc 0 (.write (PIPESIZE + 1) fun _ => some 7))

/-- The reader takes a byte, the writer puts its last one and returns, and the reader takes the
rest. -/
def drained : List (Label 2) :=
  List.replicate 9 (.proc 1 (.read 1 fun _ => true)) ++
    List.replicate 8 (.proc 0 (.write (PIPESIZE + 1) fun _ => some 7)) ++
    List.replicate (PIPESIZE + 8) (.proc 1 (.read (PIPESIZE + 1) fun _ => true))

/-- Process 0 writes two bytes, and is killed when it has put one of them. -/
def writerKilled : List (Label 2) :=
  List.replicate 3 (.proc 0 (.write 2 fun _ => some 7)) ++ [.kill 0] ++
    List.replicate 2 (.proc 0 (.write 2 fun _ => some 7))

def after (ls : List (Label 2)) : State 2 × List (Event 2) :=
  (trace exec ls (boot 2 fun _ => 0, [])).getD (boot 2 fun _ => 0, [])

theorem after_reaches {ls : List (Label 2)}
    (h : trace exec ls (boot 2 fun _ => 0, []) = some (after ls)) :
    Reaches (fun _ => 0) (after ls).2 (after ls).1 :=
  Run.trace (fun _ _ _ _ h => Step.of_exec h) Run.refl h

/-- The list of labels runs, no `pipewrite` quits unannounced, and at the end `pi->lock` is free and
`p` sleeps on `chan`. -/
def leavesAsleep (ls : List (Label 2)) (p : Fin 2) (chan : Chan) : Bool :=
  (trace exec ls (boot 2 fun _ => 0, [])).any fun x =>
    decide (QuitsAnnounced x.2) && x.1.lock.isNone && x.1.sleeping p && (x.1.pc p).sleepsOn chan

theorem after_of_leavesAsleep {ls : List (Label 2)} {p : Fin 2} {chan : Chan}
    (h : leavesAsleep ls p chan = true) :
    Reaches (fun _ => 0) (after ls).2 (after ls).1 ∧ QuitsAnnounced (after ls).2 ∧
      (after ls).1.lock = none ∧ (after ls).1.sleeping p ∧ ((after ls).1.pc p).sleepsOn chan := by
  obtain ⟨x, hx, h⟩ := (Option.any_eq_true _ _).mp h
  have hafter : after ls = x := by rw [after, hx, Option.getD_some]
  have hr : Reaches (fun _ => 0) (after ls).2 (after ls).1 := after_reaches (hx.trans (by rw [hafter]))
  rw [hafter] at hr ⊢
  simpa [and_assoc, hr] using h

/-- The writer sleeps while the buffer is full. When it has been woken and has returned, and the
buffer is drained, the reader sleeps again. -/
theorem pipe_no_lost_wakeup_in_turns :
    ((after (readerSleeps ++ writerSleeps)).1.sleeping 0 ∧
      (after (readerSleeps ++ writerSleeps)).1.pipe.Full) ∧
    (after (readerSleeps ++ writerSleeps ++ drained ++ readerSleeps)).1.sleeping 1 ∧
      (after (readerSleeps ++ writerSleeps ++ drained ++ readerSleeps)).1.pipe.Empty := by
  have hw := @after_of_leavesAsleep (readerSleeps ++ writerSleeps) 0 .nwrite (by decide +kernel)
  have hr := @after_of_leavesAsleep (readerSleeps ++ writerSleeps ++ drained ++ readerSleeps) 1
    .nread (by decide +kernel)
  -- the states are made opaque, or they are computed again
  generalize after (readerSleeps ++ writerSleeps) = x at hw ⊢
  generalize after (readerSleeps ++ writerSleeps ++ drained ++ readerSleeps) = y at hr ⊢
  obtain ⟨hreach, hq, hl, hs, hc⟩ := hw
  obtain ⟨hreach', hq', hl', hs', hc'⟩ := hr
  obtain ⟨hfull, -⟩ := (pipe_no_lost_wakeup hreach hq hl hs).2 hc
  obtain ⟨hempty, -⟩ := (pipe_no_lost_wakeup hreach' hq' hl' hs').1 hc'
  exact ⟨⟨hs, hfull⟩, hs', hempty⟩

/-- The writer quits with a byte in the buffer, and the reader still sleeps. -/
theorem pipe_killed_writer_loses_wakeup :
    ∃ t s, Reaches (n := 2) (fun _ => 0) t s ∧ s.lock = none ∧ s.sleeping 1 ∧
      (s.pc 1).sleepsOn .nread ∧ ¬ s.pipe.Empty :=
  ⟨_, _, @after_reaches (readerSleeps ++ writerKilled) rfl, rfl, rfl, rfl, by decide⟩

end Xv6.Pipes
