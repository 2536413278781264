import Xv6.Pipes.Outline

/-!
# A pipe is a bounded FIFO

What the outline says about the bytes in the pipe, in every interleaving.
-/

namespace Xv6.Pipes

open Xv6.Foundation

set_option autoImplicit false

variable {n : Nat} {s s' : State n} {t : List (Event n)} {e : Option (Event n)} {p : Fin n}

/-! ## Steps -/

theorem stepSleep_pipe {chan : Chan} {stage : Stage} {k : Loop}
    (h : stepSleep p s chan k stage = some s') : s'.pipe = s.pipe := by
  cases stage with
  | entering | locked | released | set =>
    cases h
    rfl
  | parked | reacquire =>
    rw [stepSleep] at h
    split_ifs at h
    cases h
    rfl

theorem wake_pipe (s : State n) (chan : Chan) (q : Fin n) : (wake s chan q).pipe = s.pipe := by
  unfold wake
  split_ifs <;> rfl

/-- A step writes at most the slot at `nwrite`, and a call returns from its last point. -/
theorem step_spec {call : Call} (h : step p call s = some (s', e)) :
    (∀ j, s'.pipe.data j ≠ s.pipe.data j → ¬ s.pipe.Full ∧ j = s.pipe.nwrite % PIPESIZE) ∧
    ∀ q r, e = some (.returned q r) → s.pc q = .release r := by
  have hturn {r : Turn n} (hr : r.Sound p s.pipe) :
      (∀ j, r.pipe.data j ≠ s.pipe.data j → ¬ s.pipe.Full ∧ j = s.pipe.nwrite % PIPESIZE) ∧
      ∀ q r', r.event = some (.returned q r') → s.pc q = .release r' := by
    refine ⟨hr.data, fun q r' he => ?_⟩
    rcases hr.event _ he with ⟨ch, hc⟩ | ⟨ch, hc⟩ <;> cases hc
  unfold step at h
  split at h
  next =>
    cases h
    simp
  next k _ =>
    obtain ⟨-, h⟩ := Option.ite_none_right_eq_some.mp h
    cases h
    exact hturn (begin_sound _ k)
  next k _ =>
    cases h
    exact hturn (stepLoop_sound p _ _ k)
  next m dst i _ =>
    cases h
    exact hturn (stepCopy_sound p _ m dst i)
  next =>
    cases h
    simp
  next =>
    split_ifs at h
    · cases h
      simp
    · cases h
      simp [wake_pipe]
  next =>
    simp only [Option.map_eq_some_iff, Prod.mk.injEq] at h
    obtain ⟨_, hs, rfl, rfl⟩ := h
    simp [stepSleep_pipe hs]
  next r hpc =>
    cases h
    refine ⟨by simp, fun q r' he => ?_⟩
    cases he
    exact hpc

theorem Step.writes (h : Step s e s') {j : Nat} (hj : s'.pipe.data j ≠ s.pipe.data j) :
    ¬ s.pipe.Full ∧ j = s.pipe.nwrite % PIPESIZE := by
  cases h with
  | proc h => exact (step_spec h).1 j hj
  | kill h =>
    simp only [Pipes.kill, Option.ite_none_left_eq_some, Option.some.injEq] at h
    obtain ⟨-, rfl⟩ := h
    exact absurd rfl hj

theorem Step.returned {r : Result} (h : Step s (some (.returned p r)) s') : s.pc p = .release r := by
  cases h with
  | proc h => exact (step_spec h).2 p r rfl

/-! ## Runs -/

section
variable {data : Nat → UInt8} (h : Reaches data t s)
include h

theorem Reaches.tracks : Tracks s.pipe t := by
  have ho := h.outlined .nread
  cases hl : s.lock with
  | none => exact (ho.free hl).1
  | some p =>
    rcases ho.held hl with ⟨k, hk⟩ | ⟨hf, -⟩
    · exact hk.tracks
    · exact hf.1

theorem Reaches.inside {r : Result} (hs : Step s (some (.returned p r)) s') :
    Inside p (.release r) (s.pipe, t) := by
  have hp := (h.outlined .nread).points p
  rwa [view_pc, hs.returned] at hp

end

theorem Reaches.settled {data : Nat → UInt8} {m r : Int} {dst : Nat → Bool}
    (h : Reaches data (.returned p (.read m dst r) :: t) s) : Settled dst r (removed p t) := by
  obtain ⟨s₁, s₂, hr, hs⟩ := Run.exists_step
    (show Run _ _ ([] ++ .returned p (.read m dst r) :: t) s from h)
  exact (Reaches.inside hr hs).took

/-- A pipe is a bounded FIFO, in every interleaving and also when the counters wrap. -/
theorem pipe_fifo {data : Nat → UInt8} (h : Reaches data t s) :
    (s.pipe.count ≤ PIPESIZE ∧ s.pipe.nwrite = (s.pipe.nread + s.pipe.count) % 2 ^ 32) ∧
    putBytes t = takenBytes t ++ s.pipe.buffered ∧
    (∀ e s', Step s e s' → ∀ j < s.pipe.count,
      s'.pipe.data (s.pipe.slot j) = s.pipe.data (s.pipe.slot j)) ∧
    (∀ p m dst s', Step s (some (.returned p (.read m dst 0))) s' → 0 < m →
      (∀ i : Nat, i < m → dst i) → s.pipe.Empty ∧ s.pipe.writeopen = false) := by
  have ht : Ring.Tracks PIPESIZE (2 ^ 32) s.pipe.data s.pipe.nread s.pipe.nwrite (putBytes t)
      (takenBytes t) := h.tracks
  refine ⟨⟨ht.count_le sized, ?_⟩, ht.put_eq sized, ?_, ?_⟩
  · rw [Pipe.count, ht.count_eq sized]
    exact ht.tail_eq_add
  · intro e s' hs j hj
    by_contra hne
    obtain ⟨hf, hslot⟩ := hs.writes hne
    exact ht.slot_ne_tail sized hf hj hslot
  · intro p m dst s' hs hpos hdst
    exact (h.inside hs).pipe rfl hpos (hdst 0 (by simpa using hpos))

/-- Process 0 writes two bytes, then process 1 reads one of them. -/
def writeAndRead : List (Label 2) :=
  List.replicate 10 (.proc 0 (.write 2 fun i => some (if i = 0 then 7 else 8))) ++
    List.replicate 9 (.proc 1 (.read 1 fun _ => true))

def afterRead : State 2 × List (Event 2) :=
  (trace exec writeAndRead (boot 2 fun _ => 0, [])).getD (boot 2 fun _ => 0, [])

theorem pipe_fifo_two : putBytes afterRead.2 = [7, 8] ∧ takenBytes afterRead.2 = [7] ∧
    [7, 8] = [7] ++ afterRead.1.pipe.buffered := by
  have htrace : trace exec writeAndRead (boot 2 fun _ => 0, []) = some afterRead := rfl
  have hr : Reaches (fun _ => 0) afterRead.2 afterRead.1 :=
    Run.trace (fun _ _ _ _ h => Step.of_exec h) Run.refl htrace
  exact ⟨rfl, rfl, (pipe_fifo hr).2.1⟩

end Xv6.Pipes
