import Xv6.Foundation.Ring
import Xv6.Pipes.Model

/-!
# What passes through a pipe

The counters `nread` and `nwrite` run freely and wrap at `2 ^ 32`, a multiple of `PIPESIZE`; the
ring they describe tracks the whole sequences of bytes put and taken. `piperead` advances `nread`
before it copies the byte out. A call whose copies all succeed takes as many bytes as it returns;
one whose copy fails has taken one byte more, which nobody gets.
-/

namespace Xv6.Pipes

open Xv6.Foundation

set_option autoImplicit false

variable {n : Nat}

/-! ## Bytes put and taken -/

def putBytes : List (Event n) → List UInt8
  | [] => []
  | .put _ ch :: t => putBytes t ++ [ch]
  | _ :: t => putBytes t

def takenBytes : List (Event n) → List UInt8
  | [] => []
  | .took _ ch :: t => takenBytes t ++ [ch]
  | _ :: t => takenBytes t

/-- `nwrite - nread`, in `uint` arithmetic. -/
def Pipe.count (pi : Pipe) : Nat := Ring.count (2 ^ 32) pi.nread pi.nwrite

/-- The slot of `data` that holds the `j`-th unread byte. -/
def Pipe.slot (pi : Pipe) (j : Nat) : Nat := Ring.slot PIPESIZE (2 ^ 32) pi.nread j

def Pipe.buffered (pi : Pipe) : List UInt8 :=
  Ring.contents PIPESIZE (2 ^ 32) pi.data pi.nread pi.nwrite

theorem sized : Ring.Sized PIPESIZE (2 ^ 32) := ⟨by decide, by decide, by decide⟩

def Tracks (pi : Pipe) (t : List (Event n)) : Prop :=
  Ring.Tracks PIPESIZE (2 ^ 32) pi.data pi.nread pi.nwrite (putBytes t) (takenBytes t)

/-! ## Calls of `piperead` -/

/-- The bytes that `p` has taken since its last call returned. -/
def removed (p : Fin n) : List (Event n) → List UInt8
  | [] => []
  | .took q ch :: t => if q = p then removed p t ++ [ch] else removed p t
  | .returned q _ :: t => if q = p then [] else removed p t
  | _ :: t => removed p t

/-- The bytes that the calls which have returned copied out, oldest first. -/
def delivered : List (Event n) → List UInt8
  | [] => []
  | .returned p (.read _ _ r) :: t => delivered t ++ (removed p t).take r.toNat
  | _ :: t => delivered t

/-- No `copyout` of a call that has returned failed. -/
def Faultless : List (Event n) → Prop
  | [] => True
  | .returned p (.read _ dst _) :: t => (∀ i < (removed p t).length, dst i) ∧ Faultless t
  | _ :: t => Faultless t

/-- How a `piperead` that took `k` ends: killed while it waited, with all bytes delivered, or at a
byte that could not be copied. -/
inductive Settled (dst : Nat → Bool) : Int → List UInt8 → Prop where
  | killed : Settled dst (-1) []
  | copied {k : List UInt8} (all : ∀ i < k.length, dst i) : Settled dst k.length k
  | failed {k : List UInt8} {ch : UInt8} (all : ∀ i < k.length, dst i) (last : dst k.length = false) :
      Settled dst k.length (k ++ [ch])

namespace Settled
variable {dst : Nat → Bool} {r : Int} {k : List UInt8}

theorem length_eq_iff (h : Settled dst r k) : k.length = r.toNat ↔ ∀ i < k.length, dst i := by
  cases h with
  | killed => simp
  | copied all => simpa using all
  | @failed k ch all last =>
    refine ⟨fun he => absurd he (by simp), fun hall => ?_⟩
    rw [hall k.length (by simp)] at last
    cases last

theorem take_eq (h : Settled dst r k) (hall : ∀ i < k.length, dst i) : k.take r.toNat = k := by
  rw [← h.length_eq_iff.mpr hall]
  exact List.take_length

end Settled

/-- What a process at `pc` has taken in its call. -/
def PC.Took (k : List UInt8) : PC n → Prop
  | .copy _ dst i => k.length = i ∧ ∀ j < i, dst j
  | .waking _ _ (.release (.read _ dst r)) | .release (.read _ dst r) => Settled dst r k
  | _ => k = []

/-- What has been taken has been delivered, apart from the bytes `k` of a call that goes on. -/
def Balanced (k : List UInt8) (t : List (Event n)) : Prop :=
  Faultless t → takenBytes t = delivered t ++ k

/-- The process of an event. -/
def Event.proc : Event n → Fin n
  | .put p _ | .took p _ | .woke p _ | .returned p _ => p

variable {t : List (Event n)} {p q : Fin n}

theorem removed_of_ne {e : Event n} (hq : q ≠ e.proc) : removed q (e :: t) = removed q t := by
  cases e with
  | put | woke => rfl
  | took | returned => exact if_neg (Ne.symm hq)

theorem removed_took_self (ch : UInt8) : removed p (.took p ch :: t) = removed p t ++ [ch] :=
  if_pos rfl

theorem removed_returned_self (r : Result) : removed p (.returned p r :: t) = [] := if_pos rfl

theorem Balanced.took (h : Balanced (removed p t) t) (ch : UInt8) :
    Balanced (removed p (.took p ch :: t)) (.took p ch :: t) := by
  intro hf
  show takenBytes t ++ [ch] = delivered t ++ _
  rw [removed_took_self, ← List.append_assoc, h hf]

theorem Balanced.returned {r : Result} (h : Balanced (removed p t) t)
    (hk : (PC.release r : PC n).Took (removed p t)) : Balanced [] (.returned p r :: t) := by
  intro hf
  rw [List.append_nil]
  cases r with
  | read m dst r =>
    obtain ⟨hall, hf⟩ := hf
    show takenBytes t = delivered t ++ (removed p t).take r.toNat
    rw [h hf, hk.take_eq hall]
  | wrote r | closed =>
    have ht := h hf
    rwa [show removed p t = [] from hk, List.append_nil] at ht

end Xv6.Pipes
