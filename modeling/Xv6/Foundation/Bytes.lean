import Mathlib.Tactic.Common
import Mathlib.Logic.Function.Basic
import Mathlib.Tactic.Ring

/-!
# Little-endian fields of byte strings

A byte string is a total function from offsets; only the offsets of a named field
are ever read. Fields of the same string are independent as soon as their ranges are
disjoint, which is all that the on-disk and in-memory structures need.
-/

namespace Xv6.Foundation

set_option autoImplicit false

abbrev Byte := BitVec 8

abbrev Bytes := Nat → Byte

def getLE (d : Bytes) (off : Nat) : Nat → Nat
  | 0 => 0
  | k + 1 => (d off).toNat + 256 * getLE d (off + 1) k

/-- Store the low `k` bytes of `v`, least significant first. -/
def putLE (d : Bytes) (off k v : Nat) : Bytes := fun i =>
  if off ≤ i ∧ i < off + k then BitVec.ofNat 8 (v / 256 ^ (i - off)) else d i

/-- Copy `n` bytes of `src` (read from offset zero) to offset `off`. -/
def blit (d : Bytes) (off : Nat) (src : Bytes) (n : Nat) : Bytes := fun i =>
  if off ≤ i ∧ i < off + n then src (i - off) else d i

theorem getLE_congr {d e : Bytes} {off k : Nat}
    (h : ∀ i, off ≤ i → i < off + k → d i = e i) : getLE d off k = getLE e off k := by
  induction k generalizing off with
  | zero => rfl
  | succ k ih =>
    simp only [getLE]
    rw [h off (Nat.le_refl _) (by omega), ih (fun i hi hk => h i (by omega) (by omega))]

theorem getLE_lt (d : Bytes) (off k : Nat) : getLE d off k < 256 ^ k := by
  induction k generalizing off with
  | zero => simp [getLE]
  | succ k ih =>
    have hb := (d off).isLt
    have ht := ih (off + 1)
    simp only [getLE, pow_succ]
    omega

variable {d : Bytes}

theorem putLE_of_lt {off k v i : Nat} (h : i < off) : putLE d off k v i = d i := by
  simp [putLE, Nat.not_le.mpr h]

theorem putLE_of_ge {off k v i : Nat} (h : off + k ≤ i) : putLE d off k v i = d i := by
  simp [putLE, Nat.not_lt.mpr h]

theorem getLE_putLE_self (d : Bytes) (off k v : Nat) (hv : v < 256 ^ k) :
    getLE (putLE d off k v) off k = v := by
  induction k generalizing d off v with
  | zero => simp at hv; simp [getLE, hv]
  | succ k ih =>
    have hrest : getLE (putLE d off (k + 1) v) (off + 1) k =
        getLE (putLE d (off + 1) k (v / 256)) (off + 1) k := by
      apply getLE_congr
      intro i hi hk
      have hsub : i - off = i - (off + 1) + 1 := by omega
      simp only [putLE, hi, hk, and_self, if_true]
      rw [if_pos ⟨by omega, by omega⟩, hsub, pow_succ, Nat.mul_comm, Nat.div_div_eq_div_mul]
    have hdiv : v / 256 < 256 ^ k := by
      rw [pow_succ] at hv
      exact Nat.div_lt_of_lt_mul (by omega)
    simp only [getLE]
    rw [hrest, ih d (off + 1) (v / 256) hdiv]
    simp [putLE]
    omega

theorem getLE_putLE_of_disjoint (d : Bytes) {off k v off' k' : Nat}
    (h : off' + k' ≤ off ∨ off + k ≤ off') : getLE (putLE d off k v) off' k' = getLE d off' k' := by
  apply getLE_congr
  intro i hi hk
  rcases h with h | h
  · exact putLE_of_lt (by omega)
  · exact putLE_of_ge (by omega)

theorem blit_of_mem {off : Nat} {src : Bytes} {n i : Nat}
    (h : off ≤ i) (h' : i < off + n) : blit d off src n i = src (i - off) := by
  simp [blit, h, h']

theorem blit_of_not_mem {off : Nat} {src : Bytes} {n i : Nat}
    (h : i < off ∨ off + n ≤ i) : blit d off src n i = d i := by
  unfold blit
  rw [if_neg (by omega)]

@[simp] theorem blit_zero (d : Bytes) (off : Nat) (src : Bytes) : blit d off src 0 = d := by
  funext i
  exact blit_of_not_mem (by omega)

end Xv6.Foundation
