import Mathlib.Algebra.Group.Nat.Defs
import Mathlib.Logic.Function.Basic
import Mathlib.Tactic.Common

/-!
# The two `memmove`s

The kernel and the user library each have their own: they choose the direction of the copy by
different tests, and run the same two loops. Addresses are 64-bit and wrap; an offset from `d` to
`a` is the difference `a - d`, so that a range that ends at the top of memory is no special case.
-/

namespace Xv6.Library

open Function

set_option autoImplicit false

abbrev Addr := BitVec 64

abbrev Memory := Addr → BitVec 8

/-- `while(n-- > 0) *d++ = *s++` -/
def copyUp : Nat → Addr → Addr → Memory → Memory
  | 0, _, _, m => m
  | n + 1, d, s, m => copyUp n (d + 1) (s + 1) (Function.update m d (m s))

/-- `while(n-- > 0) *--d = *--s` -/
def copyDown : Nat → Addr → Addr → Memory → Memory
  | 0, _, _, m => m
  | n + 1, d, s, m => copyDown n (d - 1) (s - 1) (Function.update m (d - 1) (m (s - 1)))

/-- `memmove` of `kernel/string.c`, where `n` is a `uint`. -/
def Kernel.memmove (m : Memory) (dst src : Addr) (n : BitVec 32) : Addr × Memory :=
  let len := n.setWidth 64
  if src < dst ∧ src + len > dst then
    (dst, copyDown n.toNat (dst + len) (src + len) m)
  else
    (dst, copyUp n.toNat dst src m)

/-- `memmove` of `user/ulib.c`, where `n` is an `int`: a negative one moves the pointers back and
copies nothing. -/
def User.memmove (m : Memory) (vdst vsrc : Addr) (n : BitVec 32) : Addr × Memory :=
  let len := n.signExtend 64
  if vsrc > vdst then
    (vdst, copyUp n.toInt.toNat vdst vsrc m)
  else
    (vdst, copyDown n.toInt.toNat (vdst + len) (vsrc + len) m)

/-! ## The two loops -/

def moved (m : Memory) (dst src : Addr) (n : Nat) : Memory := fun a =>
  if (a - dst).toNat < n then m (src + (a - dst)) else m a

variable {m : Memory} {d s : Addr} {n : Nat}

/-- Copying upwards is right unless the destination starts inside the source, after its first
byte: otherwise no byte is read after it has been written. -/
theorem copyUp_eq_moved (hn : n ≤ 2 ^ 64) (h : d = s ∨ n ≤ (d - s).toNat) :
    copyUp n d s m = moved m d s n := by
  induction n generalizing d s m with
  | zero => funext a; simp [copyUp, moved]
  | succ n ih =>
    have h' : d + 1 = s + 1 ∨ n ≤ (d + 1 - (s + 1)).toNat := by bv_omega
    rw [copyUp, ih (by omega) h']
    funext a
    simp only [moved]
    by_cases ha : a = d
    · subst ha
      rw [if_neg (by bv_omega), if_pos (by simp), update_self, BitVec.sub_self,
        BitVec.add_zero]
    · have hoff : s + 1 + (a - (d + 1)) = s + (a - d) := by bv_omega
      rw [update_of_ne ha, hoff]
      by_cases hi : (a - d).toNat < n + 1
      · -- The byte to be read lies above the one just written, or is not in the destination.
        have hread : s + (a - d) ≠ d := by
          intro he
          have hk : a - d = d - s := BitVec.eq_sub_iff_add_eq.mpr ((BitVec.add_comm _ _).trans he)
          rcases h with rfl | h
          · exact ha (by bv_omega)
          · rw [← hk] at h
            omega
        rw [if_pos hi, if_pos (by bv_omega), update_of_ne hread]
      · rw [if_neg hi, if_neg (by bv_omega)]

theorem copyDown_eq_moved (hn : n ≤ 2 ^ 64) (h : s = d ∨ n ≤ (s - d).toNat) :
    copyDown n (d + BitVec.ofNat 64 n) (s + BitVec.ofNat 64 n) m = moved m d s n := by
  induction n generalizing m with
  | zero => funext a; simp [copyDown, moved]
  | succ n ih =>
    have hlast (p : Addr) : p + BitVec.ofNat 64 (n + 1) - 1 = p + BitVec.ofNat 64 n := by
      rw [BitVec.ofNat_add]
      bv_omega
    rw [copyDown, hlast, hlast, ih (by omega) (h.imp_right fun h => by omega)]
    have hlen : (BitVec.ofNat 64 n).toNat = n := by
      rw [BitVec.toNat_ofNat, Nat.mod_eq_of_lt (by omega)]
    generalize BitVec.ofNat 64 n = k at hlen
    funext a
    simp only [moved]
    by_cases ha : a = d + k
    · subst ha
      have hoff : d + k - d = k := by bv_omega
      rw [hoff, if_neg (by omega), if_pos (by omega), update_self]
    · rw [update_of_ne ha]
      by_cases hi : (a - d).toNat < n
      · -- The byte to be read lies below the one just written, or is not in the destination.
        have hread : s + (a - d) ≠ d + k := by bv_omega
        rw [if_pos hi, if_pos (by omega), update_of_ne hread]
      · rw [if_neg hi, if_neg (by bv_omega)]

/-! ## The choice of the direction -/

/-- After a move of `n` bytes the destination holds what was at `src`, and the rest of the memory is
as before. -/
structure Moves (m m' : Memory) (dst src : Addr) (n : Nat) : Prop where
  copied : ∀ i < n, m' (dst + BitVec.ofNat 64 i) = m (src + BitVec.ofNat 64 i)
  kept : ∀ a : Addr, ¬ (dst.toNat ≤ a.toNat ∧ a.toNat < dst.toNat + n) → m' a = m a

theorem moves_moved {dst src : Addr} (hdst : dst.toNat + n ≤ 2 ^ 64) :
    Moves m (moved m dst src n) dst src n := by
  constructor
  · intro i hi
    have hoff : dst + BitVec.ofNat 64 i - dst = BitVec.ofNat 64 i := by bv_omega
    have hlt : (BitVec.ofNat 64 i).toNat < n := by
      rw [BitVec.toNat_ofNat, Nat.mod_eq_of_lt (by omega)]
      exact hi
    simp only [moved, hoff, if_pos hlt]
  · intro a ha
    exact if_neg (by bv_omega)

section Directions
variable {dst src : Addr} {len : BitVec 32}

theorem kernel_memmove_eq (hsrc : src.toNat + len.toNat ≤ 2 ^ 64)
    (hdst : dst.toNat + len.toNat ≤ 2 ^ 64) :
    Kernel.memmove m dst src len = (dst, moved m dst src len.toNat) := by
  have hlen : len.setWidth 64 = BitVec.ofNat 64 len.toNat := (BitVec.ofNat_toNat ..).symm
  have hlt := len.isLt
  unfold Kernel.memmove
  simp only [hlen]
  split
  · rw [copyDown_eq_moved (by omega) (by bv_omega)]
  · rw [copyUp_eq_moved (by omega) (by bv_omega)]

theorem user_memmove_eq (hlen : 0 ≤ len.toInt) (hsrc : src.toNat + len.toNat ≤ 2 ^ 64)
    (hdst : dst.toNat + len.toNat ≤ 2 ^ 64) :
    User.memmove m dst src len = (dst, moved m dst src len.toNat) := by
  have hlt := len.isLt
  have hnat : len.toInt = len.toNat := by
    rw [BitVec.toInt_eq_toNat_cond] at hlen ⊢
    split <;> omega
  have hext : len.signExtend 64 = BitVec.ofNat 64 len.toNat := by
    rw [BitVec.signExtend, hnat]
    rfl
  unfold User.memmove
  simp only [hext, hnat, Int.toNat_natCast]
  split
  · rw [copyUp_eq_moved (by omega) (by bv_omega)]
  · rw [copyDown_eq_moved (by omega) (by bv_omega)]

end Directions

/-- However the two ranges overlap, both functions copy what was at `src` before the call and change
nothing else, and so they agree. -/
theorem memmove_overlapping (m : Memory) (dst src : Addr) (n : BitVec 32)
    (hsrc : src.toNat + n.toNat ≤ 2 ^ 64) (hdst : dst.toNat + n.toNat ≤ 2 ^ 64) :
    Moves m (Kernel.memmove m dst src n).2 dst src n.toNat ∧
    (0 ≤ n.toInt → Moves m (User.memmove m dst src n).2 dst src n.toNat ∧
      Kernel.memmove m dst src n = User.memmove m dst src n) := by
  rw [kernel_memmove_eq hsrc hdst]
  refine ⟨moves_moved hdst, fun hn => ?_⟩
  rw [user_memmove_eq hn hsrc hdst]
  exact ⟨moves_moved hdst, rfl⟩

/-- Eight bytes moved up by one, to the very top of the memory. -/
theorem memmove_overlapping_top :
    Moves (·.setWidth 8) (Kernel.memmove (·.setWidth 8) (-8) (-9) 8).2 (-8) (-9) 8 ∧
    Moves (·.setWidth 8) (User.memmove (·.setWidth 8) (-8) (-9) 8).2 (-8) (-9) 8 ∧
    Kernel.memmove (·.setWidth 8) (-8) (-9) 8 = User.memmove (·.setWidth 8) (-8) (-9) 8 :=
  have h := memmove_overlapping (·.setWidth 8) (-8) (-9) 8 (by decide) (by decide)
  ⟨h.1, h.2 (by decide)⟩

end Xv6.Library
