import Mathlib.Data.Fintype.BigOperators

/-!
# Weights summed over a finite family
-/

namespace Xv6.Foundation

set_option autoImplicit false

section Mem
variable {ι α : Type} [DecidableEq ι] {s : Finset ι} {p : ι}

/-- When only the weight of `p` changes, the total changes by the difference. -/
theorem sum_add_eq_of_off_mem {w w' : ι → Nat} (hp : p ∈ s) (h : ∀ q ∈ s, q ≠ p → w' q = w q) :
    ∑ q ∈ s, w' q + w p = ∑ q ∈ s, w q + w' p := by
  have hrest : ∑ q ∈ s.erase p, w' q = ∑ q ∈ s.erase p, w q :=
    Finset.sum_congr rfl fun q hq => h q (Finset.mem_of_mem_erase hq) (Finset.ne_of_mem_erase hq)
  have hnew := Finset.sum_erase_add _ w' hp
  have hold := Finset.sum_erase_add _ w hp
  omega

theorem sum_update_add_mem (w : α → Nat) (f : ι → α) (hp : p ∈ s) (a : α) :
    ∑ q ∈ s, w (Function.update f p a q) + w (f p) = ∑ q ∈ s, w (f q) + w a := by
  have hoff : ∀ q ∈ s, q ≠ p →
      (fun q => w (Function.update f p a q)) q = (fun q => w (f q)) q :=
    fun q _ hq => by simp only [Function.update_of_ne hq]
  simpa using sum_add_eq_of_off_mem hp hoff

end Mem

variable {P α : Type} [Fintype P] [DecidableEq P]

theorem sum_update_add (w : α → Nat) (f : P → α) (p : P) (a : α) :
    ∑ q, w (Function.update f p a q) + w (f p) = ∑ q, w (f q) + w a :=
  sum_update_add_mem w f (Finset.mem_univ p) a

end Xv6.Foundation
