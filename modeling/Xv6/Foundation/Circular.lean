import Mathlib.Data.List.Chain

/-!
# Circular linked lists

`Circular R a l` says that the nodes `a` and then `l`, in this order, are linked by `R` to a circle.
Any node of a circle can be taken for the first one, and a circle is cut open at any node.
-/

namespace Xv6.Foundation

set_option autoImplicit false

variable {α : Type} {R : α → α → Prop} {a b x y : α} {l u v w r : List α}

def Circular (R : α → α → Prop) (a : α) (l : List α) : Prop := (a :: (l ++ [a])).IsChain R

theorem circular_nil : Circular R a [] ↔ R a a := List.isChain_pair

theorem circular_split (h : a :: l = w ++ x :: r) :
    Circular R a l ↔ (w ++ [x]).IsChain R ∧ (x :: (r ++ [a])).IsChain R := by
  rw [Circular, ← List.cons_append, h, List.append_assoc, List.cons_append]
  exact List.isChain_split

theorem circular_rotate : Circular R a (u ++ b :: v) ↔ Circular R b (v ++ a :: u) := by
  have hu : a :: (u ++ b :: v) = (a :: u) ++ b :: v := rfl
  have hv : b :: (v ++ a :: u) = (b :: v) ++ a :: u := rfl
  rw [circular_split hu, circular_split hv]
  exact and_comm

theorem Circular.from_mem (h : Circular R a l) (hx : x ∈ a :: l) :
    ∃ t, Circular R x t ∧ (x :: t).Perm (a :: l) := by
  rcases List.mem_cons.mp hx with rfl | hx
  · exact ⟨l, h, .refl _⟩
  · obtain ⟨u, v, rfl⟩ := List.append_of_mem hx
    refine ⟨v ++ a :: u, circular_rotate.mp h, ?_⟩
    rw [← List.cons_append, ← List.cons_append]
    exact List.perm_append_comm

section Function
variable {next next' : α → α}

theorem chain_congr (h : (w ++ [x]).IsChain (next · = ·)) (heq : ∀ y ∈ w, next' y = next y) :
    (w ++ [x]).IsChain (next' · = ·) := by
  induction w with
  | nil => exact List.isChain_singleton x
  | cons y w ih =>
    rw [List.cons_append, List.isChain_cons] at h ⊢
    refine ⟨fun z hz => ?_, ih h.2 fun y' hy' => heq y' (List.mem_cons_of_mem y hy')⟩
    rw [heq y List.mem_cons_self]
    exact h.1 z hz

theorem Circular.next_eq (h : Circular (next · = ·) a l) (hl : a :: l = w ++ x :: r) :
    next x = (r ++ [a]).head (by simp) := by
  have hchain := ((circular_split hl).mp h).2
  exact (List.isChain_cons.mp hchain).1 _ (List.head?_eq_some_head _)

theorem Circular.next_mem (h : Circular (next · = ·) a l) (hx : x ∈ a :: l) : next x ∈ a :: l := by
  obtain ⟨w, r, hl⟩ := List.append_of_mem hx
  rw [h.next_eq hl]
  cases r with
  | nil => exact List.mem_cons_self
  | cons y r =>
    rw [hl]
    simp

theorem chain_iterate (h : (x :: l).IsChain (next · = ·)) (hy : y ∈ l) : ∃ k, next^[k] x = y := by
  induction l generalizing x with
  | nil => cases hy
  | cons z l ih =>
    obtain ⟨hz, hl⟩ := List.isChain_cons.mp h
    have hzx : next x = z := hz z rfl
    rcases List.mem_cons.mp hy with rfl | hy
    · exact ⟨1, hzx⟩
    · obtain ⟨k, hk⟩ := ih hl hy
      exact ⟨k + 1, by rw [Function.iterate_succ_apply, hzx, hk]⟩

theorem Circular.mem_iff_iterate (h : Circular (next · = ·) a l) (hx : x ∈ a :: l) :
    y ∈ a :: l ↔ ∃ k, next^[k] x = y := by
  constructor
  · intro hy
    obtain ⟨t, ht, hperm⟩ := h.from_mem hx
    refine chain_iterate ht ?_
    rcases List.mem_cons.mp (hperm.mem_iff.mpr hy) with rfl | hy
    · simp
    · simp [hy]
  · rintro ⟨k, rfl⟩
    induction k generalizing x with
    | zero => exact hx
    | succ k ih => exact ih (h.next_mem hx)

end Function

end Xv6.Foundation
