import Mathlib.Data.Finset.Max
import Mathlib.Order.Interval.Finset.Nat

/-!
# The least elements of a finite set
-/

namespace Xv6.Foundation

set_option autoImplicit false

variable {α : Type} [LinearOrder α] {s s' : Finset α} {a : α} {c : Nat}

/-- The `c` least elements of `s`, or all of them if there are fewer. -/
def lowest (s : Finset α) (c : Nat) : Finset α := s.filter fun a => (s.filter (· < a)).card < c

/-- `s'` is what is left of `s` when its least element has been taken. -/
structure TookLeast (s s' : Finset α) (a : α) : Prop where
  mem : a ∈ s
  least : ∀ b ∈ s, a ≤ b
  rest : s' = s.erase a

theorem lowest_zero (s : Finset α) : lowest s 0 = ∅ := by
  simp [lowest]

theorem TookLeast.card (h : TookLeast s s' a) : s'.card + 1 = s.card := by
  rw [h.rest]
  exact Finset.card_erase_add_one h.mem

theorem TookLeast.lowest_succ (h : TookLeast s s' a) :
    lowest s (c + 1) = insert a (lowest s' c) := by
  have hbelow : s.filter (· < a) = ∅ :=
    Finset.filter_eq_empty_iff.mpr fun b hb => not_lt.mpr (h.least b hb)
  ext b
  simp only [lowest, h.rest, Finset.mem_filter, Finset.mem_insert, Finset.mem_erase]
  by_cases hb : b = a
  · simp [hb, h.mem, hbelow]
  · simp only [hb, false_or, ne_eq, not_false_eq_true, true_and]
    refine and_congr_right fun hbs => ?_
    -- below `b`, the smaller set lacks exactly `a`
    have hsplit : s.filter (· < b) = insert a ((s.erase a).filter (· < b)) := by
      rw [Finset.filter_erase, Finset.insert_erase]
      exact Finset.mem_filter.mpr ⟨h.mem, lt_of_le_of_ne (h.least b hbs) (Ne.symm hb)⟩
    rw [hsplit, Finset.card_insert_of_notMem (by simp), Nat.add_lt_add_iff_right]

theorem exists_tookLeast (h : 0 < s.card) : ∃ a, TookLeast s (s.erase a) a := by
  have hne := Finset.card_pos.mp h
  exact ⟨s.min' hne, s.min'_mem hne, fun b hb => s.min'_le b hb, rfl⟩

theorem card_lowest_le (s : Finset α) (c : Nat) : (lowest s c).card ≤ c := by
  induction c generalizing s with
  | zero => simp [lowest_zero]
  | succ c ih =>
    rcases Nat.eq_zero_or_pos s.card with h0 | hpos
    · rw [Finset.card_eq_zero.mp h0]
      simp [lowest]
    · obtain ⟨a, ha⟩ := exists_tookLeast hpos
      rw [ha.lowest_succ]
      exact (Finset.card_insert_le _ _).trans (Nat.succ_le_succ (ih _))

theorem lowest_Ico (a b c : Nat) : lowest (Finset.Ico a b) c = Finset.Ico a (min b (a + c)) := by
  ext x
  have hbelow : x < b → (Finset.Ico a b).filter (· < x) = Finset.Ico a x := fun hx => by
    ext y
    simp only [Finset.mem_filter, Finset.mem_Ico]
    omega
  simp only [lowest, Finset.mem_filter, Finset.mem_Ico]
  constructor
  · rintro ⟨hx, hc⟩
    rw [hbelow hx.2, Nat.card_Ico] at hc
    omega
  · intro hx
    rw [hbelow (by omega), Nat.card_Ico]
    omega

end Xv6.Foundation
