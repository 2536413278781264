import Mathlib.Data.List.Basic
import Mathlib.Logic.Function.Basic
import Mathlib.Tactic.Common

/-!
# Tables of slots as finite maps

A slot is free or holds a key with its value. A key that no slot holds is stored in the first free
slot, or in a new one at the end, and is dropped by freeing its slot. As long as no key is in two
slots, the table is a finite map.
-/

namespace Xv6.Foundation

open Function

set_option autoImplicit false

/-- The slots of a table, in order. -/
abbrev SlotTable (α β : Type) := List (Option (α × β))

namespace SlotTable

variable {α β : Type} {t t' : SlotTable α β} {i j : Nat} {a a' : α} {b b' : β}

def At (t : SlotTable α β) (j : Nat) (a : α) (b : β) : Prop := t[j]? = some (some (a, b))

def Distinct (t : SlotTable α β) : Prop := ∀ i j a b b', t.At i a b → t.At j a b' → i = j

def Absent (t : SlotTable α β) (a : α) : Prop := ∀ j b, ¬ t.At j a b

def firstFree (t : SlotTable α β) : Nat := t.findIdx Option.isNone

def put (t : SlotTable α β) (a : α) (b : β) : SlotTable α β :=
  if t.firstFree < t.length then t.set t.firstFree (some (a, b)) else t ++ [some (a, b)]

def clear (t : SlotTable α β) (j : Nat) : SlotTable α β := t.set j none

theorem At.lt (h : t.At j a b) : j < t.length := (List.getElem?_eq_some_iff.mp h).1

theorem Distinct.value_eq (h : t.Distinct) (hi : t.At i a b) (hj : t.At j a b') : b = b' := by
  obtain rfl := h i j a b b' hi hj
  have hs : some (some (a, b)) = some (some (a, b')) := hi.symm.trans hj
  simpa using hs

theorem distinct_of_pairwise (h : t.Pairwise fun s s' => ∀ x ∈ s, ∀ y ∈ s', x.1 ≠ y.1) :
    t.Distinct := by
  have hlt : ∀ {i j a b b'}, i < j → t.At i a b → ¬ t.At j a b' := by
    intro i j a b b' hij hi hj
    obtain ⟨hi', hi⟩ := List.getElem?_eq_some_iff.mp hi
    obtain ⟨hj', hj⟩ := List.getElem?_eq_some_iff.mp hj
    exact List.pairwise_iff_getElem.mp h i j hi' hj' hij _ hi _ hj rfl
  intro i j a b b' hi hj
  rcases Nat.lt_trichotomy i j with hij | hij | hij
  · exact absurd hj (hlt hij hi)
  · exact hij
  · exact absurd hi (hlt hij hj)

/-! ## The two updates, slot by slot -/

theorem firstFree_le (t : SlotTable α β) : t.firstFree ≤ t.length := List.findIdx_le_length

theorem isNone_eq_false {s : Option (α × β)} (h : s ≠ none) : s.isNone = false := by
  cases s with
  | none => exact absurd rfl h
  | some p => rfl

theorem firstFree_eq (hj : j ≤ t.length) (hfull : ∀ i < j, ∀ s, t[i]? = some s → s ≠ none)
    (hfree : j < t.length → t[j]? = some none) : t.firstFree = j := by
  unfold firstFree
  rcases Nat.lt_or_ge j t.length with hlt | hge
  · rw [List.findIdx_eq hlt]
    have hnone : t[j] = none := by simpa [List.getElem?_eq_getElem hlt] using hfree hlt
    refine ⟨by simp [hnone], fun i hi => ?_⟩
    have hne := hfull i hi _ (List.getElem?_eq_getElem (Nat.lt_trans hi hlt))
    exact isNone_eq_false hne
  · obtain rfl : j = t.length := Nat.le_antisymm hj hge
    rw [List.findIdx_eq_length]
    intro s hs
    obtain ⟨i, hi, rfl⟩ := List.getElem_of_mem hs
    have hne := hfull i hi _ (List.getElem?_eq_getElem hi)
    exact isNone_eq_false hne

theorem getElem?_put (t : SlotTable α β) (a : α) (b : β) (j : Nat) :
    (t.put a b)[j]? = if j = t.firstFree then some (some (a, b)) else t[j]? := by
  unfold put
  split
  · rename_i hlt
    rw [List.getElem?_set]
    by_cases hj : j = t.firstFree
    · simp [hj, hlt]
    · simp [hj, Ne.symm hj]
  · have hend : t.firstFree = t.length := Nat.le_antisymm t.firstFree_le (by omega)
    rw [hend]
    rcases Nat.lt_trichotomy j t.length with hj | hj | hj
    · rw [List.getElem?_append_left hj, if_neg (by omega)]
    · simp [hj]
    · rw [List.getElem?_append_right (Nat.le_of_lt hj), if_neg (by omega), List.getElem?_eq_none (by simp; omega),
        List.getElem?_eq_none (Nat.le_of_lt hj)]

theorem getElem?_clear (t : SlotTable α β) (hi : i < t.length) (j : Nat) :
    (t.clear i)[j]? = if j = i then some none else t[j]? := by
  rw [clear, List.getElem?_set]
  by_cases hj : j = i
  · simp [hj, hi]
  · simp [hj, Ne.symm hj]

theorem getElem?_firstFree (t : SlotTable α β) : ¬ t.At t.firstFree a b := by
  intro h
  have hlt := h.lt
  have hnone : t[t.firstFree].isNone = true := List.findIdx_getElem (w := h.lt)
  obtain ⟨_, hsome⟩ := List.getElem?_eq_some_iff.mp h
  simp [hsome] at hnone

theorem at_put : (t.put a b).At j a' b' ↔ j = t.firstFree ∧ a' = a ∧ b' = b ∨ t.At j a' b' := by
  rw [At, getElem?_put]
  split
  · rename_i hj
    subst hj
    have hno : ¬ t.At t.firstFree a' b' := t.getElem?_firstFree
    simp [hno, eq_comm]
  · rename_i hj
    simp [hj, At]

theorem at_clear (hi : i < t.length) : (t.clear i).At j a b ↔ j ≠ i ∧ t.At j a b := by
  rw [At, t.getElem?_clear hi]
  split
  · rename_i hj
    simp [hj]
  · rename_i hj
    simp [hj, At]

theorem Distinct.put (h : t.Distinct) (ha : t.Absent a) (b : β) : (t.put a b).Distinct := by
  intro i j c d d' hi hj
  rcases at_put.mp hi with ⟨hi', rfl, -⟩ | hi' <;> rcases at_put.mp hj with ⟨hj', hc, -⟩ | hj'
  · rw [hi', hj']
  · exact absurd hj' (ha j d')
  · rw [hc] at hi'
    exact absurd hi' (ha i d)
  · exact h i j c d d' hi' hj'

theorem Distinct.clear (h : t.Distinct) (hi : i < t.length) : (t.clear i).Distinct :=
  fun _ _ a b b' hj hj' => h _ _ a b b' ((at_clear hi).mp hj).2 ((at_clear hi).mp hj').2

/-! ## The map -/

variable [DecidableEq α]

/-- What the first slot that holds the key gives it. -/
def toMap (t : SlotTable α β) (a : α) : Option β :=
  t.findSome? fun s => s.bind fun p => if p.1 = a then some p.2 else none

theorem toMap_eq_none : t.toMap a = none ↔ t.Absent a := by
  unfold toMap
  rw [List.findSome?_eq_none_iff]
  constructor
  · intro h j b hj
    have := h _ (List.mem_of_getElem? hj)
    simp at this
  · intro h s hs
    obtain ⟨j, hj⟩ := List.getElem?_of_mem hs
    cases s with
    | none => rfl
    | some p =>
      have hne : p.1 ≠ a := fun he => h j p.2 (by rw [At, hj, ← he])
      simp [hne]

theorem at_of_toMap (h : t.toMap a = some b) : ∃ j, t.At j a b := by
  obtain ⟨s, hs, hb⟩ := List.exists_of_findSome?_eq_some h
  obtain ⟨j, hj⟩ := List.getElem?_of_mem hs
  cases s with
  | none => simp at hb
  | some p =>
    simp only [Option.bind_some] at hb
    split at hb
    · rename_i hp
      refine ⟨j, ?_⟩
      rw [At, hj, ← hp, ← Option.some.inj hb]
    · cases hb

theorem Distinct.toMap_eq (h : t.Distinct) (hj : t.At j a b) : t.toMap a = some b := by
  cases hm : t.toMap a with
  | none => exact absurd hj (toMap_eq_none.mp hm j b)
  | some b' =>
    obtain ⟨i, hi⟩ := at_of_toMap hm
    rw [h.value_eq hi hj]

theorem toMap_put (h : t.Distinct) (ha : t.Absent a) (b : β) :
    (t.put a b).toMap = update t.toMap a (some b) := by
  funext c
  by_cases hc : c = a
  · subst hc
    rw [update_self]
    exact (h.put ha b).toMap_eq (at_put.mpr (Or.inl ⟨rfl, rfl, rfl⟩))
  · rw [update_of_ne hc]
    cases hm : t.toMap c with
    | none =>
      refine toMap_eq_none.mpr fun j d hj => ?_
      rcases at_put.mp hj with ⟨-, he, -⟩ | hj'
      · exact hc he
      · exact toMap_eq_none.mp hm j d hj'
    | some d =>
      obtain ⟨j, hj⟩ := at_of_toMap hm
      exact (h.put ha b).toMap_eq (at_put.mpr (Or.inr hj))

theorem toMap_clear (h : t.Distinct) (hi : t.At i a b) :
    (t.clear i).toMap = update t.toMap a none := by
  funext c
  by_cases hc : c = a
  · subst hc
    rw [update_self]
    refine toMap_eq_none.mpr fun j d hj => ?_
    obtain ⟨hne, hj'⟩ := (at_clear hi.lt).mp hj
    exact hne (h j i c d b hj' hi)
  · rw [update_of_ne hc]
    cases hm : t.toMap c with
    | none =>
      exact toMap_eq_none.mpr fun j d hj => toMap_eq_none.mp hm j d ((at_clear hi.lt).mp hj).2
    | some d =>
      obtain ⟨j, hj⟩ := at_of_toMap hm
      refine (h.clear hi.lt).toMap_eq ((at_clear hi.lt).mpr ⟨?_, hj⟩)
      rintro rfl
      have hs : some (some (c, d)) = some (some (a, b)) := hj.symm.trans hi
      simp only [Option.some.injEq, Prod.mk.injEq] at hs
      exact hc hs.1

end SlotTable

end Xv6.Foundation
