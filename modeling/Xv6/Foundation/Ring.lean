import Mathlib.Data.List.Basic
import Mathlib.Order.Nat
import Mathlib.Tactic.Common

/-!
# Ring buffers with free-running counters

The counters of a ring of `size` slots count the bytes put and taken since the ring was new, modulo
`wrap`, a multiple of `size`. `Tracks` relates a ring to the whole sequences put and taken.
-/

namespace Xv6.Foundation.Ring

set_option autoImplicit false

variable {α : Type} (size wrap : Nat)

def count (head tail : Nat) : Nat := (tail + wrap - head) % wrap

def slot (head j : Nat) : Nat := (head + j) % wrap % size

def contents (data : Nat → α) (head tail : Nat) : List α :=
  (List.range (count wrap head tail)).map fun j => data (slot size wrap head j)

/-- What is assumed of the size of a ring. -/
structure Sized : Prop where
  pos : 0 < size
  lt : size < wrap
  dvd : size ∣ wrap

structure Tracks (data : Nat → α) (head tail : Nat) (put taken : List α) : Prop where
  head_eq : head = taken.length % wrap
  tail_eq : tail = put.length % wrap
  bound : put.length ≤ taken.length + size
  taken_prefix : taken <+: put
  stored : ∀ j (h : j < put.length), taken.length ≤ j → data (j % size) = put.get ⟨j, h⟩

namespace Tracks
variable {size wrap} {data : Nat → α} {head tail : Nat} {put taken : List α}

theorem nil (data : Nat → α) : Tracks size wrap data 0 0 [] [] :=
  ⟨by simp, by simp, by simp, List.prefix_refl [], by simp⟩

section
variable (h : Tracks size wrap data head tail put taken)
include h

theorem le : taken.length ≤ put.length := h.taken_prefix.length_le

section
variable (hs : Sized size wrap)
include hs

theorem head_lt : head < wrap := by
  rw [h.head_eq]
  exact Nat.mod_lt _ (hs.pos.trans hs.lt)

omit hs in
theorem tail_eq_add : tail = (head + (put.length - taken.length)) % wrap := by
  have hle := h.le
  rw [h.tail_eq, h.head_eq, Nat.mod_add_mod]
  congr 1
  omega

theorem count_eq : count wrap head tail = put.length - taken.length := by
  have hlt := h.head_lt hs
  have hle := h.le
  have hb := h.bound
  have hw := hs.lt
  rw [count, h.tail_eq_add, Nat.add_sub_assoc hlt.le, Nat.mod_add_mod,
    show head + (put.length - taken.length) + (wrap - head) =
      put.length - taken.length + wrap by omega, Nat.add_mod_right]
  exact Nat.mod_eq_of_lt (by omega)

theorem count_le : count wrap head tail ≤ size := by
  have hb := h.bound
  rw [h.count_eq hs]
  omega

theorem empty_iff : head = tail ↔ put.length = taken.length := by
  have hc := h.count_eq hs
  have hle := h.le
  have hlt := h.head_lt hs
  constructor
  · intro he
    rw [count, ← he, Nat.add_sub_cancel_left, Nat.mod_self] at hc
    omega
  · intro he
    have ht := h.tail_eq_add
    rw [he, Nat.sub_self, Nat.add_zero, Nat.mod_eq_of_lt hlt] at ht
    exact ht.symm

theorem full_iff : tail = (head + size) % wrap ↔ put.length = taken.length + size := by
  have hc := h.count_eq hs
  have hle := h.le
  have hlt := h.head_lt hs
  have hw := hs.lt
  constructor
  · intro he
    rw [count, he, Nat.add_sub_assoc hlt.le, Nat.mod_add_mod,
      show head + size + (wrap - head) = size + wrap by omega, Nat.add_mod_right,
      Nat.mod_eq_of_lt hw] at hc
    omega
  · intro he
    have ht := h.tail_eq_add
    rwa [he, Nat.add_sub_cancel_left] at ht

theorem slot_eq (j : Nat) : slot size wrap head j = (taken.length + j) % size := by
  rw [slot, h.head_eq, Nat.mod_add_mod, Nat.mod_mod_of_dvd _ hs.dvd]

theorem tail_slot : tail % size = put.length % size := by
  rw [h.tail_eq, Nat.mod_mod_of_dvd _ hs.dvd]

/-- What was put is what was taken, followed by what the ring holds. -/
theorem put_eq : put = taken ++ contents size wrap data head tail := by
  obtain ⟨rest, rfl⟩ := h.taken_prefix
  congr 1
  have hc : count wrap head tail = rest.length := by
    rw [h.count_eq hs, List.length_append, Nat.add_sub_cancel_left]
  refine List.ext_get (by simp [contents, hc]) ?_
  intro j hj hj'
  have hst := h.stored (taken.length + j) (by simpa using hj) (Nat.le_add_right _ _)
  simp only [List.get_eq_getElem, List.getElem_append_right (Nat.le_add_right _ _),
    Nat.add_sub_cancel_left] at hst
  simp only [List.get_eq_getElem, contents, List.getElem_map, List.getElem_range, h.slot_eq hs]
  exact hst.symm

/-- The slot at the tail of a ring that is not full holds no unread element. -/
theorem slot_ne_tail (hf : tail ≠ (head + size) % wrap) {j : Nat}
    (hj : j < count wrap head tail) : slot size wrap head j ≠ tail % size := by
  have hle := h.le
  have hb := h.bound
  have hf' : put.length ≠ taken.length + size := mt (h.full_iff hs).mpr hf
  rw [h.count_eq hs] at hj
  rw [h.slot_eq hs, h.tail_slot hs]
  intro he
  have hsub := Nat.sub_mod_eq_zero_of_mod_eq he.symm
  have hz := Nat.mod_eq_of_lt (show put.length - (taken.length + j) < size by omega)
  omega

theorem push (hf : tail ≠ (head + size) % wrap) (x : α) :
    Tracks size wrap (Function.update data (tail % size) x) head ((tail + 1) % wrap)
      (put ++ [x]) taken := by
  have hb := h.bound
  have hf' : put.length ≠ taken.length + size := mt (h.full_iff hs).mpr hf
  refine ⟨h.head_eq, by rw [h.tail_eq, Nat.mod_add_mod, List.length_append]; rfl, ?_,
    h.taken_prefix.trans (List.prefix_append _ _), ?_⟩
  · rw [List.length_append, List.length_singleton]
    omega
  · intro j hj hle
    rw [h.tail_slot hs]
    rw [List.length_append, List.length_singleton] at hj
    rcases Nat.lt_or_ge j put.length with hlt | hge
    · have hne : j % size ≠ put.length % size := by
        intro he
        have hsub := Nat.sub_mod_eq_zero_of_mod_eq he.symm
        have hz := Nat.mod_eq_of_lt (show put.length - j < size by omega)
        omega
      rw [Function.update_of_ne hne, h.stored j hlt hle]
      simp [List.getElem_append_left hlt]
    · obtain rfl : j = put.length := by omega
      simp

theorem pop (he : head ≠ tail) :
    Tracks size wrap data ((head + 1) % wrap) tail put (taken ++ [data (head % size)]) := by
  have hle := h.le
  have he' : put.length ≠ taken.length := mt (h.empty_iff hs).mpr he
  have hlt : taken.length < put.length := by omega
  have hfront : data (head % size) = put.get ⟨taken.length, hlt⟩ := by
    rw [h.head_eq, Nat.mod_mod_of_dvd _ hs.dvd]
    exact h.stored _ hlt (Nat.le_refl _)
  refine ⟨by rw [h.head_eq, Nat.mod_add_mod, List.length_append]; rfl, h.tail_eq, ?_, ?_, ?_⟩
  · have hb := h.bound
    rw [List.length_append, List.length_singleton]
    omega
  · obtain ⟨rest, hr⟩ := h.taken_prefix
    subst hr
    cases rest with
    | nil => simp at hlt
    | cons x rest =>
      have hx : data (head % size) = x := by simpa using hfront
      exact ⟨rest, by simp [hx]⟩
  · intro j hj hj'
    rw [List.length_append, List.length_singleton] at hj'
    exact h.stored j hj (by omega)

end

end

end Tracks

/-! ## The elements from the head on, as one list -/

structure Window (data : Nat → α) (head : Nat) (xs : List α) : Prop where
  length_le : xs.length ≤ size
  stored : ∀ j (h : j < xs.length), data (slot size wrap head j) = xs.get ⟨j, h⟩

variable {size wrap}

theorem slot_succ (head j : Nat) :
    slot size wrap ((head + 1) % wrap) j = slot size wrap head (j + 1) := by
  rw [slot, slot, Nat.mod_add_mod]
  congr 2
  omega

theorem slot_ne (hs : Sized size wrap) (head : Nat) {i j : Nat} (hij : i < j)
    (hj : j < i + size) : slot size wrap head i ≠ slot size wrap head j := by
  rw [slot, slot, Nat.mod_mod_of_dvd _ hs.dvd, Nat.mod_mod_of_dvd _ hs.dvd]
  intro he
  have hsub := Nat.sub_mod_eq_zero_of_mod_eq he.symm
  have hz := Nat.mod_eq_of_lt (show head + j - (head + i) < size by omega)
  omega

namespace Window
variable {data : Nat → α} {head : Nat} {xs ys : List α}

theorem nil (data : Nat → α) (head : Nat) : Window size wrap data head [] :=
  ⟨Nat.zero_le _, fun _ h => absurd h (Nat.not_lt_zero _)⟩

theorem push (h : Window size wrap data head xs) (hs : Sized size wrap) (hlt : xs.length < size)
    (x : α) : Window size wrap (Function.update data (slot size wrap head xs.length) x) head
      (xs ++ [x]) := by
  refine ⟨by rw [List.length_append, List.length_singleton]; omega, ?_⟩
  intro j hj
  rw [List.length_append, List.length_singleton] at hj
  rcases Nat.lt_or_ge j xs.length with hj' | hge
  · rw [Function.update_of_ne (slot_ne hs head hj' (by omega)), h.stored j hj']
    simp [List.getElem_append_left hj']
  · obtain rfl : j = xs.length := by omega
    simp

theorem front {x : α} (h : Window size wrap data head (x :: xs)) :
    data (slot size wrap head 0) = x :=
  h.stored 0 (Nat.zero_lt_succ _)

theorem pop {x : α} (h : Window size wrap data head (x :: xs)) :
    Window size wrap data ((head + 1) % wrap) xs := by
  refine ⟨(Nat.le_succ _).trans h.length_le, ?_⟩
  intro j hj
  rw [slot_succ]
  exact h.stored (j + 1) (Nat.succ_lt_succ hj)

theorem of_append (h : Window size wrap data head (xs ++ ys)) : Window size wrap data head xs := by
  refine ⟨?_, ?_⟩
  · have := h.length_le
    rw [List.length_append] at this
    omega
  · intro j hj
    rw [h.stored j (by rw [List.length_append]; omega)]
    simp [List.getElem_append_left hj]

end Window

end Xv6.Foundation.Ring
