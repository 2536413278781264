import Mathlib.Algebra.BigOperators.Group.Finset.Basic
import Mathlib.Algebra.Order.BigOperators.Group.Finset
import Mathlib.Algebra.Order.Group.Multiset
import Mathlib.Data.Multiset.AddSub

/-!
# Radix trees stored in pages

A tree of height `h` maps keys, read as numbers of `h` digits to the base `b`, to leaves. Every
inner node has a page of its own, with one word for each child; `Says e w` tells that the word `w`
stands for a child with entry `e`. `Stored` relates a tree to the words of a memory; a change of one
leaf is a change of one word.
-/

namespace Xv6.Foundation

open Function

set_option autoImplicit false

variable {α W : Type} {h : Nat}

inductive Radix (α : Type) : Nat → Type where
  | empty {h : Nat} : Radix α h
  | leaf (a : α) : Radix α 0
  | node {h : Nat} (page : Nat) (child : Nat → Radix α h) : Radix α (h + 1)

/-- What the word for a child says. -/
inductive Entry (α : Type) where
  | none
  | leaf (a : α)
  | page (p : Nat)

def Entry.ofLeaf : Option α → Entry α
  | .none => .none
  | .some a => .leaf a

namespace Radix

def entry : Radix α h → Entry α
  | .empty => .none
  | .leaf a => .leaf a
  | .node page _ => .page page

def ofLeaf : Option α → Radix α 0
  | none => .empty
  | some a => .leaf a

variable (b : Nat)

def lookup {h : Nat} : Radix α h → Nat → Option α
  | .empty, _ => none
  | .leaf a, _ => some a
  | @node _ h _ child, v => lookup (child (v / b ^ h % b)) v

/-- The page and the index of the word for the leaf of `v`, if there is such a page. -/
def slot : {h : Nat} → Radix α h → Nat → Option (Nat × Nat)
  | _, .empty, _ => none
  | _, .leaf _, _ => none
  | 1, .node page _, v => some (page, v % b)
  | h + 2, .node _ child, v => slot (child (v / b ^ (h + 1) % b)) v

def set : {h : Nat} → Radix α h → Nat → Option α → Radix α h
  | 0, _, _, e => ofLeaf e
  | _ + 1, .empty, _, _ => .empty
  | h + 1, .node page child, v, e =>
    .node page (Function.update child (v / b ^ h % b) (set (child (v / b ^ h % b)) v e))

/-- The pages of the inner nodes. -/
def pages {h : Nat} : Radix α h → Multiset Nat
  | .empty => 0
  | .leaf _ => 0
  | .node page child => page ::ₘ ∑ i ∈ Finset.range b, pages (child i)

/-- The memory holds the words of every inner node. -/
def Stored (Says : Entry α → W → Prop) (word : Nat → Nat → W) {h : Nat} : Radix α h → Prop
  | .empty => True
  | .leaf _ => True
  | .node page child => ∀ i < b, Says (child i).entry (word page i) ∧ Stored Says word (child i)

variable {b}

@[simp]
theorem entry_ofLeaf (e : Option α) : (ofLeaf e).entry = Entry.ofLeaf e := by
  cases e <;> rfl

@[simp]
theorem lookup_ofLeaf (e : Option α) (v : Nat) : (ofLeaf e).lookup b v = e := by
  cases e <;> rfl

@[simp]
theorem pages_empty : (empty : Radix α h).pages b = 0 := rfl

@[simp]
theorem pages_ofLeaf (e : Option α) : (ofLeaf e).pages b = 0 := by
  cases e <;> rfl

theorem lookup_node {page v : Nat} {child : Nat → Radix α h} :
    (node page child).lookup b v = (child (v / b ^ h % b)).lookup b v := rfl

theorem slot_node_succ {page v : Nat} {child : Nat → Radix α (h + 1)} :
    (node page child).slot b v = (child (v / b ^ (h + 1) % b)).slot b v := rfl

theorem pages_node {page : Nat} {child : Nat → Radix α h} :
    (node page child).pages b = page ::ₘ ∑ i ∈ Finset.range b, (child i).pages b := rfl

theorem mem_pages_node {page : Nat} {child : Nat → Radix α h} : page ∈ (node page child).pages b :=
  Multiset.mem_cons_self _ _

theorem entry_eq_ofLeaf (t : Radix α 0) (v : Nat) : t.entry = Entry.ofLeaf (t.lookup b v) := by
  cases t <;> rfl

theorem stored_zero {Says : Entry α → W → Prop} {word : Nat → Nat → W} (t : Radix α 0) :
    t.Stored b Says word := by
  cases t <;> trivial

theorem mod_pow_succ_eq_iff {v w : Nat} : w % b ^ (h + 1) = v % b ^ (h + 1) ↔
      w / b ^ h % b = v / b ^ h % b ∧ w % b ^ h = v % b ^ h := by
  constructor
  · intro heq
    refine ⟨?_, ?_⟩
    · rw [← Nat.mod_mul_right_div_self w, ← Nat.mod_mul_right_div_self v, ← pow_succ, heq]
    · have := congrArg (· % b ^ h) heq
      simpa [Nat.mod_mod_of_dvd _ (pow_dvd_pow b (Nat.le_succ h))] using this
  · rintro ⟨hdigit, hrest⟩
    rw [Nat.mod_pow_succ, Nat.mod_pow_succ, hdigit, hrest]

/-! ## One child changes -/

section Child
variable {page i : Nat} {child : Nat → Radix α h} {t : Radix α h}

theorem pages_child_le (hi : i < b) : (child i).pages b ≤ ∑ j ∈ Finset.range b, (child j).pages b :=
  Finset.single_le_sum (f := fun j => (child j).pages b) (fun _ _ => Multiset.zero_le _)
    (Finset.mem_range.mpr hi)

/-- The pages below the children other than `i`. -/
def siblings (b : Nat) (child : Nat → Radix α h) (i : Nat) : Multiset Nat :=
  ∑ j ∈ (Finset.range b).erase i, (child j).pages b

theorem mem_siblings {a j : Nat} (hj : j < b) (hji : j ≠ i) (ha : a ∈ (child j).pages b) :
    a ∈ siblings b child i :=
  Multiset.mem_sum.mpr ⟨j, Finset.mem_erase.mpr ⟨hji, Finset.mem_range.mpr hj⟩, ha⟩

theorem pages_split (hi : i < b) :
    (node page child).pages b = (child i).pages b + (page ::ₘ siblings b child i) := by
  rw [pages_node, ← Finset.add_sum_erase _ _ (Finset.mem_range.mpr hi), Multiset.add_cons,
    siblings]

theorem pages_update_split (hi : i < b) : (node page (update child i t)).pages b =
      t.pages b + (page ::ₘ siblings b child i) := by
  rw [pages_split hi, update_self]
  refine congrArg (fun s => t.pages b + page ::ₘ s) (Finset.sum_congr rfl fun j hj => ?_)
  rw [update_of_ne (Finset.ne_of_mem_erase hj)]

theorem not_mem_of_nodup (hn : ((node page child).pages b).Nodup) (hi : i < b) {a : Nat}
    (ha : a ∈ (child i).pages b) : a ≠ page ∧ ∀ j < b, j ≠ i → a ∉ (child j).pages b := by
  rw [pages_split hi, Multiset.nodup_add] at hn
  have hnot := Multiset.disjoint_left.mp hn.2.2 ha
  rw [Multiset.mem_cons, not_or] at hnot
  exact ⟨hnot.1, fun j hj hne hmem => hnot.2 (mem_siblings hj hne hmem)⟩

theorem nodup_child (hn : ((node page child).pages b).Nodup) (hi : i < b) :
    ((child i).pages b).Nodup := by
  rw [pages_split hi, Multiset.nodup_add] at hn
  exact hn.1

end Child

/-! ## One leaf changes -/

section Set
variable {v : Nat} {e : Option α}

theorem entry_set (t : Radix α (h + 1)) : (t.set b v e).entry = t.entry := by
  cases t <;> rfl

theorem pages_set (hb : 0 < b) (t : Radix α h) : (t.set b v e).pages b = t.pages b := by
  induction t with
  | @empty h => cases h <;> simp [set, pages]
  | leaf a => simp [set, pages]
  | @node h page child ih =>
    have hi := Nat.mod_lt (v / b ^ h) hb
    rw [set, pages_update_split hi, ih, ← pages_split hi]

theorem lookup_set (t : Radix α h) (ht : t.slot b v ≠ none ∨ h = 0) (w : Nat) :
    (t.set b v e).lookup b w = if w % b ^ h = v % b ^ h then e else t.lookup b w := by
  induction t with
  | @empty h =>
    rcases ht with ht | rfl
    · exact absurd rfl ht
    · simp [set, Nat.mod_one]
  | leaf a => simp [set, Nat.mod_one]
  | @node h page child ih =>
    have hpath : (child (v / b ^ h % b)).slot b v ≠ none ∨ h = 0 := by
      cases h with
      | zero => exact Or.inr rfl
      | succ h => exact ht.imp_right fun h => absurd h (by omega)
    rw [set, lookup_node, lookup_node, update_apply]
    simp only [mod_pow_succ_eq_iff]
    split
    · rename_i heq
      rw [ih _ hpath, heq]
      simp
    · rename_i hne
      rw [if_neg fun hc => hne hc.1]

theorem slot_mem (hb : 0 < b) {t : Radix α h} {p i : Nat} (hs : t.slot b v = some (p, i)) :
    p ∈ t.pages b ∧ i = v % b := by
  induction t with
  | empty => cases hs
  | leaf a => cases hs
  | @node h page child ih =>
    cases h with
    | zero =>
      obtain ⟨rfl, rfl⟩ := Prod.mk.inj (Option.some.inj hs)
      exact ⟨Multiset.mem_cons_self _ _, rfl⟩
    | succ h =>
      obtain ⟨hmem, heq⟩ := ih _ hs
      refine ⟨Multiset.mem_cons_of_mem ?_, heq⟩
      exact Multiset.mem_of_le (pages_child_le (Nat.mod_lt _ hb)) hmem

theorem lookup_of_slot_none {t : Radix α (h + 1)} (hs : t.slot b v = none) :
    t.lookup b v = none := by
  induction h with
  | zero =>
    cases t with
    | empty => rfl
    | node page child => cases hs
  | succ h ih =>
    cases t with
    | empty => rfl
    | node page child => exact ih hs

theorem slot_inj (hb : 0 < b) {t : Radix α h} {w : Nat} {x : Nat × Nat} (hn : (t.pages b).Nodup)
    (hv : t.slot b v = some x) (hw : t.slot b w = some x) : w % b ^ h = v % b ^ h := by
  induction t with
  | empty => cases hv
  | leaf a => cases hv
  | @node h page child ih =>
    rw [mod_pow_succ_eq_iff]
    cases h with
    | zero =>
      have heq := hw.trans hv.symm
      simpa [slot, Nat.mod_one] using heq
    | succ h =>
      rw [slot_node_succ] at hv hw
      have hi := Nat.mod_lt (v / b ^ (h + 1)) hb
      have hdigit : w / b ^ (h + 1) % b = v / b ^ (h + 1) % b := by
        by_contra hne
        exact (not_mem_of_nodup hn hi (slot_mem hb hv).1).2 _ (Nat.mod_lt _ hb) hne (slot_mem hb hw).1
      rw [hdigit] at hw
      exact ⟨hdigit, ih _ (nodup_child hn hi) hv hw⟩

end Set

/-! ## Storage -/

section Stored
variable {Says : Entry α → W → Prop} {word word' : Nat → Nat → W} {v p i : Nat} {e : Option α}

theorem Stored.congr {t : Radix α h} (ht : t.Stored b Says word)
    (hword : ∀ p ∈ t.pages b, ∀ i < b, word' p i = word p i) : t.Stored b Says word' := by
  induction t with
  | empty => trivial
  | leaf a => trivial
  | node page child ih =>
    intro i hi
    refine ⟨?_, ?_⟩
    · rw [hword page (Multiset.mem_cons_self _ _) i hi]
      exact (ht i hi).1
    · refine ih i (ht i hi).2 fun p hp => hword p (Multiset.mem_cons_of_mem ?_)
      exact Multiset.mem_of_le (pages_child_le hi) hp

theorem Stored.slot (hb : 0 < b) {t : Radix α h} (ht : t.Stored b Says word)
    (hs : t.slot b v = some (p, i)) : Says (Entry.ofLeaf (t.lookup b v)) (word p i) := by
  induction t with
  | empty => cases hs
  | leaf a => cases hs
  | @node h page child ih =>
    have hi := Nat.mod_lt (v / b ^ h) hb
    cases h with
    | zero =>
      obtain ⟨rfl, rfl⟩ := Prod.mk.inj (Option.some.inj hs)
      have := (ht _ hi).1
      rw [lookup_node, ← entry_eq_ofLeaf]
      simpa using this
    | succ h => exact ih _ (ht _ hi).2 hs

theorem Stored.set (hb : 0 < b) {t : Radix α h} (ht : t.Stored b Says word)
    (hn : (t.pages b).Nodup) (hs : t.slot b v = some (p, i))
    (hword : Says (Entry.ofLeaf e) (word' p i))
    (hother : ∀ q j, q ≠ p ∨ j ≠ i → word' q j = word q j) : (t.set b v e).Stored b Says word' := by
  induction t with
  | empty => cases hs
  | leaf a => cases hs
  | @node h page child ih =>
    have hi := Nat.mod_lt (v / b ^ h) hb
    intro j hj
    cases h with
    | zero =>
      obtain ⟨rfl, rfl⟩ := Prod.mk.inj (Option.some.inj hs)
      refine ⟨?_, stored_zero _⟩
      rw [update_apply]
      split
      · rename_i heq
        have : j = v % b := by simpa using heq
        rw [this, Radix.set, entry_ofLeaf]
        exact hword
      · rename_i hne
        rw [hother _ _ (Or.inr (by simpa using hne))]
        exact (ht j hj).1
    | succ h =>
      obtain ⟨hpage, hchild⟩ := not_mem_of_nodup hn hi (slot_mem hb (t := child _) hs).1
      refine ⟨?_, ?_⟩
      · rw [hother _ _ (Or.inl hpage.symm), update_apply]
        split
        · rename_i heq
          rw [entry_set, ← heq]
          exact (ht j hj).1
        · exact (ht j hj).1
      · rw [update_apply]
        split
        · exact ih _ (ht _ hi).2 (nodup_child hn hi) hs
        · rename_i hne
          refine (ht j hj).2.congr fun q hq k _ => hother q k (Or.inl fun heq => ?_)
          exact hchild j hj hne (heq ▸ hq)

theorem Stored.update {page : Nat} {child : Nat → Radix α h} {t : Radix α h}
    (hs : (node page child).Stored b Says word) (ht : t.Stored b Says word')
    (hword : Says t.entry (word' page i)) (hother : ∀ j, j ≠ i → word' page j = word page j)
    (hrest : ∀ j < b, j ≠ i → ∀ p ∈ (child j).pages b, ∀ k < b, word' p k = word p k) :
    (node page (update child i t)).Stored b Says word' := by
  intro j hj
  by_cases hji : j = i
  · subst hji
    rw [update_self]
    exact ⟨hword, ht⟩
  · rw [update_of_ne hji, hother j hji]
    exact ⟨(hs j hj).1, (hs j hj).2.congr (hrest j hj hji)⟩

end Stored

-- a sum over hundreds of children is not to be unfolded by unification
attribute [irreducible] pages siblings

end Radix

end Xv6.Foundation
