import Xv6.Memory.Heap

/-!
# Three-level page tables

`walk` on a page table that is a radix tree. `Space` is what the rest of the kernel needs to know of
one: its root, its leaves, and what else is in the heap.
-/

namespace Xv6.Memory

open Xv6.Foundation Function

set_option autoImplicit false

/-! ## Entries -/

structure Leaf where
  pa : Nat
  flags : Nat
  deriving DecidableEq

/-- What `walk` takes the words of a table for. An entry that is not valid may have any other bits, and
one for a page of the table any flags but those that would make it a leaf. -/
def Decodes : Entry Leaf → Nat → Prop
  | .none, w => has w PTE_V = false
  | .leaf e, w => has w PTE_V = true ∧ PTE2PA w = e.pa ∧ PTE_FLAGS w = e.flags
  | .page p, w => has w PTE_V = true ∧ has w (PTE_R ||| PTE_W ||| PTE_X) = false ∧ PTE2PA w = p

section Encoding
variable {pa f g w : Nat}

theorem pte_eq_add (hf : f < 2 ^ 10) : PA2PTE pa ||| f = pa / 2 ^ 12 * 2 ^ 10 + f := by
  rw [PA2PTE, Nat.mul_comm, Nat.two_pow_add_eq_or_of_lt hf]

theorem has_pte (hg : g < 2 ^ 10) : has (PA2PTE pa ||| f) g = has f g := by
  have hzero : PA2PTE pa &&& g = 0 := by
    apply Nat.eq_of_testBit_eq
    intro i
    rw [Nat.testBit_and, PA2PTE, Nat.testBit_mul_two_pow, Nat.zero_testBit]
    by_cases hi : 10 ≤ i
    · rw [Nat.testBit_lt_two_pow (hg.trans_le (Nat.pow_le_pow_right (by decide) hi)), Bool.and_false]
    · simp [hi]
  simp only [has, Nat.and_or_distrib_right, hzero, Nat.zero_or]

theorem PTE_FLAGS_pte (hf : f < 2 ^ 10) : PTE_FLAGS (PA2PTE pa ||| f) = f := by
  have hmod := Nat.and_two_pow_sub_one_eq_mod (PA2PTE pa ||| f) 10
  rw [pte_eq_add hf] at hmod ⊢
  rw [PTE_FLAGS]
  exact hmod.trans (by omega)

theorem PTE2PA_pte (hf : f < 2 ^ 10) (haligned : pa % PGSIZE = 0) (hpa : pa < 2 ^ 64) :
    PTE2PA (PA2PTE pa ||| f) = pa := by
  unfold PGSIZE at haligned
  rw [PTE2PA, pte_eq_add hf]
  omega

theorem pte_lt (hf : f < 2 ^ 10) (hpa : pa < 2 ^ 64) : PA2PTE pa ||| f < 2 ^ 64 := by
  rw [pte_eq_add hf]
  omega

theorem decodes_none : Decodes .none 0 := by
  unfold Decodes
  decide

theorem decodes_page (haligned : pa % PGSIZE = 0) (hpa : pa < 2 ^ 64) :
    Decodes (.page pa) (PA2PTE pa ||| PTE_V) := by
  refine ⟨?_, ?_, PTE2PA_pte (by decide) haligned hpa⟩
  · rw [has_pte (by decide)]
    rfl
  · rw [has_pte (by decide)]
    rfl

theorem has_or_right (f g : Nat) (hg : g ≠ 0) : has (f ||| g) g = true := by
  rw [has, decide_eq_true_eq, Nat.and_comm, Nat.and_or_distrib_left, Nat.and_self]
  intro hzero
  exact hg (Nat.eq_zero_of_le_zero (hzero ▸ Nat.right_le_or))

theorem decodes_leaf (hf : f ||| PTE_V < 2 ^ 10) (haligned : pa % PGSIZE = 0) (hpa : pa < 2 ^ 64) :
    Decodes (.leaf ⟨pa, f ||| PTE_V⟩) (PA2PTE pa ||| (f ||| PTE_V)) := by
  refine ⟨?_, PTE2PA_pte hf haligned hpa, PTE_FLAGS_pte hf⟩
  rw [has_pte (by decide)]
  exact has_or_right f PTE_V (by decide)

theorem has_PTE_FLAGS (hg : g < 2 ^ 10) : has (PTE_FLAGS w) g = has w g := by
  have hand : 0x3FF &&& g = g := by
    rw [Nat.and_comm]
    exact (Nat.and_two_pow_sub_one_eq_mod g 10).trans (Nat.mod_eq_of_lt hg)
  rw [has, PTE_FLAGS, Nat.and_assoc, hand, has]

theorem PX_eq (level va : Nat) : PX level va = va / PGSIZE / 512 ^ level % 512 := by
  rw [PX, Nat.div_div_eq_div_mul, Nat.pow_add, Nat.pow_mul]
  rfl

end Encoding

/-! ## Contents that stay -/

def Same (F : Multiset Nat) (h h' : Heap) : Prop := ∀ a ∈ F, h'.view a = h.view a

namespace Same
variable {F G : Multiset Nat} {h h₁ h₂ : Heap}

theorem refl : Same F h h := fun _ _ => rfl

theorem trans (h₁' : Same F h h₁) (h₂' : Same F h₁ h₂) : Same F h h₂ :=
  fun a ha => (h₂' a ha).trans (h₁' a ha)

theorem mono (hs : Same G h h₁) (hle : F ⊆ G) : Same F h h₁ := fun a ha => hs a (hle ha)

end Same

def Holds (view : Nat → Page) {n : Nat} (t : Radix Leaf n) : Prop :=
  t.Stored 512 Decodes fun p i => word (view p) i

/-! ## Walking -/

section Walk
variable {kend : Nat} {ram F : Multiset Nat} {h : Heap} {n page va : Nat}

theorem IsRam.page_ok (hram : IsRam kend ram) (hp : page ∈ ram) :
    page % PGSIZE = 0 ∧ page < 2 ^ 64 :=
  ⟨hram.aligned page hp, (hram.upper page hp).trans (by decide)⟩

theorem Holds.word_child {view : Nat → Page} {child : Nat → Radix Leaf n}
    (ht : Holds view (.node page child)) (level va : Nat) :
    Decodes (child (va / PGSIZE / 512 ^ level % 512)).entry (word (view page) (PX level va)) := by
  rw [PX_eq]
  exact (ht _ (Nat.mod_lt (va / PGSIZE / 512 ^ level) (by decide))).1

theorem Holds.child {child : Nat → Radix Leaf n} {i : Nat} (ht : Holds h.view (.node page child))
    (hi : i < 512) : Holds h.view (child i) := (ht i hi).2

/-- The heap `h'` has the table `t'` in the place of `t`, with more inner nodes. -/
structure Extends (F : Multiset Nat) (h : Heap) (t : Radix Leaf n) (h' : Heap) (t' : Radix Leaf n) :
    Prop where
  own : h'.own = t'.pages 512 + F
  holds : Holds h'.view t'
  entry : t'.entry = t.entry
  lookup : ∀ v, t'.lookup 512 v = t.lookup 512 v
  same : Same F h h'

theorem Extends.node {child : Nat → Radix Leaf n} {i : Nat} {h₁ h' : Heap} {s s' : Radix Leaf n}
    (hi : i < 512) (ht : Holds h.view (.node page child))
    (hs : Extends (page ::ₘ (Radix.siblings 512 child i + F)) h₁ s h' s')
    (hword : Decodes s.entry (word (h₁.view page) i))
    (hother : ∀ j, j ≠ i → word (h₁.view page) j = word (h.view page) j)
    (hlook : ∀ v, s.lookup 512 v = (child i).lookup 512 v)
    (hsame : Same (Radix.siblings 512 child i + F) h h₁) :
    Extends F h (.node page child) h' (.node page (update child i s')) := by
  have hpage : h'.view page = h₁.view page := hs.same page (Multiset.mem_cons_self _ _)
  have hrest : Same (Radix.siblings 512 child i + F) h h' :=
    hsame.trans (hs.same.mono (Multiset.subset_cons _ _))
  refine ⟨?_, ?_, rfl, fun v => ?_, hrest.mono (Multiset.subset_of_le (Multiset.le_add_left _ _))⟩
  · rw [hs.own, Radix.pages_update_split hi, add_assoc, Multiset.cons_add]
  · refine Radix.Stored.update ht hs.holds ?_ (fun j hj => ?_) fun j hj hji p hp k _ => ?_
    · rw [hpage, hs.entry]
      exact hword
    · rw [hpage, hother j hj]
    · rw [hrest p (Multiset.mem_add.mpr (Or.inl (Radix.mem_siblings hj hji hp)))]
  · rw [Radix.lookup_node, Radix.lookup_node, update_apply]
    split
    · rename_i heq
      rw [hs.lookup, hlook, heq]
    · rfl

theorem holds_new (hpage : h.view page = fun _ => 0) :
    Holds h.view (Radix.node page fun _ => (.empty : Radix Leaf n)) := by
  intro i _
  refine ⟨?_, trivial⟩
  show Decodes .none (word (h.view page) i)
  rw [hpage, word_zero]
  exact decodes_none

theorem pages_new : Radix.pages 512 (Radix.node page fun _ => (.empty : Radix Leaf n)) = {page} := by
  rw [Radix.pages_node]
  simp

/-- `walk` with `alloc` 1 adds the inner nodes that are missing on the way to the leaf. -/
theorem wp_walkFrom_alloc (hram : IsRam kend ram) {level : Nat} {child : Nat → Radix Leaf level}
    {Q : Option PtePtr → Heap → Prop} (hown : h.own = Radix.pages 512 (.node page child) + F)
    (ht : Holds h.view (.node page child))
    (hnone : ∀ h' t', Extends F h (.node page child) h' t' → Q none h')
    (hsome : ∀ h' t' p i, Extends F h (.node page child) h' t' →
      t'.slot 512 (va / PGSIZE) = some (p, i) → Q (some ⟨p, i⟩) h') :
    Heap.wp ram (walkFrom true va level page) h Q := by
  induction level generalizing page h F with
  | zero =>
    have hPX := PX_eq 0 va
    rw [pow_zero, Nat.div_one] at hPX
    rw [walkFrom, hPX]
    exact Heap.wp_pure (hsome h _ page _ ⟨hown, ht, rfl, fun _ => rfl, Same.refl⟩ rfl)
  | succ level ih =>
    obtain ⟨i, hdigit⟩ : ∃ i, i = va / PGSIZE / 512 ^ (level + 1) % 512 := ⟨_, rfl⟩
    have hi : i < 512 := hdigit ▸ Nat.mod_lt _ (by decide)
    rw [walkFrom, PX_eq, ← hdigit]
    refine Heap.wp_bind (Heap.wp_load ?_ fun hle => ?_)
    · rw [hown]
      exact Multiset.mem_add.mpr (Or.inl Radix.mem_pages_node)
    have hentry : Decodes (child i).entry (word (h.view page) i) := (ht i hi).1
    -- the rest of the walk is in the subtree below this entry
    have hsub := hown
    rw [Radix.pages_split hi, add_assoc, Multiset.cons_add] at hsub
    have hstep : ∀ h₁ p (ch : Nat → Radix Leaf level),
        h₁.own = Radix.pages 512 (.node p ch) + (page ::ₘ (Radix.siblings 512 child i + F)) →
        Holds h₁.view (.node p ch) → Decodes (.page p) (word (h₁.view page) i) →
        (∀ j, j ≠ i → word (h₁.view page) j = word (h.view page) j) →
        (∀ v, Radix.lookup 512 (.node p ch) v = (child i).lookup 512 v) →
        Same (Radix.siblings 512 child i + F) h h₁ →
        Heap.wp ram (walkFrom true va level p) h₁ Q := by
      intro h₁ p ch hown₁ hs hword hother hlook hsame
      refine ih hown₁ hs (fun h' t' he => ?_) fun h' t' q k he hslot => ?_
      · exact hnone h' _ (Extends.node hi ht he hword hother hlook hsame)
      · refine hsome h' _ q k (Extends.node hi ht he hword hother hlook hsame) ?_
        rw [Radix.slot_node_succ, ← hdigit, update_self]
        exact hslot
    have hchild := ht.child hi
    cases hc : child i with
    | empty =>
      rw [hc] at hsub hentry
      refine Heap.wp_ite (fun hyes => absurd (hyes.symm.trans hentry) (by decide)) fun _ => ?_
      refine Heap.wp_ite (fun hno => absurd hno (by decide)) fun _ => ?_
      refine Heap.wp_bind (Heap.wp_kalloc ?_ fun a hle' => ?_)
      · exact Heap.wp_pure (hnone h _ ⟨hown, ht, rfl, fun _ => rfl, Same.refl⟩)
      have hn := Multiset.nodup_of_le hle' hram.nodup
      rw [Multiset.nodup_cons, hsub] at hn
      have hin : ∀ x ∈ page ::ₘ (Radix.siblings 512 child i + F), x ≠ a := by
        intro x hx heq
        exact hn.1 (Multiset.mem_add.mpr (Or.inr (heq ▸ hx)))
      have hpa := hin page (Multiset.mem_cons_self _ _)
      have hnot : page ∉ Radix.siblings 512 child i + F := by
        have := (Multiset.nodup_add.mp hn.2).2.1
        exact (Multiset.nodup_cons.mp this).1
      have ha : a ∈ ram := Multiset.mem_of_le hle' (Multiset.mem_cons_self _ _)
      refine Heap.wp_bind (Heap.wp_memset (Multiset.mem_cons_self _ _) ?_)
      refine Heap.wp_bind (Heap.wp_store ?_ ?_)
      · show page ∈ a ::ₘ h.own
        rw [hsub]
        simp
      refine hstep _ a (fun _ => .empty) ?_ ?_ ?_ (fun j hj => ?_) (fun v => ?_) ?_
      · show a ::ₘ h.own = _
        rw [hsub, pages_new, Radix.pages_empty, zero_add, Multiset.singleton_add]
      · refine holds_new ?_
        simp [update_of_ne hpa.symm]
      · have hlt : PA2PTE a ||| PTE_V < 2 ^ 64 := pte_lt (by decide) (hram.page_ok ha).2
        simp only [Heap.setPage_view, update_self]
        rw [word_setWord_self hlt]
        exact decodes_page (hram.page_ok ha).1 (hram.page_ok ha).2
      · simp only [Heap.setPage_view, update_self]
        rw [word_setWord_of_ne hj, update_of_ne hpa, update_of_ne hpa]
      · rw [hc]
        rfl
      · intro x hx
        have hxp : x ≠ page := fun heq => hnot (heq ▸ hx)
        have hxa := hin x (Multiset.mem_cons_of_mem hx)
        simp only [Heap.setPage_view, update_of_ne hxp, update_of_ne hxa]
    | node p ch =>
      rw [hc] at hsub hchild hentry
      refine Heap.wp_ite (fun _ => ?_) fun hno => absurd hentry.1 hno
      rw [hentry.2.2]
      exact hstep h p ch hsub hchild hentry (fun _ _ => rfl) (fun v => by rw [hc]) Same.refl

end Walk

/-! ## Page tables with their leaves -/

/-- The heap is a page table and `F`. -/
structure Space (h : Heap) (root : Nat) (leaves : Nat → Option Leaf) (F : Multiset Nat) : Prop where
  exists_tree : ∃ t : Radix Leaf 3, t.entry = .page root ∧ h.own = t.pages 512 + F ∧
    Holds h.view t ∧ ∀ v < 2 ^ 27, t.lookup 512 v = leaves v

namespace Space
variable {kend : Nat} {ram F G : Multiset Nat} {h h' : Heap} {root va : Nat}
  {leaves : Nat → Option Leaf}

theorem node (hs : Space h root leaves F) : ∃ child : Nat → Radix Leaf 2,
    h.own = Radix.pages 512 (.node root child) + F ∧ Holds h.view (.node root child) ∧
      ∀ v < 2 ^ 27, Radix.lookup 512 (.node root child) v = leaves v := by
  obtain ⟨t, hentry, hown, hholds, hlook⟩ := hs.exists_tree
  cases t with
  | empty => cases hentry
  | node page child =>
    obtain rfl : page = root := by simpa [Radix.entry] using hentry
    exact ⟨child, hown, hholds, hlook⟩

end Space

/-- `ptr` points to the entry for the leaf of `v`. -/
structure At (h : Heap) (root : Nat) (leaves : Nat → Option Leaf) (F : Multiset Nat) (v : Nat)
    (ptr : PtePtr) : Prop where
  exists_tree : ∃ t : Radix Leaf 3, t.entry = .page root ∧ h.own = t.pages 512 + F ∧
    Holds h.view t ∧ (∀ v < 2 ^ 27, t.lookup 512 v = leaves v) ∧
      t.slot 512 v = some (ptr.pagetable, ptr.index)

section At
variable {kend : Nat} {ram F G : Multiset Nat} {h h' : Heap} {root va v : Nat}
  {leaves : Nat → Option Leaf} {ptr : PtePtr}

theorem wp_walk_alloc (hram : IsRam kend ram) {Q : Option PtePtr → Heap → Prop}
    (hs : Space h root leaves F) (hva : va < MAXVA)
    (hnone : ∀ h', Space h' root leaves F → Same F h h' → Q none h')
    (hsome : ∀ ptr h', At h' root leaves F (va / PGSIZE) ptr → Same F h h' → Q (some ptr) h') :
    Heap.wp ram (walk root va true) h Q := by
  obtain ⟨child, hown, hholds, hlook⟩ := hs.node
  refine Heap.wp_ite (fun hle => absurd hle (by omega)) fun _ => ?_
  refine wp_walkFrom_alloc hram hown hholds (fun h' t' he => ?_) fun h' t' p i he hslot => ?_
  · refine hnone h' ⟨t', he.entry, he.own, he.holds, fun v hv => ?_⟩ he.same
    rw [he.lookup, hlook v hv]
  · refine hsome ⟨p, i⟩ h' ⟨t', he.entry, he.own, he.holds, fun v hv => ?_, hslot⟩ he.same
    rw [he.lookup, hlook v hv]

end At

end Xv6.Memory
