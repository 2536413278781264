import Mathlib.Data.Nat.Bitwise
import Mathlib.Data.Multiset.MapFold
import Xv6.Foundation.Radix
import Xv6.Memory.Vm

/-!
# Programs that use pages of their own

A heap is a collection of pages and their contents. A program that keeps to its heap and to what
`kalloc` gives it may run beside any others; `Heap.wp` says what it does.
-/

namespace Xv6.Memory

open Xv6.Foundation Function

set_option autoImplicit false

structure Heap where
  own : Multiset Nat
  view : Nat → Page

namespace Heap
variable {β γ : Type}

def setPage (h : Heap) (pa : Nat) (c : Page) : Heap :=
  { h with view := Function.update h.view pa c }

@[simp]
theorem setPage_own (h : Heap) (pa : Nat) (c : Page) : (h.setPage pa c).own = h.own := rfl

@[simp]
theorem setPage_view (h : Heap) (pa : Nat) (c : Page) :
    (h.setPage pa c).view = update h.view pa c := rfl

/-- What `Q` has to hold of for an action to lead to it. -/
def After (ram : Multiset Nat) : (a : MemAct) → Heap → (a.Resp → Heap → Prop) → Prop
  | .panic _, _, _ => False
  | .kalloc, h, Q => Q none h ∧ ∀ a, a ::ₘ h.own ≤ ram →
      Q (some a) ⟨a ::ₘ h.own, Function.update h.view a fun _ => 5⟩
  | .kfree pa, h, Q => ∃ F, h.own = pa ::ₘ F ∧ Q () ⟨F, h.view⟩
  | .load ptr, h, Q => ptr.pagetable ∈ h.own ∧ Q (word (h.view ptr.pagetable) ptr.index) h
  | .store ptr w, h, Q => ptr.pagetable ∈ h.own ∧
      Q () (h.setPage ptr.pagetable (setWord (h.view ptr.pagetable) ptr.index w))
  | .memset pa b, h, Q => pa ∈ h.own ∧ Q () (h.setPage pa fun _ => b)
  | .read pa, h, Q => pa ∈ h.own ∧ Q (h.view pa) h
  | .write pa off src n, h, Q => pa ∈ h.own ∧ Q () (h.setPage pa (blit (h.view pa) off src n))

def wp (ram : Multiset Nat) : VM β → Heap → (β → Heap → Prop) → Prop
  | .ret b, h, Q => Q b h
  | .act a k, h, Q => h.own ≤ ram → After ram a h fun r h' => wp ram (k r) h' Q

section Rules
variable {ram : Multiset Nat} {h : Heap} {Q : β → Heap → Prop}

theorem After.mono {a : MemAct} {Q Q' : a.Resp → Heap → Prop} (ha : After ram a h Q)
    (hq : ∀ r h, Q r h → Q' r h) : After ram a h Q' := by
  cases a with
  | panic e => exact ha
  | kalloc => exact ⟨hq _ _ ha.1, fun a hle => hq _ _ (ha.2 a hle)⟩
  | kfree pa =>
    obtain ⟨F, hF, hr⟩ := ha
    exact ⟨F, hF, hq _ _ hr⟩
  | load ptr => exact ⟨ha.1, hq _ _ ha.2⟩
  | store ptr w => exact ⟨ha.1, hq _ _ ha.2⟩
  | memset pa b => exact ⟨ha.1, hq _ _ ha.2⟩
  | read pa => exact ⟨ha.1, hq _ _ ha.2⟩
  | write pa off src n => exact ⟨ha.1, hq _ _ ha.2⟩

theorem wp_bind {m : VM γ} {f : γ → VM β}
    (hm : wp ram m h fun c h' => wp ram (f c) h' Q) : wp ram (m >>= f) h Q := by
  induction m generalizing h with
  | ret c => exact hm
  | act a k ih => exact fun hle => (hm hle).mono fun r h' => ih r

theorem wp_pure {b : β} (hq : Q b h) : wp ram (pure b) h Q := hq

theorem wp_ite {c : Prop} [Decidable c] {m m' : VM β}
    (ht : c → wp ram m h Q) (hf : ¬ c → wp ram m' h Q) :
    wp ram (if c then m else m') h Q := by
  split
  · exact ht ‹_›
  · exact hf ‹_›

theorem wp_kalloc {Q : Option Nat → Heap → Prop} (hnone : Q none h)
    (hsome : ∀ a, a ::ₘ h.own ≤ ram →
      Q (some a) ⟨a ::ₘ h.own, update h.view a fun _ => 5⟩) : wp ram kalloc h Q :=
  fun _ => ⟨hnone, hsome⟩

theorem wp_load {ptr : PtePtr} {Q : Nat → Heap → Prop} (hown : ptr.pagetable ∈ h.own)
    (hq : h.own ≤ ram → Q (word (h.view ptr.pagetable) ptr.index) h) : wp ram (load ptr) h Q :=
  fun hle => ⟨hown, hq hle⟩

theorem wp_store {ptr : PtePtr} {w : Nat} {Q : Unit → Heap → Prop} (hown : ptr.pagetable ∈ h.own)
    (hq : Q () (h.setPage ptr.pagetable (setWord (h.view ptr.pagetable) ptr.index w))) :
    wp ram (store ptr w) h Q :=
  fun _ => ⟨hown, hq⟩

theorem wp_memset {pa : Nat} {b : Byte} {Q : Unit → Heap → Prop} (hown : pa ∈ h.own)
    (hq : Q () (h.setPage pa fun _ => b)) : wp ram (memset pa b) h Q :=
  fun _ => ⟨hown, hq⟩

end Rules

end Heap

/-! ## The free list -/

/-- `free` are the pages on the list that begins with `r`. -/
def Chain (page : Nat → Page) : Nat → List Nat → Prop
  | r, [] => r = 0
  | r, a :: rest => r = a ∧ a ≠ 0 ∧ Chain page (word (page a) 0) rest

theorem Chain.congr {page page' : Nat → Page} {r : Nat} {free : List Nat} (h : Chain page r free)
    (hpage : ∀ a ∈ free, word (page' a) 0 = word (page a) 0) : Chain page' r free := by
  induction free generalizing r with
  | nil => exact h
  | cons a rest ih =>
    obtain ⟨rfl, hne, htail⟩ := h
    refine ⟨rfl, hne, ih ?_ fun x hx => hpage x (List.mem_cons_of_mem _ hx)⟩
    rwa [hpage r List.mem_cons_self]

structure IsRam (kend : Nat) (ram : Multiset Nat) : Prop where
  nodup : ram.Nodup
  aligned : ∀ a ∈ ram, a % PGSIZE = 0
  lower : ∀ a ∈ ram, kend ≤ a
  upper : ∀ a ∈ ram, a < PHYSTOP
  pos : 0 < kend
  card : ram.card ≤ 2 ^ 15

/-- What is not on the free list is held. -/
def FreeBut (ram : Multiset Nat) (m : Mem) (held : Multiset Nat) : Prop :=
  ∃ free : List Nat, Chain m.page m.freelist free ∧ (free : Multiset Nat) + held = ram

namespace FreeBut
variable {kend a : Nat} {ram held : Multiset Nat} {m : Mem} {c : Page}

theorem held_le (h : FreeBut ram m held) : held ≤ ram := by
  obtain ⟨free, -, hsum⟩ := h
  rw [← hsum]
  exact Multiset.le_add_left _ _

theorem setPage (h : FreeBut ram m held) (hram : IsRam kend ram) (ha : a ∈ held) :
    FreeBut ram (m.setPage a c) held := by
  obtain ⟨free, hchain, hsum⟩ := h
  have hn := hram.nodup
  rw [← hsum, Multiset.nodup_add] at hn
  refine ⟨free, hchain.congr fun x hx => ?_, hsum⟩
  have hne : x ≠ a := by
    intro heq
    exact Multiset.disjoint_left.mp hn.2.2 (Multiset.mem_coe.mpr hx) (heq ▸ ha)
  rw [Mem.setPage_page, update_of_ne hne]

theorem kalloc (h : FreeBut ram m held) (hram : IsRam kend ram) (hne : m.freelist ≠ 0) :
    FreeBut ram ⟨update m.page m.freelist c, word (m.page m.freelist) 0⟩
      (m.freelist ::ₘ held) := by
  obtain ⟨free, hchain, hsum⟩ := h
  cases free with
  | nil => exact absurd hchain hne
  | cons r rest =>
    obtain ⟨rfl, -, htail⟩ := hchain
    rw [← Multiset.cons_coe, Multiset.cons_add, ← Multiset.add_cons] at hsum
    have hn := hram.nodup
    rw [← hsum, Multiset.nodup_add] at hn
    refine ⟨rest, htail.congr fun x hx => ?_, hsum⟩
    have hx' : x ≠ m.freelist := by
      intro heq
      exact Multiset.disjoint_left.mp hn.2.2 (Multiset.mem_coe.mpr hx)
        (heq ▸ Multiset.mem_cons_self _ _)
    simp only [update_of_ne hx']

theorem freelist_lt (h : FreeBut ram m held) (hram : IsRam kend ram) : m.freelist < 2 ^ 64 := by
  obtain ⟨free, hchain, hsum⟩ := h
  cases free with
  | nil => exact hchain ▸ by decide
  | cons r rest =>
    obtain ⟨rfl, -, -⟩ := hchain
    have := hram.upper m.freelist (by simp [← hsum])
    exact this.trans (by decide)

theorem kfree (h : FreeBut ram m (a ::ₘ held)) (hram : IsRam kend ram) :
    FreeBut ram ⟨update m.page a (setWord (fun _ => 1) 0 m.freelist), a⟩ held := by
  have hlt := h.freelist_lt hram
  have hmem : a ∈ ram := Multiset.mem_of_le h.held_le (Multiset.mem_cons_self _ _)
  obtain ⟨free, hchain, hsum⟩ := h
  have hn := hram.nodup
  rw [← hsum, Multiset.nodup_add] at hn
  have hlower := hram.lower a hmem
  have hpos := hram.pos
  refine ⟨a :: free, ⟨rfl, by omega, ?_⟩, ?_⟩
  · simp only [update_self, word_setWord_self hlt]
    refine hchain.congr fun x hx => ?_
    have hne : x ≠ a := by
      intro heq
      exact Multiset.disjoint_left.mp hn.2.2 (Multiset.mem_coe.mpr hx)
        (heq ▸ Multiset.mem_cons_self _ _)
    simp only [update_of_ne hne]
  · rw [← Multiset.cons_coe, Multiset.cons_add, ← Multiset.add_cons]
    exact hsum

end FreeBut

/-! ## Soundness -/

/-- The memory has the contents of the heap. -/
def Heap.Agrees (h : Heap) (m : Mem) : Prop := ∀ a ∈ h.own, m.page a = h.view a

section Sound
variable {kend : Nat} {ram rest : Multiset Nat} {m : Mem} {h : Heap} {β : Type}

theorem Heap.Agrees.setPage {a : Nat} {c : Page} (hag : h.Agrees m) :
    (h.setPage a c).Agrees (m.setPage a c) := by
  intro x hx
  simp only [Mem.setPage_page, Heap.setPage_view, update_apply]
  split
  · rfl
  · exact hag x hx

/-- An action does what `After` says, and changes no page of anybody else. -/
theorem Heap.After.sound {a : MemAct} {Q : a.Resp → Heap → Prop} (ha : h.After ram a Q)
    (hram : IsRam kend ram) (hfree : FreeBut ram m (h.own + rest)) (hag : h.Agrees m) :
    ∃ r m' h', m.exec kend a = .ok r m' ∧ FreeBut ram m' (h'.own + rest) ∧ h'.Agrees m' ∧
      (∀ x ∈ rest, m'.page x = m.page x) ∧ Q r h' := by
  -- a page of the heap is no page of the others
  have hne : ∀ x ∈ h.own, ∀ y ∈ rest, y ≠ x := by
    have hn := Multiset.nodup_of_le hfree.held_le hram.nodup
    rw [Multiset.nodup_add] at hn
    intro x hx y hy heq
    exact Multiset.disjoint_left.mp hn.2.2 hx (heq ▸ hy)
  have hset : ∀ x c, x ∈ h.own → FreeBut ram (m.setPage x c) ((h.setPage x c).own + rest) ∧
      (h.setPage x c).Agrees (m.setPage x c) ∧
      ∀ y ∈ rest, (m.setPage x c).page y = m.page y := by
    intro x c hx
    refine ⟨hfree.setPage hram (Multiset.mem_add.mpr (Or.inl hx)), hag.setPage, fun y hy => ?_⟩
    rw [Mem.setPage_page, update_of_ne (hne x hx y hy)]
  cases a with
  | panic e => exact ha.elim
  | kalloc =>
    by_cases hzero : m.freelist = 0
    · exact ⟨none, m, h, by simp [Mem.exec, hzero], hfree, hag, fun _ _ => rfl, ha.1⟩
    · have hfree' := hfree.kalloc (c := fun _ => 5) hram hzero
      rw [← Multiset.cons_add] at hfree'
      have hle : m.freelist ::ₘ h.own ≤ ram :=
        (Multiset.le_add_right _ _).trans hfree'.held_le
      have hn := Multiset.nodup_of_le hfree'.held_le hram.nodup
      rw [Multiset.nodup_add] at hn
      refine ⟨some m.freelist, _, _, by simp [Mem.exec, hzero], hfree', ?_, ?_, ha.2 _ hle⟩
      · intro x hx
        simp only [update_apply]
        split
        · rfl
        · rename_i hx'
          exact hag x ((Multiset.mem_cons.mp hx).resolve_left hx')
      · intro x hx
        have : x ≠ m.freelist := by
          intro heq
          exact Multiset.disjoint_left.mp hn.2.2 (Multiset.mem_cons_self _ _) (heq ▸ hx)
        simp only [update_of_ne this]
  | kfree pa =>
    obtain ⟨F, hF, hq⟩ := ha
    have hown : pa ∈ h.own := hF ▸ Multiset.mem_cons_self _ _
    have hmem : pa ∈ ram :=
      Multiset.mem_of_le hfree.held_le (Multiset.mem_add.mpr (Or.inl hown))
    have hchecks : ¬ (pa % PGSIZE ≠ 0 ∨ pa < kend ∨ PHYSTOP ≤ pa) := by
      have h1 := hram.aligned pa hmem
      have h2 := hram.lower pa hmem
      have h3 := hram.upper pa hmem
      omega
    have hfree' : FreeBut ram m (pa ::ₘ (F + rest)) := by
      rwa [hF, Multiset.cons_add] at hfree
    have hn := Multiset.nodup_of_le hfree'.held_le hram.nodup
    rw [Multiset.nodup_cons, Multiset.mem_add, not_or] at hn
    refine ⟨(), _, ⟨F, h.view⟩, by rw [Mem.exec, if_neg hchecks], hfree'.kfree hram, ?_, ?_, hq⟩
    · intro x hx
      have : x ≠ pa := fun heq => hn.1.1 (heq ▸ hx)
      simp only [update_of_ne this]
      exact hag x (hF ▸ Multiset.mem_cons_of_mem hx)
    · intro x hx
      have : x ≠ pa := fun heq => hn.1.2 (heq ▸ hx)
      simp only [update_of_ne this]
  | load ptr =>
    refine ⟨_, m, h, rfl, hfree, hag, fun _ _ => rfl, ?_⟩
    rw [hag _ ha.1]
    exact ha.2
  | store ptr w =>
    obtain ⟨h1, h2, h3⟩ := hset ptr.pagetable (setWord (h.view ptr.pagetable) ptr.index w) ha.1
    rw [← hag _ ha.1] at h1 h2 h3
    exact ⟨(), _, _, rfl, h1, h2, h3, hag _ ha.1 ▸ ha.2⟩
  | memset pa b =>
    obtain ⟨h1, h2, h3⟩ := hset pa (fun _ => b) ha.1
    exact ⟨(), _, _, rfl, h1, h2, h3, ha.2⟩
  | read pa =>
    refine ⟨_, m, h, rfl, hfree, hag, fun _ _ => rfl, ?_⟩
    rw [hag _ ha.1]
    exact ha.2
  | write pa off src n =>
    obtain ⟨h1, h2, h3⟩ := hset pa (blit (h.view pa) off src n) ha.1
    rw [← hag _ ha.1] at h1 h2 h3
    exact ⟨(), _, _, rfl, h1, h2, h3, hag _ ha.1 ▸ ha.2⟩

theorem Heap.wp.run {p : VM β} {Q : β → Heap → Prop} (hp : Heap.wp ram p h Q)
    (hram : IsRam kend ram) (hfree : FreeBut ram m (h.own + rest)) (hag : h.Agrees m) :
    ∃ b m' h', p.run (Mem.exec kend) m = .ok b m' ∧ FreeBut ram m' (h'.own + rest) ∧
      h'.Agrees m' ∧ (∀ x ∈ rest, m'.page x = m.page x) ∧ Q b h' := by
  induction p generalizing h m with
  | ret b => exact ⟨b, m, h, rfl, hfree, hag, fun _ _ => rfl, hp⟩
  | act a k ih =>
    have hle : h.own ≤ ram := (Multiset.le_add_right _ _).trans hfree.held_le
    obtain ⟨r, m₁, h₁, he, hfree₁, hag₁, hrest₁, hq⟩ := (hp hle).sound hram hfree hag
    obtain ⟨b, m₂, h₂, hrun, hfree₂, hag₂, hrest₂, hq₂⟩ := ih r hq hfree₁ hag₁
    refine ⟨b, m₂, h₂, ?_, hfree₂, hag₂, fun x hx => (hrest₂ x hx).trans (hrest₁ x hx), hq₂⟩
    rw [Prog.run, he]
    exact hrun

end Sound

/-! ## Programs that were run -/

-- a loop over the entries of a page is not to be unfolded by unification
attribute [irreducible] Heap.wp

end Xv6.Memory
