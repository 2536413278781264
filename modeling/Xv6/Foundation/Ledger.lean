import Mathlib.Data.List.Nodup
import Mathlib.Tactic.Common

/-!
# Allocation ledgers

An allocator hands out the numbers `lo ≤ b < hi` and keeps a mark for each that is out. A number
that is out is named by exactly one slot of a data structure, or is in the hands of a call in
progress, which has taken it but not yet stored it, or has cleared its slot but not yet given it
back.
-/

namespace Xv6.Foundation

set_option autoImplicit false

variable {σ : Type}

structure Ledger (used : σ → Nat → Prop) (marked : Nat → Prop) (lo hi : Nat)
    (extra : List Nat) : Prop where
  range : ∀ s b, used s b → lo ≤ b ∧ b < hi
  inj : ∀ s t b, used s b → used t b → s = t
  extra_nodup : extra.Nodup
  extra_range : ∀ b ∈ extra, lo ≤ b ∧ b < hi
  extra_free : ∀ b ∈ extra, ∀ s, ¬ used s b
  marked_iff : ∀ b, lo ≤ b → b < hi → (marked b ↔ (∃ s, used s b) ∨ b ∈ extra)

namespace Ledger
variable {used used' : σ → Nat → Prop} {marked marked' : Nat → Prop} {lo hi b : Nat}
  {extra : List Nat}

variable (h : Ledger used marked lo hi extra)
include h

theorem congr (hu : ∀ s c, used' s c ↔ used s c)
    (hm : ∀ c, lo ≤ c → c < hi → (marked' c ↔ marked c)) : Ledger used' marked' lo hi extra where
  range s c hc := h.range s c ((hu s c).mp hc)
  inj s t c hs ht := h.inj s t c ((hu s c).mp hs) ((hu t c).mp ht)
  extra_nodup := h.extra_nodup
  extra_range := h.extra_range
  extra_free c hc s hs := h.extra_free c hc s ((hu s c).mp hs)
  marked_iff c hlo hhi := by
    rw [hm c hlo hhi, h.marked_iff c hlo hhi]
    simp only [hu]

theorem not_used (hr : lo ≤ b ∧ b < hi) (hb : ¬ marked b) : (∀ s, ¬ used s b) ∧ b ∉ extra := by
  rw [h.marked_iff b hr.1 hr.2] at hb
  exact ⟨fun s hs => hb (Or.inl ⟨s, hs⟩), fun he => hb (Or.inr he)⟩

theorem alloc (hr : lo ≤ b ∧ b < hi) (hb : ¬ marked b)
    (hm : ∀ c, lo ≤ c → c < hi → (marked' c ↔ marked c ∨ c = b)) :
    Ledger used marked' lo hi (b :: extra) := by
  obtain ⟨hu, he⟩ := h.not_used hr hb
  refine ⟨h.range, h.inj, List.nodup_cons.mpr ⟨he, h.extra_nodup⟩,
    List.forall_mem_cons.mpr ⟨hr, h.extra_range⟩, List.forall_mem_cons.mpr ⟨hu, h.extra_free⟩, ?_⟩
  intro c hlo hhi
  rw [hm c hlo hhi, h.marked_iff c hlo hhi, List.mem_cons]
  tauto

theorem assign {s₀ : σ} (hb : b ∈ extra) (hu : ∀ s c, used' s c ↔ used s c ∨ (s = s₀ ∧ c = b)) :
    Ledger used' marked lo hi (extra.erase b) := by
  have hmem : ∀ c, c ∈ extra.erase b ↔ c ≠ b ∧ c ∈ extra := fun c => h.extra_nodup.mem_erase_iff
  refine ⟨?_, ?_, h.extra_nodup.erase b, ?_, ?_, ?_⟩
  · intro s c hc
    rcases (hu s c).mp hc with hc | ⟨-, rfl⟩
    · exact h.range s c hc
    · exact h.extra_range c hb
  · intro s t c hs ht
    rcases (hu s c).mp hs with hs | ⟨rfl, rfl⟩ <;> rcases (hu t c).mp ht with ht | ⟨rfl, he⟩
    · exact h.inj s t c hs ht
    · exact absurd hs (h.extra_free c (he ▸ hb) s)
    · exact absurd ht (h.extra_free c hb t)
    · rfl
  · exact fun c hc => h.extra_range c ((hmem c).mp hc).2
  · intro c hc s hs
    obtain ⟨hne, he⟩ := (hmem c).mp hc
    rcases (hu s c).mp hs with hs | ⟨-, rfl⟩
    · exact h.extra_free c he s hs
    · exact hne rfl
  · intro c hlo hhi
    rw [h.marked_iff c hlo hhi, hmem]
    constructor
    · rintro (⟨s, hs⟩ | he)
      · exact Or.inl ⟨s, (hu s c).mpr (Or.inl hs)⟩
      · by_cases hcb : c = b
        · exact Or.inl ⟨s₀, (hu s₀ c).mpr (Or.inr ⟨rfl, hcb⟩)⟩
        · exact Or.inr ⟨hcb, he⟩
    · rintro (⟨s, hs⟩ | he)
      · rcases (hu s c).mp hs with hs | ⟨-, rfl⟩
        · exact Or.inl ⟨s, hs⟩
        · exact Or.inr hb
      · exact Or.inr he.2

theorem drop {E : List Nat} (hnd : E.Nodup)
    (hu : ∀ s c, used' s c → used s c) (hE : ∀ c, c ∈ E ↔ ∃ s, used s c ∧ ¬ used' s c) :
    Ledger used' marked lo hi (E ++ extra) := by
  refine ⟨fun s c hc => h.range s c (hu s c hc), fun s t c hs ht => h.inj s t c (hu s c hs) (hu t c ht),
    ?_, ?_, ?_, ?_⟩
  · refine List.nodup_append.mpr ⟨hnd, h.extra_nodup, ?_⟩
    rintro c hc d hd rfl
    obtain ⟨s, hs, -⟩ := (hE c).mp hc
    exact h.extra_free c hd s hs
  · intro c hc
    rcases List.mem_append.mp hc with hc | hc
    · obtain ⟨s, hs, -⟩ := (hE c).mp hc
      exact h.range s c hs
    · exact h.extra_range c hc
  · intro c hc s hs
    rcases List.mem_append.mp hc with hc | hc
    · obtain ⟨t, ht, hn⟩ := (hE c).mp hc
      rw [h.inj t s c ht (hu s c hs)] at hn
      exact hn hs
    · exact h.extra_free c hc s (hu s c hs)
  · intro c hlo hhi
    rw [h.marked_iff c hlo hhi, List.mem_append]
    constructor
    · rintro (⟨s, hs⟩ | he)
      · by_cases hn : used' s c
        · exact Or.inl ⟨s, hn⟩
        · exact Or.inr (Or.inl ((hE c).mpr ⟨s, hs, hn⟩))
      · exact Or.inr (Or.inr he)
    · rintro (⟨s, hs⟩ | he | he)
      · exact Or.inl ⟨s, hu s c hs⟩
      · obtain ⟨s, hs, -⟩ := (hE c).mp he
        exact Or.inl ⟨s, hs⟩
      · exact Or.inr he

theorem free (hb : b ∈ extra) (hm : ∀ c, lo ≤ c → c < hi → (marked' c ↔ marked c ∧ c ≠ b)) :
    Ledger used marked' lo hi (extra.erase b) := by
  have hmem : ∀ c, c ∈ extra.erase b ↔ c ≠ b ∧ c ∈ extra := fun c => h.extra_nodup.mem_erase_iff
  refine ⟨h.range, h.inj, h.extra_nodup.erase b, fun c hc => h.extra_range c ((hmem c).mp hc).2,
    fun c hc => h.extra_free c ((hmem c).mp hc).2, ?_⟩
  intro c hlo hhi
  rw [hm c hlo hhi, h.marked_iff c hlo hhi, hmem]
  constructor
  · rintro ⟨⟨s, hs⟩ | he, hne⟩
    · exact Or.inl ⟨s, hs⟩
    · exact Or.inr ⟨hne, he⟩
  · rintro (⟨s, hs⟩ | ⟨hne, he⟩)
    · refine ⟨Or.inl ⟨s, hs⟩, ?_⟩
      rintro rfl
      exact h.extra_free c hb s hs
    · exact ⟨Or.inr he, hne⟩

theorem marked_of_extra (hb : b ∈ extra) : marked b :=
  (h.marked_iff b (h.extra_range b hb).1 (h.extra_range b hb).2).mpr (Or.inr hb)

theorem marked_of_used {s : σ} (hs : used s b) : marked b :=
  (h.marked_iff b (h.range s b hs).1 (h.range s b hs).2).mpr (Or.inl ⟨s, hs⟩)

end Ledger

end Xv6.Foundation
