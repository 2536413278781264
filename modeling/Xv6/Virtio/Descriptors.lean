import Mathlib.Data.List.Nodup
import Xv6.Virtio.Model

/-!
# Allocating and freeing descriptors
-/

namespace Xv6.Virtio

open Xv6.Foundation Function

set_option autoImplicit false

variable {B : Type} {d : Disk B} {c : Chain} {i : Nat}

/-- The flags and links of a chain that is in flight. -/
structure Linked (desc : Nat → Desc) (c : Chain) : Prop where
  flag0 : (desc c.i0).flags &&& VRING_DESC_F_NEXT ≠ 0
  next0 : (desc c.i0).next = c.i1
  flag1 : (desc c.i1).flags &&& VRING_DESC_F_NEXT ≠ 0
  next1 : (desc c.i1).next = c.i2
  flag2 : (desc c.i2).flags &&& VRING_DESC_F_NEXT = 0

theorem Linked.congr {desc desc' : Nat → Desc} (h : Linked desc c)
    (he : ∀ i ∈ c.list, desc' i = desc i) : Linked desc' c := by
  have h0 := he c.i0 (by simp [Chain.list])
  have h1 := he c.i1 (by simp [Chain.list])
  have h2 := he c.i2 (by simp [Chain.list])
  exact ⟨h0 ▸ h.flag0, h0 ▸ h.next0, h1 ▸ h.flag1, h1 ▸ h.next1, h2 ▸ h.flag2⟩

theorem Linked.format (hc : c.list.Nodup) (r : Request B) : Linked (format d r c).desc c := by
  obtain ⟨i0, i1, i2⟩ := c
  simp only [Chain.list, List.nodup_cons, List.mem_cons, List.not_mem_nil, or_false, not_or,
    not_false_eq_true, List.nodup_nil, and_true] at hc
  obtain ⟨⟨h01, h02⟩, h12⟩ := hc
  have hsecond : ((if r.write then 0 else VRING_DESC_F_WRITE) ||| VRING_DESC_F_NEXT) &&&
      VRING_DESC_F_NEXT ≠ 0 := by
    cases r.write <;> decide
  constructor
  · simp [Virtio.format, h01, h02, VRING_DESC_F_NEXT]
  · simp [Virtio.format, h01, h02]
  · simpa [Virtio.format, h12] using hsecond
  · simp [Virtio.format, h12]
  · simp [Virtio.format, VRING_DESC_F_NEXT, VRING_DESC_F_WRITE]

theorem format_desc_of_not_mem (r : Request B) (hi : i ∉ c.list) :
    (format d r c).desc i = d.desc i := by
  simp only [Chain.list, List.mem_cons, List.not_mem_nil, or_false, not_or] at hi
  simp [Virtio.format, hi.1, hi.2.1, hi.2.2]

/-- The free descriptors `is` have been taken, and some of the contents changed. -/
def Disk.taken (d : Disk B) (is : List Nat) (desc : Nat → Desc) : Disk B :=
  { d with desc := desc, free := fun i => if i ∈ is then false else d.free i }

theorem Disk.taken_nil (d : Disk B) : d.taken [] d.desc = d := by
  simp [Disk.taken]

variable {is : List Nat} {desc : Nat → Desc}

theorem allocDesc_taken (d : Disk B) (is : List Nat) (desc : Nat → Desc) :
    allocDesc (d.taken is desc) = none ∨
    ∃ i < NUM, i ∉ is ∧ d.free i = true ∧
      allocDesc (d.taken is desc) = some (i, d.taken (is ++ [i]) desc) := by
  unfold allocDesc
  cases hf : (List.range NUM).find? (d.taken is desc).free with
  | none => exact .inl rfl
  | some i =>
    have hfree : (d.taken is desc).free i = true := List.find?_some hf
    simp only [Disk.taken] at hfree
    have hnot : i ∉ is := by
      intro hm
      rw [if_pos hm] at hfree
      cases hfree
    rw [if_neg hnot] at hfree
    refine .inr ⟨i, List.mem_range.mp (List.mem_of_find?_eq_some hf), hnot, hfree, ?_⟩
    have hsame : update (d.taken is desc).free i false =
        fun k => if k ∈ is ++ [i] then false else d.free k := by
      funext k
      by_cases hk : k = i
      · subst hk
        simp
      · simp [hk, Disk.taken]
    simp only [Option.map_some, hsame]
    rfl

theorem freeDesc_taken (desc : Nat → Desc) (hi : i < NUM) (hfree : d.free i = true) (hnot : i ∉ is) :
    freeDesc (d.taken (i :: is) desc) i =
      .ok (d.taken is (update desc i ⟨0, 0⟩)) := by
  have hsame : update (d.taken (i :: is) desc).free i true =
      fun k => if k ∈ is then false else d.free k := by
    funext k
    by_cases hk : k = i
    · subst hk
      simp [hnot, hfree]
    · simp [hk, Disk.taken]
  rw [freeDesc, if_neg (Nat.not_le.mpr hi), if_neg (by simp [Disk.taken]), hsame]
  rfl

/-- Either three free descriptors are taken, or the free ones are what they were; then only the
contents of free descriptors may have changed. -/
theorem alloc3Desc_cases (d : Disk B) :
    (∃ c : Chain, c.list.Nodup ∧ (∀ i ∈ c.list, i < NUM ∧ d.free i = true) ∧
      alloc3Desc d = .ok (some c, d.taken c.list d.desc)) ∨
    ∃ desc, (∀ i, d.free i = false → desc i = d.desc i) ∧
      alloc3Desc d = .ok (none, d.taken [] desc) := by
  have hne : ∀ {i k : Nat}, d.free i = true → d.free k = false → k ≠ i := by
    rintro i k hi hk rfl
    rw [hi] at hk
    cases hk
  have h0 := allocDesc_taken d [] d.desc
  rw [d.taken_nil] at h0
  rcases h0 with h0 | ⟨i, hi, -, hfi, h0⟩
  · exact .inr ⟨d.desc, fun _ _ => rfl, by simp only [alloc3Desc, h0, d.taken_nil]⟩
  rcases allocDesc_taken d [i] d.desc with h1 | ⟨j, hj, hji, hfj, h1⟩
  · refine .inr ⟨update d.desc i ⟨0, 0⟩, ?_, ?_⟩
    · exact fun k hk => update_of_ne (hne hfi hk) _ _
    · have hback := freeDesc_taken d.desc hi hfi (List.not_mem_nil (a := i))
      simp only [alloc3Desc, h0, List.nil_append, h1, hback]
      rfl
  have hij : i ∉ [j] := fun h => hji (by simpa [eq_comm] using h)
  rcases allocDesc_taken d [i, j] d.desc with h2 | ⟨k, hk, hkij, hfk, h2⟩
  · refine .inr ⟨update (update d.desc i ⟨0, 0⟩) j ⟨0, 0⟩, ?_, ?_⟩
    · intro k hk
      rw [update_of_ne (hne hfj hk), update_of_ne (hne hfi hk)]
    · have hback := freeDesc_taken d.desc hi hfi hij
      have hback' := freeDesc_taken (update d.desc i ⟨0, 0⟩) hj hfj
        (List.not_mem_nil (a := j))
      simp only [alloc3Desc, h0, List.nil_append, h1, List.singleton_append, h2, hback]
      show (freeDesc (d.taken [j] _) j).bind _ = _
      rw [hback']
      rfl
  · refine .inl ⟨⟨i, j, k⟩, ?_, ?_, ?_⟩
    · simp only [List.mem_cons, List.not_mem_nil, or_false, not_or] at hij hkij
      simp [Chain.list, hij, Ne.symm hkij.1, Ne.symm hkij.2]
    · simp [Chain.list, hi, hj, hk, hfi, hfj, hfk]
    · simp only [alloc3Desc, h0, List.nil_append, h1, List.singleton_append, h2]
      rfl

theorem freeDesc_ok (hi : i < NUM) (hfree : d.free i = false) : freeDesc d i = .ok { d with
      desc := update d.desc i ⟨0, 0⟩, free := update d.free i true } := by
  rw [freeDesc, if_neg (Nat.not_le.mpr hi), if_neg (by simp [hfree])]

theorem freeChain_succ {turns i : Nat} (hi : i < NUM) (hfree : d.free i = false) :
    freeChain (turns + 1) i d =
      (let d' : Disk B := { d with
        desc := update d.desc i ⟨0, 0⟩, free := update d.free i true }
      if (d.desc i).flags &&& VRING_DESC_F_NEXT ≠ 0 then freeChain turns (d.desc i).next d'
      else .ok d') := by
  simp only [freeChain, freeDesc_ok hi hfree]

theorem freeChain_linked (hc : c.list.Nodup)
    (htaken : ∀ i ∈ c.list, i < NUM ∧ d.free i = false) (hlinked : Linked d.desc c) :
    ∃ desc, (∀ i, i ∉ c.list → desc i = d.desc i) ∧
      freeChain NUM c.i0 d =
        .ok { d with desc := desc, free := fun i => if i ∈ c.list then true else d.free i } := by
  obtain ⟨i0, i1, i2⟩ := c
  obtain ⟨flag0, next0, flag1, next1, flag2⟩ := hlinked
  simp only [Chain.list, List.nodup_cons, List.mem_cons, List.not_mem_nil, or_false, not_or,
    not_false_eq_true, List.nodup_nil, and_true] at hc
  obtain ⟨⟨h01, h02⟩, h12⟩ := hc
  obtain ⟨hlt0, hf0⟩ := htaken i0 (by simp [Chain.list])
  obtain ⟨hlt1, hf1⟩ := htaken i1 (by simp [Chain.list])
  obtain ⟨hlt2, hf2⟩ := htaken i2 (by simp [Chain.list])
  dsimp only at flag0 next0 flag1 next1 flag2
  refine ⟨update (update (update d.desc i0 ⟨0, 0⟩) i1 ⟨0, 0⟩) i2 ⟨0, 0⟩,
    ?_, ?_⟩
  · intro i hi
    simp only [Chain.list, List.mem_cons, List.not_mem_nil, or_false, not_or] at hi
    simp [hi.1, hi.2.1, hi.2.2]
  · have hfree : update (update (update d.free i0 true) i1 true) i2 true =
        fun i => if i ∈ [i0, i1, i2] then true else d.free i := by
      funext i
      by_cases h2 : i = i2
      · simp [h2]
      by_cases h1 : i = i1
      · simp [h1, h12]
      by_cases h0 : i = i0
      · simp [h0, h01, h02]
      simp [h0, h1, h2]
    show freeChain (5 + 1 + 1 + 1) i0 d = _
    rw [freeChain_succ hlt0 hf0]
    simp only [flag0, not_false_eq_true, ne_eq, if_true, next0]
    rw [freeChain_succ hlt1 (by simpa [Ne.symm h01] using hf1)]
    simp only [update_of_ne (Ne.symm h01), flag1, ne_eq, not_false_eq_true, if_true, next1]
    rw [freeChain_succ hlt2 (by simpa [Ne.symm h02, Ne.symm h12] using hf2)]
    simp only [update_of_ne (Ne.symm h12), update_of_ne (Ne.symm h02), flag2,
      ne_eq, not_true_eq_false, if_false, hfree]
    rfl

end Xv6.Virtio
