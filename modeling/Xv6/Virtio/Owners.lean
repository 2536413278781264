import Mathlib.Data.List.Perm.Subperm
import Xv6.Foundation.Ring
import Xv6.Virtio.Descriptors

/-!
# Who owns which descriptor, and where each head is

A request that the device has been told of is in the avail ring, at the device, in the used ring, or
finished. `Chains` is about the descriptors, `Owners` about the heads and the buffers.
-/

namespace Xv6.Virtio

open Xv6.Foundation Function

set_option autoImplicit false

variable {P B : Type}

structure Chains (free : Nat → Bool) (desc : Nat → Desc) (chain : P → Option Chain) : Prop where
  nodup : ∀ p c, chain p = some c → c.list.Nodup
  taken : ∀ p c, chain p = some c → ∀ i ∈ c.list, i < NUM ∧ free i = false
  disjoint : ∀ p q c e i, chain p = some c → chain q = some e → i ∈ c.list → i ∈ e.list → p = q
  covered : ∀ i < NUM, free i = false → ∃ p c, chain p = some c ∧ i ∈ c.list
  linked : ∀ p c, chain p = some c → Linked desc c

theorem Chain.head_mem (c : Chain) : c.i0 ∈ c.list := List.mem_cons_self

namespace Chains
variable {free : Nat → Bool} {desc : Nat → Desc} {chain : P → Option Chain}
  (h : Chains free desc chain) {desc' : Nat → Desc}
include h

theorem head_inj {p q : P} {c e : Chain} (hp : chain p = some c) (hq : chain q = some e)
    (he : c.i0 = e.i0) : p = q :=
  h.disjoint p q c e c.i0 hp hq c.head_mem (he ▸ e.head_mem)

theorem scrub (hd : ∀ i, free i = false → desc' i = desc i) : Chains free desc' chain :=
  ⟨h.nodup, h.taken, h.disjoint, h.covered, fun p c hp =>
    (h.linked p c hp).congr fun i hi => hd i (h.taken p c hp i hi).2⟩

variable [DecidableEq P]

theorem alloc {p : P} {c : Chain} (hp : chain p = none) (hc : c.list.Nodup)
    (hfree : ∀ i ∈ c.list, i < NUM ∧ free i = true) (hlinked : Linked desc' c)
    (hd : ∀ i, i ∉ c.list → desc' i = desc i) :
    Chains (fun i => if i ∈ c.list then false else free i) desc'
      (update chain p (some c)) := by
  have hother : ∀ {q e}, update chain p (some c) q = some e → q ≠ p →
      chain q = some e := by
    intro q e hq hne
    rwa [update_of_ne hne] at hq
  have hself : ∀ {e}, update chain p (some c) p = some e → e = c := by
    intro e he
    rw [update_self] at he
    exact (Option.some.inj he).symm
  -- a descriptor of another chain was not free
  have hnot : ∀ {q e i}, chain q = some e → i ∈ e.list → i ∉ c.list := by
    intro q e i hq hi hm
    have h1 := (hfree i hm).2
    rw [(h.taken q e hq i hi).2] at h1
    cases h1
  constructor
  · intro q e hq
    by_cases hne : q = p
    · subst hne
      rw [hself hq]
      exact hc
    · exact h.nodup q e (hother hq hne)
  · intro q e hq i hi
    by_cases hne : q = p
    · subst hne
      rw [hself hq] at hi
      exact ⟨(hfree i hi).1, if_pos hi⟩
    · have hq' := hother hq hne
      rw [if_neg (hnot hq' hi)]
      exact h.taken q e hq' i hi
  · intro q r e f i hq hr hi hi'
    by_cases hqp : q = p <;> by_cases hrp : r = p
    · rw [hqp, hrp]
    · subst hqp
      rw [hself hq] at hi
      exact absurd hi (hnot (hother hr hrp) hi')
    · subst hrp
      rw [hself hr] at hi'
      exact absurd hi' (hnot (hother hq hqp) hi)
    · exact h.disjoint q r e f i (hother hq hqp) (hother hr hrp) hi hi'
  · intro i hi hf
    by_cases hm : i ∈ c.list
    · exact ⟨p, c, update_self .., hm⟩
    · rw [if_neg hm] at hf
      obtain ⟨q, e, hq, hm'⟩ := h.covered i hi hf
      have hne : q ≠ p := by
        rintro rfl
        rw [hp] at hq
        cases hq
      exact ⟨q, e, by rwa [update_of_ne hne], hm'⟩
  · intro q e hq
    by_cases hne : q = p
    · subst hne
      rwa [hself hq]
    · have hq' := hother hq hne
      exact (h.linked q e hq').congr fun i hi => hd i (hnot hq' hi)

theorem release {p : P} {c : Chain} (hp : chain p = some c)
    (hd : ∀ i, i ∉ c.list → desc' i = desc i) :
    Chains (fun i => if i ∈ c.list then true else free i) desc' (update chain p none) := by
  have hother : ∀ {q e}, update chain p none q = some e → q ≠ p ∧ chain q = some e := by
    intro q e hq
    by_cases hne : q = p
    · subst hne
      rw [update_self] at hq
      cases hq
    · rw [update_of_ne hne] at hq
      exact ⟨hne, hq⟩
  have hnot : ∀ {q e i}, update chain p none q = some e → i ∈ e.list → i ∉ c.list := by
    intro q e i hq hi hm
    obtain ⟨hne, hq⟩ := hother hq
    exact hne (h.disjoint q p e c i hq hp hi hm)
  constructor
  · exact fun q e hq => h.nodup q e (hother hq).2
  · intro q e hq i hi
    rw [if_neg (hnot hq hi)]
    exact h.taken q e (hother hq).2 i hi
  · exact fun q r e f i hq hr => h.disjoint q r e f i (hother hq).2 (hother hr).2
  · intro i hi hf
    by_cases hm : i ∈ c.list
    · rw [if_pos hm] at hf
      cases hf
    · rw [if_neg hm] at hf
      obtain ⟨q, e, hq, hm'⟩ := h.covered i hi hf
      have hne : q ≠ p := by
        rintro rfl
        obtain rfl := Option.some.inj (hp.symm.trans hq)
        exact hm hm'
      exact ⟨q, e, by rwa [update_of_ne hne], hm'⟩
  · exact fun q e hq =>
      (h.linked q e (hother hq).2).congr fun i hi => hd i (hnot hq hi)

end Chains

/-- `A`, `D` and `U` are the heads in the avail ring, at the device and in the used ring. -/
structure Owners (info : Nat → Info B) (busy : B → Bool) (chain : P → Option Chain)
    (request : P → Option (Request B)) (told : P → Bool) (A D U : List Nat) : Prop where
  nodup : (A ++ (D ++ U)).Nodup
  owner : ∀ h ∈ A ++ (D ++ U), ∃ p c, chain p = some c ∧ told p = true ∧ c.i0 = h
  requested : ∀ p c, chain p = some c → ∃ r, request p = some r
  named : ∀ p r c, request p = some r → chain p = some c → (info c.i0).b = some r.b
  flag : ∀ p r c, request p = some r → chain p = some c →
    (busy r.b = true ↔ (told p = true → c.i0 ∈ A ++ (D ++ U)))
  status : ∀ h ∈ U, (info h).status = 0
  exclusive : ∀ p q r r', request p = some r → request q = some r' → r.b = r'.b → p = q

namespace Owners
variable {free : Nat → Bool} {desc : Nat → Desc} {info info' : Nat → Info B} {busy : B → Bool}
  {chain : P → Option Chain} {request : P → Option (Request B)} {told : P → Bool}
  {A D U : List Nat} (h : Owners info busy chain request told A D U) {p : P} {c : Chain} {i : Nat}
include h

theorem heads_lt (hc : Chains free desc chain) : ∀ i ∈ A ++ (D ++ U), i < NUM := by
  intro i hi
  obtain ⟨p, c, hp, -, rfl⟩ := h.owner i hi
  exact (hc.taken p c hp _ c.head_mem).1

theorem length_lt (hc : Chains free desc chain) (hi : i < NUM)
    (hnot : i ∉ A ++ (D ++ U)) : (A ++ (D ++ U)).length < NUM := by
  have hsub : i :: (A ++ (D ++ U)) ⊆ List.range NUM := by
    intro j hj
    rcases List.mem_cons.mp hj with rfl | hj
    · exact List.mem_range.mpr hi
    · exact List.mem_range.mpr (h.heads_lt hc j hj)
  have hle := ((List.nodup_cons.mpr ⟨hnot, h.nodup⟩).subperm hsub).length_le
  rwa [List.length_cons, List.length_range] at hle

/-- A head that is on its way is that of a request whose buffer is busy. -/
theorem request_of_head (hi : i ∈ A ++ (D ++ U)) :
    ∃ p r c, request p = some r ∧ chain p = some c ∧ told p = true ∧ c.i0 = i ∧
      (info i).b = some r.b ∧ busy r.b = true := by
  obtain ⟨p, c, hp, ht, rfl⟩ := h.owner i hi
  obtain ⟨r, hr⟩ := h.requested p c hp
  exact ⟨p, r, c, hr, hp, ht, rfl, h.named p r c hr hp, (h.flag p r c hr hp).mpr fun _ => hi⟩

theorem move {A' D' U' : List Nat} (hperm : (A ++ (D ++ U)).Perm (A' ++ (D' ++ U')))
    (hnamed : ∀ i, (info' i).b = (info i).b) (hstatus : ∀ i ∈ U', (info' i).status = 0) :
    Owners info' busy chain request told A' D' U' := by
  refine ⟨hperm.nodup_iff.mp h.nodup, fun i hi => h.owner i (hperm.mem_iff.mpr hi), h.requested,
    ?_, ?_, hstatus, h.exclusive⟩
  · intro p r c hr hp
    rw [hnamed]
    exact h.named p r c hr hp
  · intro p r c hr hp
    rw [h.flag p r c hr hp, hperm.mem_iff]

theorem consume [DecidableEq B] {b : B} {U' : List Nat} (hU : U = i :: U')
    (hb : (info i).b = some b) :
    Owners info (update busy b false) chain request told A D U' := by
  subst hU
  have hnd : (i :: (A ++ (D ++ U'))).Nodup := by
    refine List.Perm.nodup_iff ?_ |>.mp h.nodup
    rw [← List.append_assoc, ← List.append_assoc]
    exact List.perm_middle
  have hmem : ∀ j, j ∈ A ++ (D ++ i :: U') ↔ j = i ∨ j ∈ A ++ (D ++ U') := by
    intro j
    simp only [List.mem_append, List.mem_cons]
    tauto
  refine ⟨(List.nodup_cons.mp hnd).2, fun j hj => h.owner j ((hmem j).mpr (.inr hj)), h.requested,
    h.named, ?_, fun j hj => h.status j (List.mem_cons_of_mem i hj), h.exclusive⟩
  obtain ⟨q, r', e, hr', hq, htold, rfl, hname, -⟩ := h.request_of_head ((hmem i).mpr (.inl rfl))
  obtain rfl := Option.some.inj (hb.symm.trans hname)
  intro p r c hr hp
  by_cases hrb : r.b = r'.b
  · obtain rfl := h.exclusive p q r r' hr hr' hrb
    obtain rfl := Option.some.inj (hp.symm.trans hq)
    rw [hrb, update_self]
    constructor
    · intro hf
      cases hf
    · exact fun hm => absurd (hm htold) (List.nodup_cons.mp hnd).1
  · rw [update_of_ne hrb, h.flag p r c hr hp]
    constructor
    · intro hm ht
      rcases (hmem c.i0).mp (hm ht) with he | hm'
      · have hname' := h.named p r c hr hp
        rw [he, hname] at hname'
        exact absurd (Option.some.inj hname').symm hrb
      · exact hm'
    · exact fun hm ht => (hmem c.i0).mpr (.inr (hm ht))

variable [DecidableEq P]

theorem call {r : Request B} (hp : chain p = none)
    (hfresh : ∀ q r', request q = some r' → r'.b ≠ r.b) :
    Owners info busy chain (update request p (some r)) told A D U := by
  have hne : ∀ {q c}, chain q = some c → q ≠ p := by
    rintro q c hq rfl
    rw [hp] at hq
    cases hq
  refine ⟨h.nodup, h.owner, ?_, ?_, ?_, h.status, ?_⟩
  · intro q c hq
    rw [update_of_ne (hne hq)]
    exact h.requested q c hq
  · intro q r' c hr hq
    rw [update_of_ne (hne hq)] at hr
    exact h.named q r' c hr hq
  · intro q r' c hr hq
    rw [update_of_ne (hne hq)] at hr
    exact h.flag q r' c hr hq
  · intro q q' r₁ r₂ h₁ h₂ hb
    by_cases hq : q = p <;> by_cases hq' : q' = p
    · rw [hq, hq']
    · subst hq
      rw [update_self] at h₁
      rw [update_of_ne hq'] at h₂
      obtain rfl := Option.some.inj h₁
      exact absurd hb.symm (hfresh q' r₂ h₂)
    · subst hq'
      rw [update_self] at h₂
      rw [update_of_ne hq] at h₁
      obtain rfl := Option.some.inj h₂
      exact absurd hb (hfresh q r₁ h₁)
    · rw [update_of_ne hq] at h₁
      rw [update_of_ne hq'] at h₂
      exact h.exclusive q q' r₁ r₂ h₁ h₂ hb

theorem alloc [DecidableEq B] {r : Request B} {x : Info B}
    (hp : chain p = none) (hr : request p = some r) (ht : told p = false)
    (hnew : ∀ q e, chain q = some e → e.i0 ≠ c.i0) (hx : x.b = some r.b) :
    Owners (update info c.i0 x) (update busy r.b true)
      (update chain p (some c)) request told A D U := by
  have hne : ∀ {q e}, chain q = some e → q ≠ p := by
    rintro q c hq rfl
    rw [hp] at hq
    cases hq
  refine ⟨h.nodup, ?_, ?_, ?_, ?_, ?_, h.exclusive⟩
  · intro i hi
    obtain ⟨q, e, hq, htq, he⟩ := h.owner i hi
    exact ⟨q, e, by rwa [update_of_ne (hne hq)], htq, he⟩
  · intro q e hq
    by_cases hqp : q = p
    · subst hqp
      exact ⟨r, hr⟩
    · rw [update_of_ne hqp] at hq
      exact h.requested q e hq
  · intro q r' e hr' hq
    by_cases hqp : q = p
    · subst hqp
      rw [update_self] at hq
      obtain rfl := Option.some.inj hq
      obtain rfl := Option.some.inj (hr.symm.trans hr')
      rwa [update_self]
    · rw [update_of_ne hqp] at hq
      rw [update_of_ne (hnew q e hq)]
      exact h.named q r' e hr' hq
  · intro q r' e hr' hq
    by_cases hqp : q = p
    · subst hqp
      obtain rfl := Option.some.inj (hr.symm.trans hr')
      rw [update_self]
      exact ⟨fun _ htrue => absurd (ht.symm.trans htrue) Bool.false_ne_true, fun _ => rfl⟩
    · rw [update_of_ne hqp] at hq
      have hrb : r'.b ≠ r.b := fun he => hqp (h.exclusive q p r' r hr' hr he)
      rw [update_of_ne hrb]
      exact h.flag q r' e hr' hq
  · intro i hi
    have hm : i ∈ A ++ (D ++ U) := List.mem_append_right _ (List.mem_append_right _ hi)
    obtain ⟨q, e, hq, -, rfl⟩ := h.owner i hm
    rw [update_of_ne (hnew q e hq)]
    exact h.status _ hi

theorem tell (hp : chain p = some c) (hnot : c.i0 ∉ A ++ (D ++ U))
    (ht : told p = false) (hinj : ∀ q e, chain q = some e → e.i0 = c.i0 → q = p) :
    Owners info busy chain request (update told p true) (A ++ [c.i0]) D U := by
  have hmem : ∀ j, j ∈ A ++ [c.i0] ++ (D ++ U) ↔ j = c.i0 ∨ j ∈ A ++ (D ++ U) := by
    intro j
    simp only [List.mem_append, List.mem_cons, List.not_mem_nil, or_false]
    tauto
  have htold : ∀ {q}, told q = true → q ≠ p := by
    rintro q hq rfl
    rw [ht] at hq
    cases hq
  refine ⟨?_, ?_, h.requested, h.named, ?_, h.status, h.exclusive⟩
  · rw [List.append_assoc, List.singleton_append, List.nodup_middle]
    exact List.nodup_cons.mpr ⟨hnot, h.nodup⟩
  · intro i hi
    rcases (hmem i).mp hi with rfl | hi
    · exact ⟨p, c, hp, update_self .., rfl⟩
    · obtain ⟨q, e, hq, htq, he⟩ := h.owner i hi
      exact ⟨q, e, hq, by rwa [update_of_ne (htold htq)], he⟩
  · intro q r e hr hq
    rw [h.flag q r e hr hq, hmem]
    by_cases hqp : q = p
    · subst hqp
      obtain rfl := Option.some.inj (hp.symm.trans hq)
      exact ⟨fun _ _ => .inl rfl, fun _ htrue => absurd rfl (htold htrue)⟩
    · rw [update_of_ne hqp]
      constructor
      · exact fun hm htq => .inr (hm htq)
      · intro hm htq
        rcases hm htq with he | hm
        · exact absurd (hinj q e hq he) hqp
        · exact hm

theorem release {x : Info B} (hp : chain p = some c)
    (hnot : c.i0 ∉ A ++ (D ++ U)) (hinj : ∀ q e, chain q = some e → e.i0 = c.i0 → q = p) :
    Owners (update info c.i0 x) busy (update chain p none)
      (update request p none) (update told p false) A D U := by
  have hother : ∀ {q e}, update chain p none q = some e → q ≠ p ∧ chain q = some e := by
    intro q e hq
    by_cases hne : q = p
    · subst hne
      rw [update_self] at hq
      cases hq
    · rw [update_of_ne hne] at hq
      exact ⟨hne, hq⟩
  have hreq : ∀ {q r}, update request p none q = some r → request q = some r := by
    intro q r hq
    by_cases hne : q = p
    · subst hne
      rw [update_self] at hq
      cases hq
    · rwa [update_of_ne hne] at hq
  refine ⟨h.nodup, ?_, ?_, ?_, ?_, ?_, ?_⟩
  · intro i hi
    obtain ⟨q, e, hq, htq, he⟩ := h.owner i hi
    have hqp : q ≠ p := by
      rintro rfl
      obtain rfl := Option.some.inj (hp.symm.trans hq)
      exact hnot (he ▸ hi)
    exact ⟨q, e, by rwa [update_of_ne hqp], by rwa [update_of_ne hqp], he⟩
  · intro q e hq
    obtain ⟨hqp, hq⟩ := hother hq
    rw [update_of_ne hqp]
    exact h.requested q e hq
  · intro q r e hr hq
    obtain ⟨hqp, hq⟩ := hother hq
    rw [update_of_ne fun he => hqp (hinj q e hq he)]
    exact h.named q r e (hreq hr) hq
  · intro q r e hr hq
    obtain ⟨hqp, hq⟩ := hother hq
    rw [update_of_ne hqp]
    exact h.flag q r e (hreq hr) hq
  · intro i hi
    have hm : i ∈ A ++ (D ++ U) := List.mem_append_right _ (List.mem_append_right _ hi)
    have hne : i ≠ c.i0 := by
      rintro rfl
      exact hnot hm
    rw [update_of_ne hne]
    exact h.status i hi
  · exact fun q q' r r' hr hr' => h.exclusive q q' r r' (hreq hr) (hreq hr')

end Owners

end Xv6.Virtio
