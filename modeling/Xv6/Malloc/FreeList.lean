import Mathlib.Data.List.Perm.Basic
import Mathlib.Data.List.TakeWhile
import Mathlib.Order.Interval.Set.LinearOrder
import Xv6.Foundation.Circular
import Xv6.Foundation.Fuel
import Xv6.Malloc.Model

/-!
# The free list

The blocks in the list of `freep` lie in the order of their addresses behind `base`, with a gap
between any two. `free` finds the place of its block from wherever it starts, and closes the gaps
that its block fills.
-/

namespace Xv6.Malloc

open Xv6.Foundation

set_option autoImplicit false

/-- Sizes up to this address fit into a `uint`. -/
def LIMIT : Nat := UNIT * 2 ^ 32

def units (h : Heap) (l : List Nat) : Set Nat := {x | ∃ a ∈ l, a ≤ x ∧ x < h.stop a}

structure FreeList (base : Nat) (h : Heap) (l : List Nat) : Prop where
  ring : Circular (h.next · = ·) base l
  gap : (base :: l).Pairwise (h.stop · < ·)
  base_size : (h.hdr base).size = 0
  pos : ∀ a ∈ l, 0 < (h.hdr a).size
  below : ∀ a ∈ l, h.stop a ≤ LIMIT
  freep : h.freep ∈ base :: l

structure Place (base : Nat) (h : Heap) (l : List Nat) (bp : Nat) : Prop where
  above : base < bp
  pos : 0 < (h.hdr bp).size
  below : h.stop bp ≤ LIMIT
  apart : ∀ a ∈ l, h.stop a ≤ bp ∨ h.stop bp ≤ a

variable {base bp p : Nat} {h h' : Heap} {l w v : List Nat}

theorem Heap.le_stop (h : Heap) (a : Nat) : a ≤ h.stop a := Nat.le_add_right _ _

theorem Heap.lt_stop {a : Nat} (ha : 0 < (h.hdr a).size) : a < h.stop a := by
  unfold Heap.stop UNIT
  omega

theorem Place.not_mem (hb : Place base h l bp) : bp ∉ l := fun hm => by
  have := Heap.lt_stop hb.pos
  have := hb.apart bp hm
  omega

theorem units_nil (h : Heap) : units h [] = ∅ := by
  ext x
  simp [units]

theorem units_append (h : Heap) (l l' : List Nat) : units h (l ++ l') = units h l ∪ units h l' := by
  ext x
  simp [units, or_and_right, exists_or]

theorem units_cons (h : Heap) (a : Nat) (l : List Nat) :
    units h (a :: l) = Set.Ico a (h.stop a) ∪ units h l := by
  ext x
  simp [units]

theorem units_insert (h : Heap) (w : List Nat) (p bp : Nat) (v : List Nat) :
    units h (w ++ p :: bp :: v) = units h (w ++ p :: v) ∪ Set.Ico bp (h.stop bp) := by
  simp only [units_append, units_cons]
  ext x
  simp only [Set.mem_union]
  tauto

theorem units_congr (heq : ∀ a ∈ l, h'.stop a = h.stop a) : units h' l = units h l := by
  ext x
  constructor
  · rintro ⟨a, ha, hx⟩
    exact ⟨a, ha, by rwa [← heq a ha]⟩
  · rintro ⟨a, ha, hx⟩
    exact ⟨a, ha, by rwa [heq a ha]⟩

namespace FreeList
variable (hf : FreeList base h l)
include hf

theorem stop_base : h.stop base = base := by
  rw [Heap.stop, hf.base_size, Nat.mul_zero, Nat.add_zero]

theorem sorted : (base :: l).Pairwise (· < ·) :=
  hf.gap.imp fun hab => (h.le_stop _).trans_lt hab

theorem nodup : (base :: l).Nodup := hf.sorted.imp fun hab => hab.ne

theorem base_le {a : Nat} (ha : a ∈ base :: l) : base ≤ a := by
  rcases List.mem_cons.mp ha with rfl | ha
  · exact le_rfl
  · exact (List.rel_of_pairwise_cons hf.sorted ha).le

theorem size_lt {a : Nat} (ha : a ∈ l) : (h.hdr a).size < 2 ^ 32 := by
  have hbelow := hf.below a ha
  have hlt := List.rel_of_pairwise_cons hf.sorted ha
  unfold Heap.stop LIMIT UNIT at hbelow
  omega

theorem next_cases {a : Nat} (ha : a ∈ base :: l) :
    h.next a = base ∨ (h.stop a < h.next a ∧ h.next a ∈ l) := by
  obtain ⟨w, r, hl⟩ := List.append_of_mem ha
  have hnext := hf.ring.next_eq hl
  cases r with
  | nil => exact .inl hnext
  | cons b r =>
    have hb : h.next a = b := hnext
    have hgap := hf.gap
    rw [hl, List.pairwise_append] at hgap
    have hab := List.rel_of_pairwise_cons hgap.2.1 (List.mem_cons_self (a := b))
    have hmem : b ∈ base :: l := by
      rw [hl]
      simp
    rw [hb]
    refine .inr ⟨hab, (List.mem_cons.mp hmem).resolve_left fun he => ?_⟩
    have := hf.base_le ha
    have := h.le_stop a
    omega

theorem exists_cut (hlt : base < bp) (hnot : bp ∉ l) :
    ∃ w p v, base :: l = w ++ p :: v ∧ (∀ a ∈ w ++ [p], a < bp) ∧ ∀ a ∈ v, bp < a := by
  set u := (base :: l).takeWhile (· < bp) with hu
  set v := (base :: l).dropWhile (· < bp) with hv
  have happ : base :: l = u ++ v := (List.takeWhile_append_dropWhile ..).symm
  have hne : u ≠ [] := by
    rw [hu, List.takeWhile_cons_of_pos (by simpa using hlt)]
    exact List.cons_ne_nil _ _
  refine ⟨u.dropLast, u.getLast hne, v, ?_, fun a ha => ?_, fun a ha => ?_⟩
  · rw [happ, List.append_cons, List.dropLast_append_getLast]
  · rw [List.dropLast_append_getLast] at ha
    simpa using List.mem_takeWhile_imp ha
  · obtain ⟨c, v', hcv⟩ : ∃ c v', v = c :: v' := List.exists_cons_of_ne_nil (List.ne_nil_of_mem ha)
    have hfirst : ¬ c < bp := by
      have := List.head_dropWhile_not (· < bp) (l := base :: l)
        (by rw [← hv, hcv]; exact List.cons_ne_nil _ _)
      simpa [← hv, hcv] using this
    have hsorted := hf.sorted
    rw [happ, hcv, List.pairwise_append] at hsorted
    have hc : bp < c := by
      refine lt_of_le_of_ne (Nat.le_of_not_lt hfirst) fun he => ?_
      have hmem : bp ∈ base :: l := by
        rw [happ, hcv, ← he]
        simp
      exact hnot ((List.mem_cons.mp hmem).resolve_left hlt.ne')
    rw [hcv] at ha
    rcases List.mem_cons.mp ha with rfl | ha
    · exact hc
    · exact hc.trans (List.rel_of_pairwise_cons hsorted.2.1 ha)

theorem stop_le_of_lt (hb : Place base h l bp) {a : Nat} (ha : a ∈ base :: l) (hlt : a < bp) :
    h.stop a ≤ bp := by
  rcases List.mem_cons.mp ha with rfl | ha
  · rw [hf.stop_base]
    exact hlt.le
  · have := Heap.lt_stop hb.pos
    have := hb.apart a ha
    omega

theorem stop_le_of_gt (hb : Place base h l bp) {a : Nat} (ha : a ∈ base :: l) (hlt : bp < a) :
    h.stop bp ≤ a := by
  have := hf.base_le ha
  have := hb.above
  have := hb.apart a ((List.mem_cons.mp ha).resolve_left (by omega))
  have := h.le_stop a
  omega

end FreeList

/-! ## The search of `free` -/

theorem search_chain {u : List Nat} (hchain : (u ++ [p]).IsChain (h.next · = ·))
    (hno : ∀ a ∈ u, ¬ Stops h bp a) (hyes : Stops h bp p) :
    Settles (search h bp · ((u ++ [p]).head (by simp))) p := by
  induction u with
  | nil =>
    exact .call (g := fun _ => some p) (.of_eq fun _ => rfl) fun k => if_pos hyes
  | cons a u ih =>
    obtain ⟨hnext, hrest⟩ := List.isChain_cons.mp hchain
    have hhead : h.next a = (u ++ [p]).head (by simp) := hnext _ (List.head?_eq_some_head _)
    refine .call (ih hrest fun c hc => hno c (List.mem_cons_of_mem a hc)) fun k => ?_
    rw [← hhead]
    exact if_neg (hno a List.mem_cons_self)

section
variable (hf : FreeList base h l) (hb : base < bp) (hcut : base :: l = w ++ p :: v)
  (hw : ∀ a ∈ w ++ [p], a < bp) (hv : ∀ a ∈ v, bp < a)
include hf hb hcut hw hv

omit hb in
theorem stops_at : Stops h bp p := by
  have hp : p ∈ base :: l := by
    rw [hcut]
    simp
  have hlt := hw p (by simp)
  have hnext := hf.ring.next_eq hcut
  cases v with
  | nil =>
    have hbase : h.next p = base := hnext
    refine .inr ⟨?_, .inl hlt⟩
    rw [hbase]
    exact hf.base_le hp
  | cons c v =>
    have hc : h.next p = c := hnext
    refine .inl ⟨hlt, ?_⟩
    rw [hc]
    exact hv c List.mem_cons_self

theorem stops_only {a : Nat} (ha : a ∈ base :: l) (hne : a ≠ p) : ¬ Stops h bp a := by
  have hle := h.le_stop a
  have hmem := ha
  rw [hcut, List.mem_append, List.mem_cons] at hmem
  unfold Stops
  rcases hmem with hmem | rfl | hmem
  · -- before `p`, the next block is still below `bp`
    obtain ⟨w₁, w₂, rfl⟩ := List.append_of_mem hmem
    have hcut' : base :: l = w₁ ++ a :: (w₂ ++ p :: v) := by simpa using hcut
    have hin : h.next a ∈ w₂ ++ [p] := by
      rw [hf.ring.next_eq hcut']
      cases w₂ <;> simp
    have hsub : h.next a ∈ w₁ ++ a :: w₂ ++ [p] ∧ h.next a ∈ w₂ ++ p :: v := by
      rcases List.mem_append.mp hin with h1 | h1
      · simp [h1]
      · simp [List.mem_singleton.mp h1]
    have hsorted := hf.sorted
    rw [hcut', List.pairwise_append] at hsorted
    have hlt := List.rel_of_pairwise_cons hsorted.2.1 hsub.2
    have hbelow := hw _ hsub.1
    omega
  · exact absurd rfl hne
  · -- behind `p`, all blocks are above `bp`
    have habove := hv a hmem
    rcases hf.next_cases ha with hbase | ⟨hlt, -⟩
    · rw [hbase]
      omega
    · omega

/-- From wherever it starts, the loop of `free` ends at the block before `bp`. -/
theorem search_settles : Settles (search h bp · h.freep) p := by
  obtain ⟨t, ht, hperm⟩ := hf.ring.from_mem hf.freep
  have hp : p ∈ h.freep :: t := by
    rw [hperm.mem_iff, hcut]
    simp
  obtain ⟨u, r, hu⟩ := List.append_of_mem hp
  have hnodup := hperm.nodup_iff.mpr hf.nodup
  rw [hu, List.nodup_append] at hnodup
  have hno : ∀ a ∈ u, ¬ Stops h bp a := by
    intro a ha
    refine stops_only hf hb hcut hw hv (hperm.mem_iff.mp ?_) (hnodup.2.2 a ha p List.mem_cons_self)
    rw [hu]
    exact List.mem_append_left _ ha
  have hstart : h.freep = (u ++ [p]).head (by simp) := by
    cases u with
    | nil => exact (List.cons.inj hu).1
    | cons a u => exact (List.cons.inj hu).1
  rw [hstart]
  exact search_chain ((circular_split hu).mp ht).1 hno (stops_at hf hcut hw hv)

end

/-! ## Joining blocks -/

@[simp] theorem Heap.setPtr_hdr_self (h : Heap) (a q : Nat) :
    (h.setPtr a q).hdr a = { h.hdr a with ptr := q } := Function.update_self ..

@[simp] theorem Heap.setSize_hdr_self (h : Heap) (a n : Nat) :
    (h.setSize a n).hdr a = { h.hdr a with size := n % 2 ^ 32 } := Function.update_self ..

theorem Heap.setPtr_hdr_of_ne (h : Heap) {a b : Nat} (q : Nat) (hb : b ≠ a) :
    (h.setPtr a q).hdr b = h.hdr b := Function.update_of_ne hb ..

theorem Heap.setSize_hdr_of_ne (h : Heap) {a b : Nat} (n : Nat) (hb : b ≠ a) :
    (h.setSize a n).hdr b = h.hdr b := Function.update_of_ne hb ..

def AgreeOff (x : Nat) (h h' : Heap) : Prop := ∀ a, a ≠ x → h'.hdr a = h.hdr a

section
variable {x : Nat} (hag : AgreeOff x h h') {m : List Nat}
include hag

theorem AgreeOff.stop_eq {a : Nat} (ha : a ≠ x) : h'.stop a = h.stop a := by
  rw [Heap.stop, Heap.stop, hag a ha]

theorem AgreeOff.next_eq {a : Nat} (ha : a ≠ x) : h'.next a = h.next a := by
  rw [Heap.next, Heap.next, hag a ha]

theorem AgreeOff.pairwise (hx : x ∉ m) (hm : m.Pairwise (h.stop · < ·)) :
    m.Pairwise (h'.stop · < ·) := by
  refine hm.imp_of_mem fun ha _ hab => ?_
  rwa [hag.stop_eq fun he => hx (he ▸ ha)]

theorem AgreeOff.units_eq (hx : x ∉ m) : units h' m = units h m :=
  units_congr fun _ ha => hag.stop_eq fun he => hx (he ▸ ha)

theorem AgreeOff.chain {z : Nat} (hx : x ∉ m)
    (hm : (m ++ [z]).IsChain (h.next · = ·)) : (m ++ [z]).IsChain (h'.next · = ·) :=
  chain_congr hm fun _ ha => hag.next_eq fun he => hx (he ▸ ha)

end

/-- `bp` with the list behind it, when the links and sizes from `bp` on are right. -/
structure Tail (base : Nat) (h : Heap) (bp : Nat) (v : List Nat) : Prop where
  chain : (bp :: (v ++ [base])).IsChain (h.next · = ·)
  gap : (bp :: v).Pairwise (h.stop · < ·)

theorem Tail.setFreep (q : Nat) (ht : Tail base h bp v) : Tail base (h.setFreep q) bp v :=
  ⟨ht.chain, ht.gap⟩

theorem Tail.of_agree {m : List Nat} (hag : AgreeOff bp h h') (hbp : bp ∉ m)
    (hchain : (m ++ [base]).IsChain (h.next · = ·)) (hgap : m.Pairwise (h.stop · < ·))
    (hnext : h'.next bp = (m ++ [base]).head (by simp)) (hstop : ∀ a ∈ m, h'.stop bp < a) :
    Tail base h' bp m := by
  constructor
  · rw [List.isChain_cons]
    refine ⟨fun y hy => ?_, hag.chain hbp hchain⟩
    rw [List.head?_eq_some_head (by simp)] at hy
    exact hnext.trans (Option.some.inj hy)
  · exact List.pairwise_cons.mpr ⟨hstop, hag.pairwise hbp hgap⟩

theorem joinNext_spec (hf : FreeList base h l) (hb : Place base h l bp)
    (hcut : base :: l = w ++ p :: v) (hw : ∀ a ∈ w ++ [p], a < bp) (hv : ∀ a ∈ v, bp < a) :
    ∃ v', v' <:+ v ∧ AgreeOff bp h (joinNext h bp p) ∧ (joinNext h bp p).freep = h.freep ∧
      Tail base (joinNext h bp p) bp v' ∧
      (h.hdr bp).size ≤ ((joinNext h bp p).hdr bp).size ∧ (joinNext h bp p).stop bp ≤ LIMIT ∧
      units (joinNext h bp p) (bp :: v') = units h (bp :: v) := by
  have hlt := Heap.lt_stop hb.pos
  have habove := hb.above
  have hnext := hf.ring.next_eq hcut
  have hbv : bp ∉ v := fun hm => lt_irrefl _ (hv bp hm)
  have hp : bp ≠ p := (hw p (by simp)).ne'
  have hbstop : ∀ a ∈ v, h.stop bp ≤ a := fun a ha =>
    hf.stop_le_of_gt hb (by rw [hcut]; simp [ha]) (hv a ha)
  have hchain : (v ++ [base]).IsChain (h.next · = ·) :=
    (List.isChain_cons.mp ((circular_split hcut).mp hf.ring).2).2
  have hgap : v.Pairwise (h.stop · < ·) := by
    have := hf.gap
    rw [hcut, List.pairwise_append] at this
    exact this.2.1.of_cons
  by_cases hjoin : h.stop bp = h.next p
  · cases v with
    | nil =>
      have hbase : h.next p = base := hnext
      omega
    | cons c v =>
      have hc : h.next p = c := hnext
      rw [hc] at hjoin
      have hcl : c ∈ l := by
        have hmem : c ∈ base :: l := by
          rw [hcut]
          simp
        exact (List.mem_cons.mp hmem).resolve_left (by omega)
      have hcbp : c ≠ bp := by omega
      have hbelow := hf.below c hcl
      have hlink : joinNext h bp p = (h.setSize bp ((h.hdr bp).size + (h.hdr c).size)).setPtr bp
          (h.next c) := by
        rw [joinNext, if_pos (by rw [hc, hjoin])]
        simp only [Heap.next, h.setSize_hdr_of_ne _ hp.symm]
        rw [← Heap.next, hc, h.setSize_hdr_of_ne _ hcbp]
      have hag : AgreeOff bp h (joinNext h bp p) := fun a ha => by
        rw [hlink, Heap.setPtr_hdr_of_ne _ _ ha, h.setSize_hdr_of_ne _ ha]
      have hsize : ((joinNext h bp p).hdr bp).size = (h.hdr bp).size + (h.hdr c).size := by
        rw [hlink, Heap.setPtr_hdr_self, Heap.setSize_hdr_self]
        refine Nat.mod_eq_of_lt ?_
        unfold Heap.stop LIMIT UNIT at *
        omega
      have hstop : (joinNext h bp p).stop bp = h.stop c := by
        rw [Heap.stop, hsize]
        unfold Heap.stop UNIT at *
        omega
      obtain ⟨hcv, hgap'⟩ := List.pairwise_cons.mp hgap
      refine ⟨v, List.suffix_cons c v, hag, by rw [hlink]; rfl,
        .of_agree hag (fun hm => hbv (List.mem_cons_of_mem c hm)) (List.isChain_cons.mp hchain).2
          hgap' ?_ ?_, ?_, ?_, ?_⟩
      · rw [hlink, Heap.next, Heap.setPtr_hdr_self]
        exact (List.isChain_cons.mp hchain).1 _ (List.head?_eq_some_head _)
      · intro a ha
        rw [hstop]
        exact hcv a ha
      · omega
      · omega
      · rw [units_cons, units_cons, units_cons, hstop, hag.units_eq fun hm =>
          hbv (List.mem_cons_of_mem c hm), ← Set.union_assoc, ← hjoin,
          Set.Ico_union_Ico_eq_Ico hlt.le]
        rw [hjoin]
        exact h.le_stop c
  · have heq : joinNext h bp p = h.setPtr bp (h.next p) := if_neg hjoin
    have hag : AgreeOff bp h (joinNext h bp p) := fun a ha => by
      rw [heq]
      exact h.setPtr_hdr_of_ne _ ha
    have hsize : ((joinNext h bp p).hdr bp).size = (h.hdr bp).size := by
      rw [heq, Heap.setPtr_hdr_self]
    have hstop : (joinNext h bp p).stop bp = h.stop bp := by
      rw [Heap.stop, hsize, Heap.stop]
    refine ⟨v, List.suffix_rfl, hag, by rw [heq]; rfl, .of_agree hag hbv hchain hgap ?_ ?_, hsize.ge,
      by rw [hstop]; exact hb.below, ?_⟩
    · rw [heq, Heap.next, Heap.setPtr_hdr_self]
      exact hnext
    · intro a ha
      rw [hstop]
      cases v with
      | nil => cases ha
      | cons c v =>
        have hc : h.next p = c := hnext
        have hbc := hbstop c List.mem_cons_self
        rcases List.mem_cons.mp ha with rfl | ha
        · omega
        · have := List.rel_of_pairwise_cons hgap ha
          have := h.le_stop c
          omega
    · rw [units_cons, units_cons, hstop, hag.units_eq hbv]

theorem FreeList.of_cut {r : List Nat} (hf : FreeList base h l) (hcut : base :: l = w ++ p :: v)
    (hag : ∀ a ∈ w, h'.hdr a = h.hdr a) (htail : Tail base h' p r)
    (hbase : p = base → (h'.hdr p).size = 0)
    (hsize : p ≠ base → 0 < (h'.hdr p).size ∧ h'.stop p ≤ LIMIT)
    (hr : ∀ a ∈ r, 0 < (h'.hdr a).size ∧ h'.stop a ≤ LIMIT) (hfreep : h'.freep ∈ w ++ p :: r) :
    ∃ l', base :: l' = w ++ p :: r ∧ FreeList base h' l' := by
  have hold := hf.gap
  rw [hcut, List.pairwise_append] at hold
  obtain ⟨hgapw, -, hwp⟩ := hold
  have hstop : ∀ a ∈ w, h'.stop a = h.stop a := fun a ha => by rw [Heap.stop, Heap.stop, hag a ha]
  obtain ⟨l', hl'⟩ : ∃ l', base :: l' = w ++ p :: r := by
    cases w with
    | nil => exact ⟨r, by rw [(List.cons.inj hcut).1]; rfl⟩
    | cons a w => exact ⟨w ++ p :: r, by rw [(List.cons.inj hcut).1]; rfl⟩
  have hple : ∀ b ∈ p :: r, p ≤ b := by
    intro b hb
    rcases List.mem_cons.mp hb with rfl | hb
    · exact le_rfl
    · exact (h'.le_stop p).trans (List.rel_of_pairwise_cons htail.gap hb).le
  have hgap : (base :: l').Pairwise (h'.stop · < ·) := by
    rw [hl', List.pairwise_append]
    refine ⟨hgapw.imp_of_mem fun ha _ hab => by rwa [hstop _ ha], htail.gap, fun a ha b hb => ?_⟩
    rw [hstop a ha]
    exact (hwp a ha p List.mem_cons_self).trans_le (hple b hb)
  have hmem : ∀ a ∈ l', a ≠ base ∧ a ∈ w ++ p :: r := by
    intro a ha
    refine ⟨fun he => ?_, hl' ▸ List.mem_cons_of_mem base ha⟩
    have := List.rel_of_pairwise_cons hgap ha
    have := h'.le_stop base
    omega
  have hblock : ∀ a ∈ l', 0 < (h'.hdr a).size ∧ h'.stop a ≤ LIMIT := by
    intro a ha
    obtain ⟨hne, hin⟩ := hmem a ha
    rcases List.mem_append.mp hin with haw | hpr
    · have hal : a ∈ l := by
        have : a ∈ base :: l := hcut ▸ List.mem_append_left _ haw
        exact (List.mem_cons.mp this).resolve_left hne
      rw [hstop a haw, hag a haw]
      exact ⟨hf.pos a hal, hf.below a hal⟩
    · rcases List.mem_cons.mp hpr with rfl | hpr
      · exact hsize hne
      · exact hr a hpr
  refine ⟨l', hl', ?_, hgap, ?_, fun a ha => (hblock a ha).1, fun a ha => (hblock a ha).2, ?_⟩
  · rw [circular_split hl']
    refine ⟨chain_congr ((circular_split hcut).mp hf.ring).1 fun a ha => ?_, htail.chain⟩
    rw [Heap.next, Heap.next, hag a ha]
  · cases w with
    | nil =>
      obtain rfl : base = p := (List.cons.inj hcut).1
      exact hbase rfl
    | cons a w =>
      obtain rfl : base = a := (List.cons.inj hcut).1
      rw [hag base List.mem_cons_self]
      exact hf.base_size
  · rw [hl']
    exact hfreep

theorem joinPrev_of_eq (hj : h.stop p = bp) (hne : bp ≠ p) :
    joinPrev h bp p = (h.setSize p ((h.hdr p).size + (h.hdr bp).size)).setPtr p (h.next bp) := by
  rw [joinPrev, if_pos hj]
  simp only [Heap.next, h.setSize_hdr_of_ne _ hne]

theorem joinPrev_spec (htail : Tail base h bp v) (hpos : 0 < (h.hdr bp).size)
    (hlim : h.stop bp ≤ LIMIT) (hlt : p < bp) (hle : h.stop p ≤ bp) (hp : h.stop p = bp → 0 < p) :
    ∃ r, (r = v ∧ h.stop p = bp ∨ r = bp :: v ∧ h.stop p ≠ bp) ∧ AgreeOff p h (joinPrev h bp p) ∧
      Tail base (joinPrev h bp p) p r ∧ (h.hdr p).size ≤ ((joinPrev h bp p).hdr p).size ∧
      (h.stop p = bp → (joinPrev h bp p).stop p = h.stop bp) ∧
      (h.stop p ≠ bp → (joinPrev h bp p).stop p = h.stop p) ∧
      units (joinPrev h bp p) (p :: r) = units h (p :: bp :: v) := by
  have hbv : ∀ a ∈ v, bp < a := fun a ha =>
    (h.le_stop bp).trans_lt (List.rel_of_pairwise_cons htail.gap ha)
  have hpv : p ∉ v := fun hm => by
    have := hbv p hm
    omega
  by_cases hj : h.stop p = bp
  · have hp0 := hp hj
    have heq := joinPrev_of_eq hj (by omega : bp ≠ p)
    have hag : AgreeOff p h (joinPrev h bp p) := fun a ha => by
      rw [heq, Heap.setPtr_hdr_of_ne _ _ ha, h.setSize_hdr_of_ne _ ha]
    have hsize : ((joinPrev h bp p).hdr p).size = (h.hdr p).size + (h.hdr bp).size := by
      rw [heq, Heap.setPtr_hdr_self, Heap.setSize_hdr_self]
      refine Nat.mod_eq_of_lt ?_
      unfold Heap.stop LIMIT UNIT at *
      omega
    have hstop : (joinPrev h bp p).stop p = h.stop bp := by
      rw [Heap.stop, hsize]
      unfold Heap.stop UNIT at *
      omega
    obtain ⟨hnext, hchain⟩ := List.isChain_cons.mp htail.chain
    refine ⟨v, .inl ⟨rfl, hj⟩, hag, .of_agree hag hpv hchain htail.gap.of_cons ?_ fun a ha => ?_,
      by omega, fun _ => hstop, fun hne => absurd hj hne, ?_⟩
    · rw [heq, Heap.next, Heap.setPtr_hdr_self]
      exact hnext _ (List.head?_eq_some_head _)
    · rw [hstop]
      exact List.rel_of_pairwise_cons htail.gap ha
    · rw [units_cons, units_cons, units_cons, hstop, hag.units_eq hpv, ← Set.union_assoc, hj,
        Set.Ico_union_Ico_eq_Ico hlt.le (h.le_stop bp)]
  · have heq : joinPrev h bp p = h.setPtr p bp := if_neg hj
    have hag : AgreeOff p h (joinPrev h bp p) := fun a ha => by
      rw [heq, h.setPtr_hdr_of_ne _ ha]
    have hpbv : p ∉ bp :: v := List.not_mem_cons_of_ne_of_not_mem hlt.ne hpv
    have hsize : ((joinPrev h bp p).hdr p).size = (h.hdr p).size := by
      rw [heq, Heap.setPtr_hdr_self]
    have hstop : (joinPrev h bp p).stop p = h.stop p := by
      rw [Heap.stop, hsize, Heap.stop]
    refine ⟨bp :: v, .inr ⟨rfl, hj⟩, hag, .of_agree hag hpbv htail.chain htail.gap ?_ fun a ha => ?_,
      hsize.ge, fun hj' => absurd hj' hj, fun _ => hstop, ?_⟩
    · rw [heq, Heap.next, Heap.setPtr_hdr_self]
      rfl
    · rw [hstop]
      rcases List.mem_cons.mp ha with rfl | ha
      · omega
      · have := hbv a ha
        omega
    · rw [units_cons, hstop, hag.units_eq hpbv, units_cons h p]

theorem free_tail (hf : FreeList base h l) (hb : Place base h l bp)
    (hcut : base :: l = w ++ p :: v) (hw : ∀ a ∈ w ++ [p], a < bp) (hv : ∀ a ∈ v, bp < a) :
    ∃ r h₂, joinPrev (joinNext h bp p) bp p = h₂ ∧ Tail base h₂ p r ∧
      (∀ a, a ≠ bp → a ≠ p → h₂.hdr a = h.hdr a) ∧
      (∀ a ∈ r, (a ∈ l ∨ a = bp) ∧ 0 < (h₂.hdr a).size ∧ h₂.stop a ≤ LIMIT) ∧
      (p = base → (h₂.hdr p).size = 0 ∧ bp ∈ r) ∧
      (p ≠ base → 0 < (h₂.hdr p).size ∧ h₂.stop p ≤ LIMIT) ∧
      units h₂ (p :: r) = units h (p :: bp :: v) ∧
      ((h.hdr bp).size ≤ (h₂.hdr p).size ∨ bp ∈ r ∧ (h.hdr bp).size ≤ (h₂.hdr bp).size) := by
  have hpl : p ∈ base :: l := by
    rw [hcut]
    simp
  have hpb := hw p (by simp)
  have habove := hb.above
  obtain ⟨v', hsuf, hag₁, -, htail₁, hsize₁, hlim₁, hunits₁⟩ := joinNext_spec hf hb hcut hw hv
  set h₁ := joinNext h bp p
  have hstopp : h₁.stop p = h.stop p := hag₁.stop_eq hpb.ne
  have hpbase : h₁.stop p = bp → base < p := by
    intro hj
    refine lt_of_le_of_ne (hf.base_le hpl) fun he => ?_
    rw [hstopp, ← he, hf.stop_base] at hj
    omega
  have hold : ∀ a ∈ v', bp < a ∧ a ∈ l := by
    intro a ha
    have hba := hv a (hsuf.subset ha)
    have hmem : a ∈ base :: l := by
      rw [hcut]
      simp [hsuf.subset ha]
    exact ⟨hba, (List.mem_cons.mp hmem).resolve_left (by omega)⟩
  have hunits : units h₁ (p :: bp :: v') = units h (p :: bp :: v) := by
    rw [units_cons, hunits₁, hstopp, ← units_cons]
  obtain ⟨r, hr, hag₂, htail₂, hsize₂, hjoined, hlinked, hunits₂⟩ := joinPrev_spec htail₁
    (hb.pos.trans_le hsize₁) hlim₁ hpb (hstopp.trans_le (hf.stop_le_of_lt hb hpl hpb))
    fun hj => Nat.zero_lt_of_lt (hpbase hj)
  have hag : ∀ a, a ≠ bp → a ≠ p → (joinPrev h₁ bp p).hdr a = h.hdr a := fun a h1 h2 => by
    rw [hag₂ a h2, hag₁ a h1]
  refine ⟨r, joinPrev h₁ bp p, rfl, htail₂, hag, ?_, ?_, ?_, hunits₂.trans hunits, ?_⟩
  · have hin : ∀ a ∈ v', (a ∈ l ∨ a = bp) ∧ 0 < ((joinPrev h₁ bp p).hdr a).size ∧
        (joinPrev h₁ bp p).stop a ≤ LIMIT := by
      intro a ha
      obtain ⟨hba, hal⟩ := hold a ha
      rw [Heap.stop, hag a hba.ne' (by omega), ← Heap.stop]
      exact ⟨.inl hal, hf.pos a hal, hf.below a hal⟩
    intro a ha
    rcases hr with ⟨rfl, -⟩ | ⟨rfl, -⟩
    · exact hin a ha
    · rcases List.mem_cons.mp ha with rfl | ha
      · rw [Heap.stop, hag₂ a hpb.ne', ← Heap.stop]
        exact ⟨.inr rfl, hb.pos.trans_le hsize₁, hlim₁⟩
      · exact hin a ha
  · intro he
    have hj : h₁.stop p ≠ bp := fun hj => by
      have := hpbase hj
      omega
    rcases hr with ⟨-, hj'⟩ | ⟨rfl, -⟩
    · exact absurd hj' hj
    · refine ⟨?_, List.mem_cons_self⟩
      have hstop := hlinked hj
      rw [hstopp, he, hf.stop_base, Heap.stop, ← he] at hstop
      unfold UNIT at hstop
      omega
  · intro hne
    have hp := (List.mem_cons.mp hpl).resolve_left hne
    refine ⟨(hf.pos p hp).trans_le ((hag₁ p hpb.ne) ▸ hsize₂), ?_⟩
    by_cases hj : h₁.stop p = bp
    · rw [hjoined hj]
      exact hlim₁
    · rw [hlinked hj, hstopp]
      exact hf.below p hp
  · rcases hr with ⟨-, hj⟩ | ⟨rfl, -⟩
    · have hstop := hjoined hj
      unfold Heap.stop UNIT at hstop
      exact .inl (by omega)
    · exact .inr ⟨List.mem_cons_self, by rwa [hag₂ bp hpb.ne']⟩

/-- `free` ends, with its block among the free ones. -/
theorem free_spec (hf : FreeList base h l) (hb : Place base h l bp) :
    ∃ h' l', Settles (free h (bp + UNIT) ·) h' ∧ FreeList base h' l' ∧
      units h' (base :: l') = units h (base :: l) ∪ Set.Ico bp (h.stop bp) ∧
      (∀ a, a ∉ base :: l → a ≠ bp → h'.hdr a = h.hdr a) ∧ (∀ a ∈ l', a ∈ l ∨ a = bp) ∧
      ∃ a ∈ l', (h.hdr bp).size ≤ (h'.hdr a).size := by
  obtain ⟨w, p, v, hcut, hw, hv⟩ := hf.exists_cut hb.above (hb.not_mem)
  have hpl : p ∈ base :: l := by
    rw [hcut]
    simp
  have hpb := hw p (by simp)
  have hwp : ∀ a ∈ w, a < p := by
    have hsorted := hf.sorted
    rw [hcut, List.pairwise_append] at hsorted
    exact fun a ha => hsorted.2.2 a ha p List.mem_cons_self
  obtain ⟨r, h₂, heq, htail, hag, hrest, hpbase, hpsize, hunits, hbig⟩ :=
    free_tail hf hb hcut hw hv
  have hagw : ∀ a ∈ w, h₂.hdr a = h.hdr a := fun a ha => by
    have := hwp a ha
    exact hag a (by omega) (by omega)
  obtain ⟨l', hl', hf'⟩ : ∃ l', base :: l' = w ++ p :: r ∧ FreeList base (h₂.setFreep p) l' :=
    hf.of_cut hcut hagw (htail.setFreep p) (fun he => (hpbase he).1) hpsize
      (fun a ha => (hrest a ha).2) (by simp [Heap.setFreep])
  have hmem : ∀ a, a ∈ l' ↔ a ≠ base ∧ a ∈ w ++ p :: r := by
    intro a
    rw [← hl', List.mem_cons]
    refine ⟨fun ha => ⟨fun he => ?_, .inr ha⟩, fun ha => ha.2.resolve_left ha.1⟩
    have := List.rel_of_pairwise_cons hf'.sorted ha
    omega
  refine ⟨h₂.setFreep p, l', ?_, hf', ?_, ?_, ?_, ?_⟩
  · obtain ⟨n, hn⟩ := search_settles hf hb.above hcut hw hv
    refine ⟨n, fun k hk => ?_⟩
    simp only [free, Nat.add_sub_cancel, hn k hk, Option.map_some, heq]
  · show units h₂ (base :: l') = _
    rw [hl', hcut, ← units_insert, units_append, hunits, units_append]
    congr 1
    refine units_congr fun a ha => ?_
    rw [Heap.stop, Heap.stop, hagw a ha]
  · intro a ha hne
    refine hag a hne fun he => ha ?_
    rwa [he]
  · intro a ha
    obtain ⟨hne, hin⟩ := (hmem a).mp ha
    rw [List.append_cons, List.mem_append] at hin
    rcases hin with hin | hin
    · have : a ∈ base :: l := by
        rw [hcut, List.append_cons]
        exact List.mem_append_left _ hin
      exact .inl ((List.mem_cons.mp this).resolve_left hne)
    · exact (hrest a hin).1
  · have hpos := hb.pos
    have habove := hb.above
    rcases hbig with hbig | ⟨hin, hbig⟩
    · refine ⟨p, (hmem p).mpr ⟨fun he => ?_, by simp⟩, hbig⟩
      rw [(hpbase he).1] at hbig
      omega
    · exact ⟨bp, (hmem bp).mpr ⟨by omega, by simp [hin]⟩, hbig⟩

end Xv6.Malloc
