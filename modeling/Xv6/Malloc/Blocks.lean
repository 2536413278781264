import Xv6.Malloc.Allocation

/-!
# Free and live blocks

The blocks that a program has got from `malloc` and not freed, together with the free ones, are
disjoint and make up the memory obtained from `sbrk`.
-/

namespace Xv6.Malloc

open Xv6.Foundation

set_option autoImplicit false

variable {base : Nat} {h h' : Heap} {l l' live : List Nat} {got : Set Nat} {n q : Nat} {a : Nat}

/-- Two blocks have no address in common. -/
def Heap.Apart (h : Heap) (a b : Nat) : Prop := h.stop a ≤ b ∨ h.stop b ≤ a

structure Inv (base : Nat) (h : Heap) (l live : List Nat) (got : Set Nat) : Prop where
  free : FreeList base h l
  live_pos : ∀ a ∈ live, 0 < (h.hdr a).size
  live_apart : live.Pairwise h.Apart
  apart : ∀ a ∈ live, ∀ x, a ≤ x → x < h.stop a → x ∉ units h (base :: l)
  got_eq : units h (base :: l) ∪ units h live = got
  above : ∀ x ∈ got, base + UNIT ≤ x
  below : ∀ x ∈ got, x < LIMIT

theorem Heap.Apart.of_disjoint {a b : Nat} (ha : 0 < (h.hdr a).size) (hb : 0 < (h.hdr b).size)
    (hab : ∀ x, a ≤ x → x < h.stop a → ¬ (b ≤ x ∧ x < h.stop b)) : h.Apart a b := by
  have := Heap.lt_stop ha
  have := Heap.lt_stop hb
  have := hab (max a b) (by omega)
  unfold Heap.Apart
  omega

theorem Heap.Apart.symm {a b : Nat} (hab : h.Apart a b) : h.Apart b a := Or.symm hab

instance : Std.Symm h.Apart := ⟨fun _ _ => Heap.Apart.symm⟩

namespace Inv
variable (hi : Inv base h l live got) {a : Nat}
include hi

theorem mem_got_of_free {a x : Nat} (ha : a ∈ l) (hx : a ≤ x) (hlt : x < h.stop a) : x ∈ got := by
  rw [← hi.got_eq]
  exact .inl ⟨a, List.mem_cons_of_mem base ha, hx, hlt⟩

theorem mem_got_of_live {a x : Nat} (ha : a ∈ live) (hx : a ≤ x) (hlt : x < h.stop a) :
    x ∈ got := by
  rw [← hi.got_eq]
  exact .inr ⟨a, ha, hx, hlt⟩

theorem live_above (ha : a ∈ live) : base + UNIT ≤ a :=
  hi.above a (hi.mem_got_of_live ha le_rfl (Heap.lt_stop (hi.live_pos a ha)))

theorem live_below (ha : a ∈ live) : h.stop a ≤ LIMIT := by
  have hlt := Heap.lt_stop (hi.live_pos a ha)
  have := hi.below _ (hi.mem_got_of_live ha (Nat.le_sub_one_of_lt hlt) (by omega))
  omega

theorem live_apart_free {a b : Nat} (ha : a ∈ live) (hb : b ∈ l) : h.Apart a b :=
  .of_disjoint (hi.live_pos a ha) (hi.free.pos b hb) fun x h1 h2 h3 =>
    hi.apart a ha x h1 h2 ⟨b, List.mem_cons_of_mem base hb, h3⟩

theorem place (ha : a ∈ live) : Place base h l a := by
  refine ⟨?_, hi.live_pos a ha, hi.live_below ha, fun b hb => (hi.live_apart_free ha hb).symm⟩
  have := hi.live_above ha
  unfold UNIT at this
  omega

theorem live_not_mem (ha : a ∈ live) : a ∉ base :: l :=
  List.not_mem_cons_of_ne_of_not_mem (hi.place ha).above.ne' (hi.place ha).not_mem

theorem live_nodup : live.Nodup := by
  refine hi.live_apart.imp_of_mem fun {a b} ha _ hab => ?_
  rintro rfl
  have := Heap.lt_stop (hi.live_pos a ha)
  unfold Heap.Apart at hab
  omega

end Inv

theorem Inv.of_live (hf : FreeList base h' l') (hpos : ∀ a ∈ live, 0 < (h.hdr a).size)
    (hlive : live.Pairwise h.Apart) (hsame : ∀ a ∈ live, h'.hdr a = h.hdr a)
    (hap : ∀ a ∈ live, ∀ x, a ≤ x → x < h.stop a → x ∉ units h' (base :: l'))
    (hgot : units h' (base :: l') ∪ units h live = got) (habove : ∀ x ∈ got, base + UNIT ≤ x)
    (hbelow : ∀ x ∈ got, x < LIMIT) : Inv base h' l' live got := by
  have hstop : ∀ a ∈ live, h'.stop a = h.stop a := fun a ha => by
    rw [Heap.stop, hsame a ha, Heap.stop]
  refine ⟨hf, fun a ha => ?_, ?_, fun a ha => ?_, ?_, habove, hbelow⟩
  · rw [hsame a ha]
    exact hpos a ha
  · refine hlive.imp_of_mem fun ha hb hab => ?_
    unfold Heap.Apart
    rwa [hstop _ ha, hstop _ hb]
  · rw [hstop a ha]
    exact hap a ha
  · rw [units_congr hstop]
    exact hgot

theorem units_erase (ha : a ∈ live) :
    Set.Ico a (h.stop a) ∪ units h (live.erase a) = units h live := by
  rw [← units_cons]
  ext x
  have hmem : ∀ b, b ∈ a :: live.erase a ↔ b ∈ live := fun b => (List.perm_cons_erase ha).mem_iff.symm
  simp only [units, Set.mem_ofPred_eq, hmem]

theorem Inv.freed (hi : Inv base h l live got) (ha : a ∈ live) :
    ∃ h' l', Settles (Malloc.free h (a + UNIT) ·) h' ∧ Inv base h' l' (live.erase a) got ∧
      units h' (base :: l') = units h (base :: l) ∪ Set.Ico a (h.stop a) := by
  obtain ⟨h', l', hs, hf', hunits, hsame, hmem, -⟩ := free_spec hi.free (hi.place ha)
  have hrest : ∀ b ∈ live.erase a, b ∈ live ∧ b ≠ a := fun b hb =>
    ⟨List.mem_of_mem_erase hb, fun he => hi.live_nodup.not_mem_erase (he ▸ hb)⟩
  have hapart : ∀ b ∈ live.erase a, h.Apart a b := by
    have hp := (List.perm_cons_erase ha).pairwise_iff (R := h.Apart) Heap.Apart.symm
    exact fun b hb => List.rel_of_pairwise_cons (hp.mp hi.live_apart) hb
  refine ⟨h', l', hs, .of_live hf' (fun b hb => hi.live_pos b (hrest b hb).1)
    (hi.live_apart.sublist List.erase_sublist)
    (fun b hb => hsame b (hi.live_not_mem (hrest b hb).1) (hrest b hb).2) (fun b hb x h1 h2 => ?_) ?_
    hi.above hi.below, hunits⟩
  · rw [hunits]
    rintro (hx | ⟨h3, h4⟩)
    · exact hi.apart b (hrest b hb).1 x h1 h2 hx
    · have := hapart b hb
      unfold Heap.Apart at this
      omega
  · rw [hunits, Set.union_assoc, units_erase ha, hi.got_eq]

theorem Taken.mem_units (ht : Taken base h l n q h' l') {x : Nat} (h1 : q ≤ x)
    (h2 : x < h'.stop q) : x ∈ Malloc.units h (base :: l) := by
  rw [← ht.units]
  exact .inr ⟨h1, h2⟩

theorem Inv.same_of_taken (hi : Inv base h l live got) (ht : Taken base h l n q h' l')
    (hn : 0 < n) (ha : a ∈ live) : h'.hdr a = h.hdr a := by
  refine ht.same a (hi.live_not_mem ha) ?_
  rintro rfl
  exact hi.apart a ha a le_rfl (Heap.lt_stop (hi.live_pos a ha))
    (ht.mem_units le_rfl (Heap.lt_stop (by rwa [ht.size])))

theorem Inv.taken (hi : Inv base h l live got) (ht : Taken base h l n q h' l') (hn : 0 < n) :
    Inv base h' l' (q :: live) got := by
  have hqpos : 0 < (h'.hdr q).size := by rwa [ht.size]
  have hsame : ∀ a ∈ live, h'.hdr a = h.hdr a := fun a => hi.same_of_taken ht hn
  have hstop : ∀ a ∈ live, h'.stop a = h.stop a := fun a ha => by
    rw [Heap.stop, hsame a ha, Heap.stop]
  have hpos : ∀ a ∈ live, 0 < (h'.hdr a).size := fun a ha => by
    rw [hsame a ha]
    exact hi.live_pos a ha
  refine ⟨ht.free, List.forall_mem_cons.mpr ⟨hqpos, hpos⟩, ?_, ?_, ?_, hi.above, hi.below⟩
  · refine List.pairwise_cons.mpr ⟨fun a ha => ?_, hi.live_apart.imp_of_mem fun ha hb hab => ?_⟩
    · refine .of_disjoint hqpos (hpos a ha) fun x h1 h2 hx => ?_
      obtain ⟨h3, h4⟩ := hx
      rw [hstop a ha] at h4
      exact hi.apart a ha x h3 h4 (ht.mem_units h1 h2)
    · unfold Heap.Apart
      rwa [hstop _ ha, hstop _ hb]
  · intro a ha x h1 h2
    rcases List.mem_cons.mp ha with rfl | ha
    · rintro ⟨b, hb, h3, h4⟩
      rcases List.mem_cons.mp hb with rfl | hb
      · rw [ht.free.stop_base] at h4
        omega
      · have := ht.apart b hb
        omega
    · intro hx
      rw [hstop a ha] at h2
      refine hi.apart a ha x h1 h2 ?_
      rw [← ht.units]
      exact .inl hx
  · rw [units_cons h' q, ← Set.union_assoc, ht.units, units_congr hstop, hi.got_eq]

theorem Inv.grown {a k : Nat} (hi : Inv base h l live got) (hf' : FreeList base h' l')
    (hunits : units h' (base :: l') = units h (base :: l) ∪ Set.Ico a (a + UNIT * k))
    (hsame : ∀ b, b ∉ base :: l → b ≠ a → h'.hdr b = h.hdr b) (hbase : base + UNIT ≤ a)
    (habove : ∀ x ∈ got, x < a) (hlim : a + UNIT * k ≤ LIMIT) :
    Inv base h' l' live (got ∪ Set.Ico a (a + UNIT * k)) := by
  have hin : ∀ b ∈ live, ∀ x, b ≤ x → x < h.stop b → x < a := fun b hb x h1 h2 =>
    habove x (hi.mem_got_of_live hb h1 h2)
  refine .of_live hf' hi.live_pos hi.live_apart (fun b hb => ?_) (fun b hb x h1 h2 => ?_) ?_
    (fun x hx => ?_) fun x hx => ?_
  · refine hsame b (hi.live_not_mem hb) ?_
    have := hin b hb b le_rfl (Heap.lt_stop (hi.live_pos b hb))
    omega
  · rw [hunits]
    rintro (hx | hx)
    · exact hi.apart b hb x h1 h2 hx
    · have := hin b hb x h1 h2
      have := hx.1
      omega
  · rw [hunits, Set.union_right_comm, hi.got_eq]
  · rcases hx with hx | hx
    · exact hi.above x hx
    · exact hbase.trans hx.1
  · rcases hx with hx | hx
    · exact hi.below x hx
    · exact hx.2.trans_le hlim

/-! ## `malloc` -/

section
variable {S : Type} {sbrk : Int → S → Option Nat × S} {s : S} {nbytes : Nat}

theorem nunits_pos (nbytes : Nat) (hb : nbytes < 2 ^ 32) : 0 < nunits nbytes := by
  unfold nunits UNIT
  omega

/-- The heap after the first lines of `malloc`; before the first call nothing is live. -/
def Ready (base : Nat) (h : Heap) (live : List Nat) (got : Set Nat) : Prop :=
  (h.freep = 0 → live = []) ∧ ∃ l, Inv base (init base h) l live got

theorem init_of_ne (hne : h.freep ≠ 0) : init base h = h := if_neg hne

theorem init_of_eq (h0 : h.freep = 0) :
    init base h = ((h.setPtr base base).setFreep base).setSize base 0 := if_pos h0

theorem inv_init (base : Nat) (h0 : h.freep = 0) : Inv base (init base h) [] [] ∅ := by
  have hhdr : (init base h).hdr base = ⟨base, 0⟩ := by
    rw [init_of_eq h0, Heap.setSize_hdr_self]
    show (⟨((h.setPtr base base).hdr base).ptr, 0⟩ : Header) = _
    rw [Heap.setPtr_hdr_self]
  have hstop : (init base h).stop base = base := by
    rw [Heap.stop, hhdr, Nat.mul_zero, Nat.add_zero]
  refine ⟨⟨?_, by simp, by rw [hhdr], by simp, by simp, ?_⟩, by simp, .nil, by simp, ?_, by simp,
    by simp⟩
  · rw [circular_nil, Heap.next, hhdr]
  · rw [init_of_eq h0]
    exact List.mem_cons_self
  · rw [units_cons, hstop]
    ext x
    simp [units]

/-- What a call of `malloc` can lead to. -/
inductive Served (base : Nat) (sbrk : Int → S → Option Nat × S) (nbytes : Nat) (h : Heap) (s : S)
    (l live : List Nat) (got : Set Nat) : Nat → Heap → S → Prop where
  | list {q : Nat} {h' : Heap} {l' : List Nat} : Taken base h l (nunits nbytes) q h' l' →
      Inv base h' l' (q :: live) got → (∀ a ∈ live, h'.hdr a = h.hdr a) →
      Served base sbrk nbytes h s l live got (q + UNIT) h' s
  | fail {s' : S} : sbrk (toInt (moreUnits (nunits nbytes) * UNIT)) s = (none, s') →
      Served base sbrk nbytes h s l live got 0 h s'
  | grow {a q : Nat} {h' : Heap} {s' : S} {l' : List Nat} :
      sbrk (toInt (moreUnits (nunits nbytes) * UNIT)) s = (some a, s') →
      (h'.hdr q).size = nunits nbytes →
      Inv base h' l' (q :: live) (got ∪ Set.Ico a (a + UNIT * moreUnits (nunits nbytes))) →
      (∀ b ∈ live, h'.hdr b = h.hdr b) → Served base sbrk nbytes h s l live got (q + UNIT) h' s'

/-- `malloc` ends: with a block of the list, with one of new memory, or with 0 and nothing
changed. -/
theorem Inv.malloc (sbrk : Int → S → Option Nat × S) (s : S)
    (hi : Inv base (init base h) l live got) (hb : nbytes < 2 ^ 32)
    (hfresh : ∀ a s', sbrk (toInt (moreUnits (nunits nbytes) * UNIT)) s = (some a, s') →
      base + UNIT ≤ a ∧ (∀ x ∈ got, x < a) ∧ a + UNIT * moreUnits (nunits nbytes) ≤ LIMIT) :
    ∃ r h' s', Settles (fun fuel => malloc sbrk base nbytes fuel h s) (r, h', s') ∧
      Served base sbrk nbytes (init base h) s l live got r h' s' := by
  have hn := nunits_pos nbytes hb
  unfold Malloc.malloc
  generalize init base h = h at hi ⊢
  by_cases hex : ∃ a ∈ l, nunits nbytes ≤ (h.hdr a).size
  · obtain ⟨q, h', l', hs, ht⟩ := mallocLoop_served sbrk s hi.free hn hex
    exact ⟨_, h', s, hs, .list ht (hi.taken ht hn) fun a => hi.same_of_taken ht hn⟩
  · push Not at hex
    have hall : ∀ a ∈ l, ¬ nunits nbytes ≤ (h.hdr a).size := fun a ha => Nat.not_le.mpr (hex a ha)
    cases hcall : sbrk (toInt (moreUnits (nunits nbytes) * UNIT)) s with
    | mk o s' =>
      cases o with
      | none => exact ⟨0, h, s', mallocLoop_grows hi.free hn hall (growLoop_fails hcall), .fail hcall⟩
      | some a =>
        obtain ⟨hbase, habove, hlim⟩ := hfresh a s' hcall
        have hstop : ∀ b ∈ l, h.stop b ≤ a := fun b hb => by
          have hlt := Heap.lt_stop (hi.free.pos b hb)
          have := habove _ (hi.mem_got_of_free hb (Nat.le_sub_one_of_lt hlt) (by omega))
          omega
        have hlt : base < a := by
          unfold UNIT at hbase
          omega
        obtain ⟨h₂, l₂, q, h', l', hs, hf₂, ht, hunits, hsame, -⟩ :=
          growLoop_spec hi.free hn hcall hlt hstop hlim
        have hi₂ := hi.grown hf₂ hunits hsame hbase habove hlim
        refine ⟨_, h', s', mallocLoop_grows hi.free hn hall hs,
          .grow hcall ht.size (hi₂.taken ht hn) fun b hb => ?_⟩
        have hba : b ≠ a := by
          have := habove b (hi.mem_got_of_live hb le_rfl (Heap.lt_stop (hi.live_pos b hb)))
          omega
        rw [hi₂.same_of_taken ht hn hb, hsame b (hi.live_not_mem hb) hba]

end

end Xv6.Malloc
