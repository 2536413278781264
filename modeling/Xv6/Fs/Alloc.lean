import Xv6.Fs.Demand

/-!
# `balloc` and `bfree`

`balloc` takes the lowest free block in hand, with its bit set and its contents zero; `bfree` gives
back a block in hand.
-/

namespace Xv6.Fs

open Xv6.Foundation Xv6.Disk Function

set_option autoImplicit false

/-! ## Bits of the bitmap -/

theorem firstFree_eq_some {d : Block} {n bi : Nat} (h : firstFree d n = some bi) :
    bi < n ∧ getBit d bi = false ∧ ∀ j < bi, getBit d j = true := by
  obtain ⟨hb, hm, hbefore⟩ := List.find?_range_eq_some.mp h
  exact ⟨List.mem_range.mp hm, by simpa using hb, fun j hj => by simpa using hbefore j hj⟩

theorem firstFree_eq_none {d : Block} {n bi : Nat} (h : firstFree d n = none) (hb : bi < n) :
    getBit d bi = true := by
  have := List.find?_eq_none.mp h bi (List.mem_range.mpr hb)
  simpa using this

section Bits
variable {sb : Superblock} {v : View} {b c : Nat}

theorem eq_of_bblock_eq (h : bblock sb c = bblock sb b) (hm : c % BPB = b % BPB) : c = b := by
  unfold bblock at h
  have hd : c / BPB = b / BPB := by omega
  rw [← Nat.div_add_mod c BPB, ← Nat.div_add_mod b BPB, hd, hm]

theorem marked_setBit (sb : Superblock) (v : View) (b c : Nat) :
    marked sb (update v (bblock sb b) (setBit (v (bblock sb b)) (b % BPB))) c ↔
      marked sb v c ∨ c = b := by
  unfold marked
  by_cases h : bblock sb c = bblock sb b
  · rw [h, update_self, getBit_setBit, Bool.or_eq_true, decide_eq_true_eq]
    refine or_congr_right ⟨fun hm => eq_of_bblock_eq h hm.symm, ?_⟩
    rintro rfl
    rfl
  · rw [update_of_ne h]
    refine ⟨Or.inl, ?_⟩
    rintro (hc | rfl)
    · exact hc
    · exact absurd rfl h

theorem marked_clearBit (sb : Superblock) (v : View) (b c : Nat) :
    marked sb (update v (bblock sb b) (clearBit (v (bblock sb b)) (b % BPB))) c ↔
      marked sb v c ∧ c ≠ b := by
  unfold marked
  by_cases h : bblock sb c = bblock sb b
  · rw [h, update_self, getBit_clearBit, Bool.and_eq_true, Bool.not_eq_true',
      decide_eq_false_iff_not]
    refine and_congr_right fun _ => ⟨?_, fun hne hm => hne (eq_of_bblock_eq h hm.symm)⟩
    rintro hm rfl
    exact hm rfl
  · rw [update_of_ne h]
    refine ⟨fun hc => ⟨hc, ?_⟩, And.left⟩
    rintro rfl
    exact h rfl

theorem bblock_add {bi : Nat} (hb : b % BPB = 0) (hbi : bi < BPB) :
    bblock sb (b + bi) = bblock sb b ∧ (b + bi) % BPB = bi := by
  unfold bblock BPB BSIZE at *
  omega

end Bits

section Alloc
variable {k k' k1 : Kernel} {D : DTable} {extra : List Nat} {dirty : Set Nat}
  {held : List (Nat × Nat)} {stale : Option Nat} {R : Prop}

theorem FsInv.marked_of_kept (h : FsInv k D extra dirty held stale) (hk : Kept k k' dirty held) :
    ∀ c < k.sb.size, marked k.sb k'.view c ↔ marked k.sb k.view c := fun c hc => by
  rw [marked, hk _ (Or.inl (h.not_dirty_meta (bblock_range hc).2)), marked]

/-- The blocks that are locked are in use, and none of them is a block of the bitmap. -/
def HeldUsed (k : Kernel) (held : List (Nat × Nat)) : Prop :=
  ∀ p ∈ held, datastart k.sb ≤ p.2 ∧ p.2 < k.sb.size ∧ marked k.sb k.view p.2

theorem HeldUsed.bblock_notMem (h : HeldUsed k held) {b : Nat} (hb : b < k.sb.size) :
    bblock k.sb b ∉ held.map Prod.snd := by
  intro hm
  obtain ⟨p, hp, he⟩ := List.mem_map.mp hm
  have h1 := (h p hp).1
  have h2 := (bblock_range hb).2
  omega

theorem HeldUsed.quiet (h : HeldUsed k held) (q : Quiet k k')
    (hmark : ∀ c < k.sb.size, marked k.sb k'.view c ↔ marked k.sb k.view c) : HeldUsed k' held := by
  intro p hp
  rw [q.sb]
  obtain ⟨hlo, hhi, hm⟩ := h p hp
  exact ⟨hlo, hhi, (hmark _ hhi).mpr hm⟩

structure Alloc (k k' : Kernel) (D : DTable) (extra : List Nat) (dirty : Set Nat)
    (held : List (Nat × Nat)) (stale : Option Nat) (b : Nat) : Prop where
  inv : FsInv k' D (b :: extra) (dirty \ {b}) held stale
  rest : SameRest k k'
  free : ¬ marked k.sb k.view b
  least : ∀ c < b, marked k.sb k.view c
  zero : k'.view b = fun _ => 0
  kept : ∀ c, datastart k.sb ≤ c → c ≠ b → c ∉ dirty ∨ c ∈ held.map Prod.snd →
    k'.view c = k.view c
  bits : ∀ c < k.sb.size, marked k.sb k'.view c ↔ marked k.sb k.view c ∨ c = b
  lh : k'.log.lh = addBlock (addBlock k.log.lh (bblock k.sb b)) b

theorem Alloc.of_quiet {b : Nat} (ha : Alloc k1 k' D extra dirty held stale b) (q : Quiet k k1)
    (v : Kept k k1 dirty held)
    (hmark : ∀ c < k.sb.size, marked k.sb k1.view c ↔ marked k.sb k.view c) (hb : b < k.sb.size) :
    Alloc k k' D extra dirty held stale b := by
  have hsb := q.sb
  refine ⟨ha.inv, q.sameRest.trans ha.rest, ?_, fun c hc => ?_, ha.zero, fun c hc hne hk => ?_,
    fun c hc => ?_, ?_⟩
  · rw [← hmark b hb, ← hsb]
    exact ha.free
  · rw [← hmark c (by omega), ← hsb]
    exact ha.least c hc
  · rw [ha.kept c (by rw [hsb]; exact hc) hne hk, v c hk]
  · rw [← hmark c hc, ← hsb]
    exact ha.bits c (by rw [hsb]; exact hc)
  · rw [ha.lh, q.log, hsb]

theorem bzero_spec {b : Nat} (h : FsInv k D extra dirty held stale)
    (hb : datastart k.sb ≤ b) (hind : ∀ i, Live k.sb D i → (D i).addrs NDIRECT ≠ b)
    (hheld : R → b ∉ held.map Prod.snd) (hlen : R → held.length ≤ 1) (hroom : LogRoom R k 0) :
    wp (bzero ROOTDEV b)
      (fun _ k' => FsInv k' D extra (dirty \ {b}) held stale ∧ SameRest k k' ∧
        k'.log.lh = addBlock k.log.lh b ∧ k'.view b = (fun _ => 0) ∧
        ∀ c, c ≠ b → c ∉ dirty ∨ c ∈ held.map Prod.snd → k'.view c = k.view c)
      (Fail R) k := by
  refine wp_bread h hheld (fun hR => ?_) ?_
  · have h1 := hlen hR
    have h2 := (hroom hR).2.2
    simp only [LOGSIZE, MAXOPBLOCKS, NBUF] at h2 ⊢
    omega
  intro i k1 h1 q1 v1
  refine wp_post (store_spec h1.cache _ ?_) ?_
  · intro hR
    rw [q1.log]
    exact hroom hR
  rintro _ k2 hs
  have hsb : k1.sb = k.sb := q1.sb
  refine ⟨h1.storeData hs (by rw [hsb]; exact hb) (by rw [hsb]; exact hind),
    q1.sameRest.trans hs.rest, ?_, ?_, ?_⟩
  · rw [hs.lh, q1.log]
  · rw [hs.view, update_self]
  · intro c hc hk
    rw [hs.view, update_of_ne hc, v1 c hk]

theorem length_le_addBlock (lh : List Nat) (b : Nat) : lh.length ≤ (addBlock lh b).length := by
  unfold addBlock
  split <;> simp

theorem LogRoom.mono {k k' : Kernel} {m n : Nat} (h : LogRoom R k n) (hs : Steady k k')
    (hlen : k'.log.lh.length + m ≤ k.log.lh.length + n) : LogRoom R k' m := by
  intro hR
  obtain ⟨ho, hsz, hl⟩ := h hR
  exact ⟨by rw [hs.outstanding]; exact ho, by rw [hs.size]; exact hsz, by omega⟩

theorem LogRoom.quiet {k k' : Kernel} {n : Nat} (h : LogRoom R k n) (q : Quiet k k') :
    LogRoom R k' n :=
  h.mono (steady_of_quiet q) (by rw [q.log])

theorem LogRoom.cache {k : Kernel} {n : Nat} (h : LogRoom R k n) (hlen : R → held.length ≤ 1) :
    R → held.length + k.log.lh.length < NBUF := by
  intro hR
  have h1 := hlen hR
  have h2 := (h hR).2.2
  simp only [LOGSIZE, MAXOPBLOCKS, NBUF] at h2 ⊢
  omega

theorem balloc_found {i b : Nat} (h : FsInv k D extra dirty ((i, bblock k.sb b) :: held) stale)
    (hb : b < k.sb.size) (hfree : ¬ marked k.sb k.view b) (hleast : ∀ c < b, marked k.sb k.view c)
    (hheld : HeldUsed k held) (hlen : R → held.length ≤ 1)
    (hroom : R → 1 ≤ k.log.outstanding ∧ k.log.size = LOGSIZE ∧
      (addBlock k.log.lh (bblock k.sb b)).length ≤ LOGSIZE - 2) : wp (do
        setBufData i (setBit (k.view (bblock k.sb b)) (b % BPB))
        logWrite i
        brelse i
        bzero ROOTDEV b
        pure b)
      (fun a k' => a = b ∧ Alloc k k' D extra dirty held stale b) (Fail R) k := by
  have hdata : datastart k.sb ≤ b := by
    by_contra hlt
    exact hfree (h.metadata b (by omega))
  have hunused := h.owned.not_used ⟨hdata, hb⟩ hfree
  have hind : ∀ i, Live k.sb D i → (D i).addrs NDIRECT ≠ b := fun i hl he =>
    hunused.1 (.indirect i) ⟨hl, he, fun hz => by rw [hz] at hdata; simp [datastart] at hdata⟩
  have hbb := bblock_range hb
  have hnh : b ∉ held.map Prod.snd := by
    intro hm
    obtain ⟨p, hp, rfl⟩ := List.mem_map.mp hm
    exact hfree (hheld p hp).2.2
  have hlog : LogRoom R k 0 := fun hR => by
    obtain ⟨hout, hsize, hl⟩ := hroom hR
    have hle := length_le_addBlock k.log.lh (bblock k.sb b)
    exact ⟨hout, hsize, by omega⟩
  refine wp_store h.cache hlog ?_
  intro k1 hs
  have hsb : k1.sb = k.sb := hs.rest.sb
  have hbits : ∀ c, marked k.sb k1.view c ↔ marked k.sb k.view c ∨ c = b := by
    rw [hs.view]
    exact marked_setBit k.sb k.view b
  have hother : ∀ c, c ≠ bblock k.sb b → k1.view c = k.view c := fun c hc => by
    rw [hs.view, update_of_ne hc]
  have hinv1 : FsInv k1 D (b :: extra) dirty held stale := by
    refine h.storeBitmap hs hbb.1 hbb.2 ?_ (fun c hc => (hbits c).mpr (Or.inl (h.metadata c hc)))
    refine (h.owned.alloc ⟨hdata, hb⟩ hfree fun c _ _ => hbits c).congr (used_congr ?_)
      fun _ _ _ => Iff.rfl
    intro i hl hz
    have hr := (h.owned.range _ _ (used_indirect hl hz)).1
    exact hother _ (by omega)
  refine wp_then (bzero_spec hinv1 (by rw [hsb]; exact hdata) (by rw [hsb]; exact hind) (fun _ => hnh)
    hlen fun hR => ?_) ?_
  · obtain ⟨hout, hsize, hl⟩ := hroom hR
    rw [hs.steady.outstanding, hs.steady.size, hs.lh]
    exact ⟨hout, hsize, hl⟩
  · rintro _ k2 ⟨h2, r2, l2, z2, v2⟩
    refine ⟨rfl, h2, hs.rest.trans r2, hfree, hleast, z2, ?_, ?_, ?_⟩
    · intro c hc hcb hk
      rw [v2 c hcb hk, hother c (by omega)]
    · intro c hc
      have hne : bblock k.sb c ≠ b := by
        have := (bblock_range hc).2
        omega
      rw [← hbits c, marked, v2 _ hne (Or.inl ?_), marked]
      exact hinv1.not_dirty_meta (by rw [hsb]; exact (bblock_range hc).2)
    · rw [l2, hs.lh]

theorem AllocRoom.logRoom (h : AllocRoom R k) : LogRoom R k 0 := by
  intro hR
  obtain ⟨hout, hsize, a, -, -, hl⟩ := h hR
  have hle := length_le_addBlock k.log.lh (bblock k.sb a)
  exact ⟨hout, hsize, by omega⟩

theorem mem_freeBlocks {sb : Superblock} {v : View} {b : Nat} :
    b ∈ freeBlocks sb v ↔ b < sb.size ∧ ¬ marked sb v b := by
  simp [freeBlocks]

theorem freeBlocks_congr {sb : Superblock} {v v' : View}
    (h : ∀ c < sb.size, marked sb v' c ↔ marked sb v c) : freeBlocks sb v' = freeBlocks sb v := by
  refine Finset.filter_congr fun c hc => ?_
  rw [h c (Finset.mem_range.mp hc)]

theorem AllocRoom.lt {b : Nat} (h : AllocRoom R k)
    (hbefore : ∀ c < b, c < k.sb.size → marked k.sb k.view c) (hR : R) : b < k.sb.size := by
  obtain ⟨-, -, a, ha, -, -⟩ := h hR
  obtain ⟨hlt, hfree⟩ := mem_freeBlocks.mp ha
  exact (Nat.not_lt.mp fun hab => hfree (hbefore a hab hlt)).trans_lt hlt

theorem AllocRoom.quiet (h : AllocRoom R k) (q : Quiet k k')
    (hfree : freeBlocks k.sb k'.view = freeBlocks k.sb k.view) : AllocRoom R k' := by
  intro hR
  rw [q.sb, q.log, hfree]
  exact h hR

/-- `balloc` from block `b` on, when all blocks before it are taken. -/
theorem ballocFrom_spec (fuel b : Nat) (h : FsInv k D extra dirty held stale)
    (hmul : b % BPB = 0) (hfuel : k.sb.size < b + fuel * BPB) (hheld : HeldUsed k held)
    (hlen : R → held.length ≤ 1) (hroom : AllocRoom R k)
    (hbefore : ∀ c < b, c < k.sb.size → marked k.sb k.view c) :
    wp (ballocFrom ROOTDEV fuel b)
      (fun a k' => a < k.sb.size ∧ Alloc k k' D extra dirty held stale a) (Fail R) k := by
  induction fuel generalizing k b with
  | zero =>
    refine ⟨fun hR => ?_, by simp⟩
    have := hroom.lt hbefore hR
    omega
  | succ fuel ih =>
    rw [ballocFrom, wp_bind, wp_get]
    refine wp_ite (fun hb => ?_) (fun hb => ⟨fun hR => hb (hroom.lt hbefore hR), by simp⟩)
    refine wp_bread h (fun _ => hheld.bblock_notMem hb) (hroom.logRoom.cache hlen) ?_
    intro i k1 h1 q1 v1
    have hbb : k1.view (bblock k.sb b) = k.view (bblock k.sb b) :=
      v1 _ (Or.inl (h.not_dirty_meta (bblock_range hb).2))
    have hmark := h.marked_of_kept v1
    -- the bit of a block of this round
    have hbit : ∀ j < BPB, (marked k.sb k.view (b + j) ↔ getBit (k1.view (bblock k.sb b)) j = true) :=
      fun j hj => by
        obtain ⟨heq, hmod⟩ : bblock k.sb (b + j) = bblock k.sb b ∧ (b + j) % BPB = j :=
          bblock_add hmul hj
        rw [marked, heq, hmod, hbb]
    rw [wp_bind, bufData_spec h1.cache List.mem_cons_self]
    split
    · rename_i bi hbi
      obtain ⟨hlt, hclear, hset⟩ := firstFree_eq_some hbi
      obtain ⟨heq, hmod⟩ : bblock k.sb (b + bi) = bblock k.sb b ∧ (b + bi) % BPB = bi :=
        bblock_add hmul (by omega)
      have hfree : ¬ marked k.sb k.view (b + bi) := by
        rw [hbit bi (by omega), hclear]
        simp
      have hleast : ∀ c < b + bi, marked k.sb k.view c := fun c hc => by
        rcases Nat.lt_or_ge c b with hcb | hcb
        · exact hbefore c hcb (by omega)
        · obtain ⟨j, rfl⟩ := Nat.exists_eq_add_of_le hcb
          exact (hbit j (by omega)).mpr (hset j (by omega))
      have hfound := balloc_found (R := R) (b := b + bi) (k := k1) (i := i)
        (by rw [q1.sb, heq]; exact h1) (by rw [q1.sb]; omega)
        (by rw [q1.sb, hmark _ (by omega)]; exact hfree)
        (fun c hc => by rw [q1.sb, hmark _ (by omega)]; exact hleast c hc) (hheld.quiet q1 hmark) hlen
        fun hR => ?_
      · rw [q1.sb, heq, hmod] at hfound
        refine wp_post hfound ?_
        rintro a k2 ⟨rfl, ha⟩
        exact ⟨by omega, ha.of_quiet q1 v1 hmark (by omega)⟩
      · obtain ⟨hout, hsize, a, ha, hmin, hl⟩ := hroom hR
        obtain ⟨-, hna⟩ := mem_freeBlocks.mp ha
        have hab : a = b + bi :=
          le_antisymm (hmin _ (mem_freeBlocks.mpr ⟨by omega, hfree⟩))
            (Nat.not_lt.mp fun hlt' => hna (hleast a hlt'))
        rw [q1.log, q1.sb, ← hab]
        exact ⟨hout, hsize, hl⟩
    · rename_i hnone
      refine wp_brelse h1 ?_
      intro k2 h2 q2 v2
      have hq := q1.trans q2
      have hkept : Kept k k2 dirty held := fun c hc => by rw [v2, v1 c hc]
      have hmark2 := h.marked_of_kept hkept
      have hbefore2 : ∀ c < b + BPB, c < k.sb.size → marked k.sb k.view c := fun c hc hlt => by
        rcases Nat.lt_or_ge c b with hcb | hcb
        · exact hbefore c hcb hlt
        · obtain ⟨j, rfl⟩ := Nat.exists_eq_add_of_le hcb
          exact (hbit j (by omega)).mpr (firstFree_eq_none hnone (by omega))
      refine wp_post (ih (b + BPB) h2 ?_ ?_ (hheld.quiet hq hmark2)
        (hroom.quiet hq (freeBlocks_congr hmark2)) ?_) ?_
      · rw [Nat.add_mod, hmul]
        simp
      · rw [hq.sb]
        rw [Nat.succ_mul] at hfuel
        omega
      · rw [hq.sb]
        exact fun c hc hlt => (hmark2 c hlt).mpr (hbefore2 c hc hlt)
      · rintro a k3 ⟨hlt, ha⟩
        rw [hq.sb] at hlt
        exact ⟨hlt, ha.of_quiet hq hkept hmark2 hlt⟩

theorem balloc_spec (h : FsInv k D extra dirty held stale) (hheld : HeldUsed k held)
    (hlen : R → held.length ≤ 1) (hroom : AllocRoom R k) : wp (balloc ROOTDEV)
      (fun b k' => b < k.sb.size ∧ Alloc k k' D extra dirty held stale b) (Fail R) k := by
  rw [balloc, wp_bind, wp_get]
  refine ballocFrom_spec _ 0 h rfl ?_ hheld hlen hroom fun c hc => absurd hc (Nat.not_lt_zero c)
  have := Nat.lt_div_mul_add (a := k.sb.size) (show 0 < BPB by decide)
  rw [Nat.succ_mul]
  omega

theorem bfree_spec {b : Nat} (h : FsInv k D extra dirty held stale) (hb : b ∈ extra)
    (hheld : HeldUsed k held) (hlen : R → held.length ≤ 1) (hroom : LogRoom R k 1) :
    wp (bfree ROOTDEV b)
      (fun _ k' => FsInv k' D (extra.erase b) dirty held stale ∧ SameRest k k' ∧
        (∀ c, datastart k.sb ≤ c → c ∉ dirty ∨ c ∈ held.map Prod.snd → k'.view c = k.view c) ∧
        (∀ c < k.sb.size, marked k.sb k'.view c ↔ marked k.sb k.view c ∧ c ≠ b))
      (Fail R) k := by
  obtain ⟨hlo, hhi⟩ := h.owned.extra_range b hb
  have hbb := bblock_range hhi
  rw [bfree, wp_bind, wp_get]
  refine wp_bread h (fun _ => hheld.bblock_notMem hhi) (hroom.cache hlen) ?_
  intro i k1 h1 q1 v1
  have hmark := h.marked_of_kept v1
  rw [wp_bind, bufData_spec h1.cache List.mem_cons_self, wp_bind, wp_check]
  have hset : marked k.sb k1.view b := (hmark b hhi).mpr (h.owned.marked_of_extra hb)
  refine ⟨fun hc => ?_, fun _ => ?_⟩
  · rw [marked] at hset
    rw [hset] at hc
    cases hc
  refine wp_post (store_spec h1.cache _ ((hroom.quiet q1).mono (Steady.refl k1) (by omega))) ?_
  rintro _ k2 hs
  have hsb : k1.sb = k.sb := q1.sb
  have hbits : ∀ c, marked k.sb k2.view c ↔ marked k.sb k1.view c ∧ c ≠ b := by
    rw [hs.view]
    exact marked_clearBit k.sb k1.view b
  have hother : ∀ c, c ≠ bblock k.sb b → k2.view c = k1.view c := fun c hc => by
    rw [hs.view, update_of_ne hc]
  refine ⟨h1.storeBitmap hs (by rw [hsb]; exact hbb.1) (by rw [hsb]; exact hbb.2) ?_ ?_,
    q1.sameRest.trans hs.rest, ?_, ?_⟩
  · rw [hsb]
    have howned := h1.owned
    rw [hsb] at howned
    refine (howned.free hb fun c _ _ => hbits c).congr (used_congr ?_) fun _ _ _ => Iff.rfl
    intro i hl hz
    have hr := (h.owned.range _ _ (used_indirect hl hz)).1
    exact hother _ (by omega)
  · rw [hsb]
    intro c hc
    exact (hbits c).mpr ⟨(hmark c (by omega)).mpr (h.metadata c hc), by omega⟩
  · intro c hc hk
    rw [hother c (by omega), v1 c hk]
  · intro c hc
    rw [hbits c, hmark c hc]

end Alloc

end Xv6.Fs
