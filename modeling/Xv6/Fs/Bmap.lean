import Xv6.Fs.Inodes

/-!
# `bmap`

`bmap` returns the block in a slot of the file, or fills the slot first, and with it the indirect
pointer. Slots that were filled keep their block.
-/

namespace Xv6.Fs

open Xv6.Foundation Xv6.Disk Function

set_option autoImplicit false

theorem freeBlocks_erase {sb : Superblock} {v v' : View} {b : Nat}
    (hbits : ∀ c < sb.size, marked sb v' c ↔ marked sb v c ∨ c = b) :
    freeBlocks sb v' = (freeBlocks sb v).erase b := by
  ext c
  rw [Finset.mem_erase, mem_freeBlocks, mem_freeBlocks]
  constructor
  · rintro ⟨hc, hm⟩
    rw [hbits c hc] at hm
    exact ⟨fun h => hm (Or.inr h), hc, fun h => hm (Or.inl h)⟩
  · rintro ⟨hne, hc, hm⟩
    refine ⟨hc, ?_⟩
    rw [hbits c hc]
    exact fun h => h.elim hm hne

/-! ## Filling slots -/

/-- Some empty slots of `inum` that satisfy `T` have been filled. -/
structure Grown (k k' : Kernel) (D D' : DTable) (inum : Nat) (T : Slot → Prop)
    (dirty : Set Nat) : Prop where
  steady : Steady k k'
  off : ∀ i, i ≠ inum → D' i = D i
  same : D' inum = { D inum with addrs := (D' inum).addrs }
  slots : ∀ s, Live k.sb D s.inode → slotAddr D' k'.view s = slotAddr D k.view s ∨
    (slotAddr D k.view s = 0 ∧ T s)
  kept : ∀ c, datastart k.sb ≤ c → c ∉ dirty → (∀ s, T s → slotAddr D' k'.view s ≠ c) →
    k'.view c = k.view c

section Grown
variable {k k' k'' : Kernel} {D D' D'' : DTable} {inum : Nat} {T : Slot → Prop} {dirty dirty' : Set Nat}

variable (h : Grown k k' D D' inum T dirty)
include h

theorem Grown.type (i : Nat) : (D' i).type = (D i).type := by
  by_cases hi : i = inum
  · rw [hi, h.same]
  · rw [h.off i hi]

theorem Grown.size (i : Nat) : (D' i).size = (D i).size := by
  by_cases hi : i = inum
  · rw [hi, h.same]
  · rw [h.off i hi]

theorem Grown.slot_of_ne_zero {s : Slot} (hl : Live k.sb D s.inode) (hz : slotAddr D k.view s ≠ 0) :
    slotAddr D' k'.view s = slotAddr D k.view s :=
  (h.slots s hl).resolve_right fun hc => hz hc.1

theorem Grown.trans (h' : Grown k' k'' D' D'' inum T dirty')
    (hsub : dirty' ⊆ dirty) (hT : ∀ s, T s → Live k.sb D s.inode) :
    Grown k k'' D D'' inum T dirty := by
  have hsb := h.steady.sb
  have hlive : ∀ i, Live k'.sb D' i ↔ Live k.sb D i := fun i => by
    rw [hsb]
    exact live_congr h.type
  refine ⟨h.steady.trans h'.steady, fun i hi => (h'.off i hi).trans (h.off i hi), ?_, ?_, ?_⟩
  · rw [h'.same, h.same]
  · intro s hl
    rcases h'.slots s ((hlive _).mpr hl) with he | ⟨hz, ht⟩
    · rw [he]
      exact h.slots s hl
    · rcases h.slots s hl with he | hc
      · exact Or.inr ⟨he ▸ hz, ht⟩
      · exact Or.inr hc
  · intro c hc hd hne
    rw [h'.kept c (by rw [hsb]; exact hc) (fun hm => hd (hsub hm)) hne]
    refine h.kept c hc hd fun s hs he => hne s hs ?_
    -- a slot filled in the first step is still filled after the second
    rw [← he]
    apply h'.slot_of_ne_zero ((hlive _).mpr (hT s hs))
    rw [he]
    exact ((datastart_pos k.sb).trans_le hc).ne'

end Grown

section Assign
variable {k k1 : Kernel} {D : DTable} {extra : List Nat} {dirty : Set Nat}
  {held : List (Nat × Nat)} {inum ip b : Nat} {R : Prop} {stale : Option Nat}

theorem Alloc.data (ha : Alloc k k1 D extra dirty held stale b) :
    datastart k.sb ≤ b ∧ b < k.sb.size := by
  have := ha.inv.owned.extra_range b List.mem_cons_self
  rwa [ha.rest.sb] at this

theorem Alloc.ne_zero (ha : Alloc k k1 D extra dirty held stale b) : b ≠ 0 :=
  ((datastart_pos k.sb).trans_le ha.data.1).ne'

theorem Alloc.tookLeast (ha : Alloc k k1 D extra dirty held stale b) :
    TookLeast (freeBlocks k.sb k.view) (freeBlocks k.sb k1.view) b := by
  refine ⟨mem_freeBlocks.mpr ⟨ha.data.2, ha.free⟩, fun c hc => ?_, freeBlocks_erase ha.bits⟩
  exact Nat.not_lt.mp fun hlt => (mem_freeBlocks.mp hc).2 (ha.least c hlt)

theorem Alloc.slots_eq (h : FsInv k D extra dirty held stale)
    (ha : Alloc k k1 D extra dirty held stale b) {s : Slot} (hl : Live k.sb D s.inode) :
    slotAddr D k1.view s = slotAddr D k.view s := by
  apply slotAddr_congr
  intro hz
  have hu := used_indirect (v := k.view) hl hz
  refine ha.kept _ (h.owned.range _ _ hu).1 ?_ (Or.inl (h.not_dirty_indirect hl))
  rintro he
  exact (h.owned.not_used ha.data ha.free).1 _ (he ▸ hu)

def addrSlot (i j : Nat) : Slot := if j = NDIRECT then .indirect i else .direct i j

theorem addrSlot_inode (i j : Nat) : (addrSlot i j).inode = i := by
  unfold addrSlot
  split <;> rfl

theorem slotAddr_addrSlot {D : DTable} {v : View} {i j : Nat} (hj : j ≤ NDIRECT) :
    slotAddr D v (addrSlot i j) = (D i).addrs j := by
  unfold addrSlot
  split
  · rename_i he
    rw [he]
    rfl
  · rw [slotAddr, if_pos (by omega)]

theorem Alloc.assign {j : Nat} (h : FsInv k D extra dirty held (some inum))
    (ha : Alloc k k1 D extra dirty held (some inum) b) (hl : Live k.sb D inum) (hj : j ≤ NDIRECT)
    (hempty : (D inum).addrs j = 0) :
    FsInv k1 (setAddr D inum j b) extra (dirty \ {b}) held (some inum) ∧
      (∀ s, Live k.sb D s.inode → slotAddr (setAddr D inum j b) k1.view s =
        if s = addrSlot inum j then b else slotAddr D k.view s) ∧
      ∀ T : Slot → Prop, T (addrSlot inum j) →
        Grown k k1 D (setAddr D inum j b) inum T dirty := by
  have hsb := ha.rest.sb
  have hb0 := ha.ne_zero
  have hslots : ∀ s, Live k.sb D s.inode → slotAddr (setAddr D inum j b) k1.view s =
      if s = addrSlot inum j then b else slotAddr D k.view s := by
    intro s hs
    rw [← ha.slots_eq h hs]
    by_cases hjn : j = NDIRECT
    · subst hjn
      rw [addrSlot, if_pos rfl]
      exact slotAddr_setIndirect hempty ha.zero s
    · rw [addrSlot, if_neg hjn]
      exact slotAddr_setDirect (by omega) s
  have hsmall : b < 2 ^ 32 := by
    have h1 := ha.data.2
    have h2 := h.geo.small
    omega
  have hinv : FsInv k1 (setAddr D inum j b) extra (dirty \ {b}) held (some inum) := by
    refine ha.inv.setD (fun i hi => setAddr_of_ne D j b hi) ?_ (setAddr_fits h.fits hsmall hj inum) ?_
    · have hused : ∀ s c, Used k1.sb (setAddr D inum j b) k1.view s c ↔
          Used k1.sb D k1.view s c ∨ (s = addrSlot inum j ∧ c = b) := by
        rw [hsb]
        refine used_assign (by rw [addrSlot_inode]; exact hl) (by simp)
          (by rw [slotAddr_addrSlot hj, hempty]) hb0 fun s hs => ?_
        rw [hslots s hs, ha.slots_eq h hs]
      have hassign := ha.inv.owned.assign List.mem_cons_self hused
      rwa [List.erase_cons_head] at hassign
    · rw [hsb]
      intro hl' hm
      rw [setAddr_addrs] at hm
      split at hm
      · exact hm.2 rfl
      · exact h.not_dirty_indirect hl hm.1
  refine ⟨hinv, hslots, fun T hT => ⟨steady_of_sameRest ha.rest, fun i hi => setAddr_of_ne D j b hi,
    ?_, ?_, ?_⟩⟩
  · simp [setAddr, DInode.withAddr]
  · intro s hs
    rw [hslots s hs]
    split
    · rename_i he
      refine Or.inr ⟨?_, he ▸ hT⟩
      rw [he, slotAddr_addrSlot hj, hempty]
    · exact Or.inl rfl
  · intro c hc hd hne
    refine ha.kept c hc ?_ (Or.inl hd)
    rintro rfl
    refine hne _ hT ?_
    rw [hslots _ (by rw [addrSlot_inode]; exact hl), if_pos rfl]

end Assign

/-! ## The inode's own slots -/

structure Filled (k k' : Kernel) (D : DTable) (ip inum j b : Nat) (dirty : Set Nat) : Prop where
  inv : FsInv k' (setAddr D inum j b) [] (dirty \ {b}) [] (some inum)
  table : Table k'.inode k'.sb.ninodes (setAddr D inum j b)
  entry : k'.inode = Function.update k.inode ip ((k.inode ip).withDin (setAddr D inum j b inum))
  slots : ∀ s, Live k.sb D s.inode → slotAddr (setAddr D inum j b) k'.view s =
    if s = addrSlot inum j then b else slotAddr D k.view s
  grown : ∀ T : Slot → Prop, T (addrSlot inum j) → Grown k k' D (setAddr D inum j b) inum T dirty
  lh : k'.log.lh = addBlock (addBlock k.log.lh (bblock k.sb b)) b
  took : TookLeast (freeBlocks k.sb k.view) (freeBlocks k.sb k'.view) b
  ne_zero : b ≠ 0

section Bmap
variable {k k1 : Kernel} {D : DTable} {dirty : Set Nat} {inum ip : Nat} {R : Prop}
  {stale : Option Nat}

theorem Alloc.filled {j b : Nat} (h : FsInv k D [] dirty [] (some inum))
    (ht : Table k.inode k.sb.ninodes D) (ho : Opened k ip inum)
    (ha : Alloc k k1 D [] dirty [] (some inum) b) (hj : j ≤ NDIRECT)
    (hempty : (D inum).addrs j = 0) :
    Filled k (k1.setInode ip ((k1.inode ip).withDin ((k1.inode ip).din.withAddr j b)))
      D ip inum j b dirty := by
  have hl := ho.live ht
  have hin : k1.inode = k.inode := ha.rest.inode
  have hsb : k1.sb = k.sb := ha.rest.sb
  have hx : (k1.inode ip).din.withAddr j b = setAddr D inum j b inum := by
    rw [hin, ho.din ht, setAddr, update_self]
  obtain ⟨hinv, hslots, hgrown⟩ := ha.assign h hl hj hempty
  rw [hx]
  refine ⟨hinv.setInode _ _, ?_, ?_, hslots, fun T hT => ?_, ha.lh, ha.tookLeast, ha.ne_zero⟩
  · have htab := ht.setDin ho.entry ho.ref ho.valid (setAddr D inum j b inum)
      (by rw [setAddr_type]; exact hl.2.2)
    rw [setInode_inode, hin, setInode_sb, hsb]
    rw [ho.inum] at htab
    convert htab using 1
    simp [setAddr]
  · rw [setInode_inode, hin]
  · have hg := hgrown T hT
    exact ⟨hg.steady.trans (steady_setInode _ _ _), hg.off, hg.same, hg.slots, hg.kept⟩

/-! ## `bmap` -/

/-- The slots that `bmap` may fill on its way to `s₀`. -/
def OnWay (inum : Nat) (s₀ s : Slot) : Prop := s = .indirect inum ∨ s = s₀

/-- `bmap` has returned `r` for the slot `s₀`. -/
structure Mapped (k k' : Kernel) (D D' : DTable) (ip inum : Nat) (s₀ : Slot) (r : Nat)
    (dirty dirty' : Set Nat) : Prop where
  inv : FsInv k' D' [] dirty' [] (some inum)
  table : Table k'.inode k'.sb.ninodes D'
  entry : k'.inode = Function.update k.inode ip ((k.inode ip).withDin (D' inum))
  grown : Grown k k' D D' inum (OnWay inum s₀) dirty
  sub : dirty' ⊆ dirty
  logs : ∀ b ∈ k.log.lh, b ∈ k'.log.lh
  addr : slotAddr D' k'.view s₀ = r
  ne_zero : r ≠ 0
  hit : slotAddr D k.view s₀ ≠ 0 → D' = D ∧ dirty' = dirty ∧ k'.log.lh = k.log.lh ∧
    ∀ c, c ∉ dirty → k'.view c = k.view c

theorem mapped_of_hit {s₀ : Slot} {r : Nat} {k' : Kernel} (ht : Table k.inode k.sb.ninodes D)
    (ho : Opened k ip inum) (hs : slotAddr D k.view s₀ = r) (hl₀ : s₀.inode = inum) (hz : r ≠ 0)
    (h' : FsInv k' D [] dirty [] (some inum)) (h : FsInv k D [] dirty [] (some inum))
    (q : Quiet k k') (hk : Kept k k' dirty []) : Mapped k k' D D ip inum s₀ r dirty dirty := by
  have hview : ∀ c, c ∉ dirty → k'.view c = k.view c := fun c hc => hk c (Or.inl hc)
  have hslots : ∀ s, Live k.sb D s.inode → slotAddr D k'.view s = slotAddr D k.view s :=
    fun s hl => slotAddr_congr fun _ => hview _ (h.not_dirty_indirect hl)
  refine ⟨h', by rw [q.inode, q.sb]; exact ht, ?_, ?_, fun _ hc => hc,
    fun b hb => by rw [q.log]; exact hb, ?_, hz,
    fun _ => ⟨rfl, rfl, by rw [q.log], hview⟩⟩
  · rw [q.inode, ← ho.din ht]
    exact (update_eq_self ip k.inode).symm
  · exact ⟨steady_of_quiet q, fun _ _ => rfl, rfl, fun s hl => Or.inl (hslots s hl),
      fun c _ hc _ => hview c hc⟩
  · rw [hslots s₀ (by rw [hl₀]; exact ho.live ht), hs]

theorem FsInv.storeEntry {k' : Kernel} {i a b j : Nat}
    (h : FsInv k D [b] dirty [(i, a)] (some inum)) (hl : Live k.sb D inum)
    (ha : (D inum).addrs NDIRECT = a) (hz : a ≠ 0) (hj : j < NINDIRECT)
    (hempty : slotAddr D k.view (.entry inum j) = 0)
    (hs : Stored k k' a (putEntry (k.view a) j b) dirty []) : FsInv k' D [] dirty [] (some inum) ∧
      ∀ s, Live k.sb D s.inode → slotAddr D k'.view s =
        if s = .entry inum j then b else slotAddr D k.view s := by
  subst ha
  have hu := used_indirect (v := k.view) hl hz
  have hra := h.owned.range _ _ hu
  have hrb := h.owned.extra_range b (List.mem_singleton.mpr rfl)
  have hb0 : b ≠ 0 := ((datastart_pos k.sb).trans_le hrb.1).ne'
  have hlow := h.geo.inodestart_le_bmapstart.trans (bmapstart_lt_datastart k.sb).le
  have hslots : ∀ s, Live k.sb D s.inode → slotAddr D k'.view s =
      if s = .entry inum j then b else slotAddr D k.view s := by
    intro s hls
    rw [hs.view]
    refine slotAddr_setEntry hz hj (by have := h.geo.small; omega) fun hne he => hne ?_
    have hu' := used_indirect (v := k.view) hls (by rw [he]; exact hz)
    rw [he] at hu'
    exact (Slot.indirect.inj (h.owned.inj _ _ _ hu' hu))
  have hother : ∀ c, c ≠ (D inum).addrs NDIRECT → k'.view c = k.view c := fun c hc => by
    rw [hs.view, update_of_ne hc]
  have hmark : ∀ c < k.sb.size, marked k.sb k'.view c ↔ marked k.sb k.view c := fun c hc => by
    have hbb := (bblock_range hc).2
    rw [marked, hother _ (by omega), marked]
  refine ⟨?_, hslots⟩
  refine h.ofStored hs (hlow.trans hra.1) ?_ ?_ h.torn h.fits ?_ ?_
  · have hused : ∀ s c, Used k.sb D k'.view s c ↔
        Used k.sb D k.view s c ∨ (s = .entry inum j ∧ c = b) :=
      used_assign hl (fun _ => rfl) hempty hb0 hslots
    have hassign := h.owned.assign (List.mem_singleton.mpr rfl) hused
    rw [List.erase_cons_head] at hassign
    exact hassign.congr (fun _ _ => Iff.rfl) fun c _ hc => hmark c hc
  · exact fun c hc => (hmark c (hc.trans_le h.geo.data)).mpr (h.metadata c hc)
  · intro i h1 hi hne
    have hlt := (h.geo.iblock_range hi).2
    have hds := bmapstart_lt_datastart k.sb
    rw [onDisk, hother _ (by omega)]
    exact h.dinode i h1 hi hne
  · intro i hli hne bn hbn
    have hi : i ≠ inum := fun he => hne (by rw [he])
    rw [hslots _ (by rw [fileSlot_inode]; exact hli), if_neg]
    · exact h.holes i hli hne bn hbn
    · intro he
      have := congrArg Slot.inode he
      rw [fileSlot_inode] at this
      exact hi this

theorem mapped_of_entry {bp a b j : Nat} {k1 k2 k3 : Kernel} (h : FsInv k D [] dirty [] (some inum))
    (ht : Table k.inode k.sb.ninodes D) (ho : Opened k ip inum)
    (hind : (D inum).addrs NDIRECT = a) (hz : a ≠ 0) (hj : j < NINDIRECT)
    (h1 : FsInv k1 D [] dirty [(bp, a)] (some inum)) (q1 : Quiet k k1) (v1 : Kept k k1 dirty [])
    (ha : Alloc k1 k2 D [] dirty [(bp, a)] (some inum) b)
    (hempty : slotAddr D k1.view (.entry inum j) = 0)
    (hs : Stored k2 k3 a (putEntry (k2.view a) j b) (dirty \ {b}) []) :
    Mapped k k3 D D ip inum (.entry inum j) b dirty (dirty \ {b}) ∧
      TookLeast (freeBlocks k.sb k.view) (freeBlocks k.sb k3.view) b ∧
      ∀ s, Live k.sb D s.inode → slotAddr D k3.view s =
        if s = .entry inum j then b else slotAddr D k.view s := by
  have hl := ho.live ht
  have hsb2 : k2.sb = k1.sb := ha.rest.sb
  have hsb3 : k3.sb = k2.sb := hs.rest.sb
  have hl2 : Live k2.sb D inum := by rw [hsb2, q1.sb]; exact hl
  have hslots1 : ∀ s, Live k.sb D s.inode → slotAddr D k2.view s = slotAddr D k.view s := by
    intro s hls
    rw [ha.slots_eq h1 (by rw [q1.sb]; exact hls)]
    exact slotAddr_congr fun _ => v1 _ (Or.inl (h.not_dirty_indirect hls))
  have hempty2 : slotAddr D k2.view (.entry inum j) = 0 := by
    rw [ha.slots_eq h1 (by rw [q1.sb]; exact hl)]
    exact hempty
  obtain ⟨hinv, hslots⟩ := ha.inv.storeEntry hl2 hind hz hj hempty2 hs
  have hin : k3.inode = k.inode := hs.rest.inode.trans (ha.rest.inode.trans q1.inode)
  have hst : Steady k k3 := (steady_of_quiet q1).trans
    ((steady_of_sameRest ha.rest).trans hs.steady)
  have hslots3 : ∀ s, Live k.sb D s.inode → slotAddr D k3.view s =
      if s = .entry inum j then b else slotAddr D k.view s := fun s hls => by
    rw [hslots s (by rw [hsb2, q1.sb]; exact hls), hslots1 s hls]
  refine ⟨⟨hinv, by rw [hin, hst.sb]; exact ht, ?_, ⟨hst, fun _ _ => rfl, rfl, ?_, ?_⟩,
    Set.sdiff_subset, ?_, ?_, ha.ne_zero, ?_⟩, ?_, hslots3⟩
  · rw [hin, ← ho.din ht]
    exact (update_eq_self ip k.inode).symm
  · intro s hls
    rw [hslots3 s hls]
    split
    · rename_i he
      rw [he, ← hslots1 _ (show Live k.sb D (Slot.entry inum j).inode from hl)]
      exact Or.inr ⟨hempty2, Or.inr rfl⟩
    · exact Or.inl rfl
  · intro c hc hd hne
    have hca : c ≠ a := fun he => hne _ (Or.inl rfl) (hind.trans he.symm)
    have hcb : c ≠ b := fun he => hne _ (Or.inr rfl) <| by
      rw [hslots3 _ (show Live k.sb D (Slot.entry inum j).inode from hl), if_pos rfl, he]
    rw [hs.view, update_of_ne hca, ha.kept c (by rw [q1.sb]; exact hc) hcb (Or.inl hd),
      v1 c (Or.inl hd)]
  · intro c hc
    rw [hs.lh, ha.lh, q1.log]
    exact mem_addBlock.mpr (Or.inl (mem_addBlock.mpr (Or.inl (mem_addBlock.mpr (Or.inl hc)))))
  · rw [hslots3 _ (show Live k.sb D (Slot.entry inum j).inode from hl), if_pos rfl]
  · intro hne
    exact absurd ((hslots1 _ (show Live k.sb D (Slot.entry inum j).inode from hl)).symm.trans hempty2)
      hne
  · have hlow := (h1.owned.range _ _ (used_indirect (v := k1.view) (i := inum) (D := D)
      (by rw [q1.sb]; exact hl) (by rw [hind]; exact hz))).1
    have hmark3 : ∀ c < k.sb.size, marked k.sb k3.view c ↔ marked k.sb k2.view c := fun c hc => by
      have hbb := (bblock_range hc).2
      rw [q1.sb, hind] at hlow
      rw [marked, hs.view, update_of_ne (by omega), marked]
    rw [freeBlocks_congr hmark3, ← freeBlocks_congr (h.marked_of_kept v1), ← q1.sb]
    exact ha.tookLeast

theorem blockAt_of_slots {D' : DTable} {v v' : View} {s₀ : Slot} {b : Nat} (hl : Live k.sb D inum)
    (hslots : ∀ s, Live k.sb D s.inode → slotAddr D' v' s = if s = s₀ then b else slotAddr D v s)
    {bn : Nat} (hne : fileSlot inum bn ≠ s₀) : blockAt (D' inum) v' bn = blockAt (D inum) v bn := by
  rw [← slotAddr_fileSlot_eq, ← slotAddr_fileSlot_eq, hslots _ (by rw [fileSlot_inode]; exact hl),
    if_neg hne]

theorem FsInv.nodup {extra : List Nat} {held : List (Nat × Nat)}
    (h : FsInv k D extra dirty held stale) : k.log.lh.Nodup :=
  h.cache.pins_nodup

theorem WriteFits.start {b n : Nat} (h : WriteFits R k D inum b n) (hn : k.log.lh.Nodup) :
    LogRoom R k 0 :=
  h.logRoom (Steady.refl k) hn fun _ hc => mem_logAfter.mpr (Or.inl hc)

theorem blockAt_kept {k' : Kernel} (h : FsInv k D [] dirty [] stale) (hl : Live k.sb D inum)
    (hk : Kept k k' dirty []) (bn : Nat) :
    blockAt (D inum) k'.view bn = blockAt (D inum) k.view bn := by
  rw [← slotAddr_fileSlot_eq, ← slotAddr_fileSlot_eq]
  exact slotAddr_congr fun _ => hk _ (Or.inl (h.not_dirty_indirect (by rwa [fileSlot_inode])))

theorem bmapEntry_spec {bn n : Nat} (h : FsInv k D [] dirty [] (some inum))
    (ht : Table k.inode k.sb.ninodes D) (ho : Opened k ip inum)
    (hz : (D inum).addrs NDIRECT ≠ 0) (hlo : NDIRECT ≤ bn) (hbn : bn < MAXFILE)
    (hroom : WriteFits R k D inum bn (n + 1)) : wp (bmapEntry ip (bn - NDIRECT))
      (fun r k' => ∃ dirty', Mapped k k' D D ip inum (fileSlot inum bn) r dirty dirty' ∧
        Charged k k' D D inum bn r)
      (Fail R) k := by
  have hl := ho.live ht
  have hj : bn - NDIRECT < NINDIRECT := by
    have hN : MAXFILE = NDIRECT + NINDIRECT := rfl
    omega
  have hs₀ : fileSlot inum bn = .entry inum (bn - NDIRECT) := if_neg (by omega)
  have hentry : ∀ v : View, blockAt (D inum) v bn =
      getEntry (v ((D inum).addrs NDIRECT)) (bn - NDIRECT) := fun v => by
    rw [← slotAddr_fileSlot_eq, hs₀]
    exact if_pos ⟨hj, hz⟩
  rw [bmapEntry, wp_bind, wp_get, ho.dev ht, ho.din ht, hs₀]
  refine wp_bread h (by simp) ((hroom.start h.nodup).cache (by simp)) ?_
  intro bp k1 h1 q1 v1
  have hl1 : Live k1.sb D inum := by rw [q1.sb]; exact hl
  have hsame : k1.view ((D inum).addrs NDIRECT) = k.view ((D inum).addrs NDIRECT) :=
    v1 _ (Or.inl (h.not_dirty_indirect hl))
  rw [wp_bind, bufData_spec h1.cache List.mem_cons_self]
  refine wp_ite (fun he => ?_) (fun he => ?_)
  · have hmiss : blockAt (D inum) k.view bn = 0 := by rw [hentry, ← hsame, he]
    have hu := used_indirect (v := k1.view) hl1 hz
    have hheld : HeldUsed k1 [(bp, (D inum).addrs NDIRECT)] := by
      intro p hp
      rw [List.mem_singleton.mp hp]
      exact ⟨(h1.owned.range _ _ hu).1, (h1.owned.range _ _ hu).2, h1.owned.marked_of_used hu⟩
    have hfree := freeBlocks_congr (h.marked_of_kept v1)
    refine wp_then (balloc_spec h1 hheld (by simp)
      ((hroom.allocRoom h.nodup hmiss).quiet q1 hfree)) ?_
    rintro b k2 ⟨-, ha⟩
    have htook : TookLeast (freeBlocks k.sb k.view) (freeBlocks k1.sb k2.view) b := by
      rw [← hfree, ← q1.sb]
      exact ha.tookLeast
    have hmem2 : ∀ c, c ∈ k2.log.lh ↔ c ∈ k.log.lh ∨ (c = bblock k.sb b ∨ c = b) := fun c => by
      rw [ha.lh, q1.log, q1.sb, mem_addBlock, mem_addBlock, or_assoc]
    have hlog2 : LogRoom R k2 0 := by
      refine hroom.logRoom ((steady_of_quiet q1).trans (steady_of_sameRest ha.rest)) ha.inv.nodup ?_
      intro c hc
      obtain ⟨hbit, hself⟩ := mem_logAfter_of_least (n := n) hmiss htook
      rcases (hmem2 c).mp hc with hc | rfl | rfl
      · exact mem_logAfter.mpr (Or.inl hc)
      · exact hbit
      · exact hself
    rw [wp_bind, bufData_spec ha.inv.cache List.mem_cons_self]
    refine wp_store ha.inv.cache hlog2 fun k3 hs => ?_
    obtain ⟨hm, htook3, hslots⟩ := mapped_of_entry h ht ho rfl hz hj h1 q1 v1 ha
      (by rw [← hs₀, slotAddr_fileSlot_eq, hentry, he]) hs
    refine ⟨_, hm, charged_of_miss hmiss (Or.inr hz) htook3 hm.grown.steady.sb (fun c => ?_)
      (fun j hne => blockAt_of_slots hl hslots ?_) rfl⟩
    · rw [hs.lh, mem_addBlock, hmem2 c]
      simp only [hlo, true_and, or_assoc]
    · rw [← hs₀]
      exact fun he => hne (fileSlot_inj he).2
  · refine wp_brelse h1 fun k2 h2 q2 v2 => ?_
    have hk : Kept k k2 dirty [] := fun c hc => by rw [v2, v1 c hc]
    have hslot : blockAt (D inum) k.view bn =
        getEntry (k1.view ((D inum).addrs NDIRECT)) (bn - NDIRECT) := by rw [hentry, hsame]
    have q := q1.trans q2
    refine ⟨dirty, mapped_of_hit ht ho ?_ rfl he h2 h q hk, charged_of_hit (by rw [q.log]) q.sb
      (freeBlocks_congr (h.marked_of_kept hk)) (blockAt_kept h hl hk) hslot he⟩
    rw [← hs₀, slotAddr_fileSlot_eq, hslot]

theorem Filled.logs {j b : Nat} {k' : Kernel} (hf : Filled k k' D ip inum j b dirty) :
    ∀ c ∈ k.log.lh, c ∈ k'.log.lh := fun c hc => by
  rw [hf.lh]
  exact mem_addBlock.mpr (Or.inl (mem_addBlock.mpr (Or.inl hc)))

theorem Filled.mapped {j b : Nat} {k' : Kernel} {s₀ : Slot}
    (hf : Filled k k' D ip inum j b dirty) (hl : Live k.sb D inum) (hj : j ≤ NDIRECT)
    (hs₀ : s₀ = addrSlot inum j) (hempty : (D inum).addrs j = 0) :
    Mapped k k' D (setAddr D inum j b) ip inum s₀ b dirty (dirty \ {b}) := by
  refine ⟨hf.inv, hf.table, hf.entry, hf.grown _ (Or.inr hs₀.symm), Set.sdiff_subset, hf.logs, ?_,
    hf.ne_zero, fun hne => ?_⟩
  · rw [hs₀, hf.slots _ (by rw [addrSlot_inode]; exact hl), if_pos rfl]
  · rw [hs₀, slotAddr_addrSlot hj] at hne
    exact absurd hempty hne

theorem Filled.mem_lh {j b c : Nat} {k' : Kernel} (hf : Filled k k' D ip inum j b dirty) :
    c ∈ k'.log.lh ↔ c ∈ k.log.lh ∨ (c = bblock k.sb b ∨ c = b) := by
  rw [hf.lh, mem_addBlock, mem_addBlock, or_assoc]

theorem Filled.steady {j b : Nat} {k' : Kernel} (hf : Filled k k' D ip inum j b dirty) : Steady k k' :=
  (hf.grown (fun _ => True) trivial).steady

theorem Filled.charged {bn b : Nat} {k' : Kernel} (hf : Filled k k' D ip inum bn b dirty)
    (hl : Live k.sb D inum) (hd : bn < NDIRECT) (hempty : blockAt (D inum) k.view bn = 0) :
    Charged k k' D (setAddr D inum bn b) inum bn b := by
  have hs₀ : fileSlot inum bn = addrSlot inum bn := by
    rw [fileSlot, if_pos hd, addrSlot, if_neg hd.ne]
  refine charged_of_miss hempty (Or.inl hd) hf.took hf.steady.sb (fun c => ?_)
    (fun j hne => blockAt_of_slots hl hf.slots ?_) ?_
  · rw [hf.mem_lh]
    simp only [Nat.not_le.mpr hd, false_and, or_false]
  · rw [← hs₀]
    exact fun he => hne (fileSlot_inj he).2
  · rw [setAddr_addrs, if_neg (by omega)]

theorem Filled.blockAt_eq {b : Nat} {k' : Kernel} (hf : Filled k k' D ip inum NDIRECT b dirty)
    (hl : Live k.sb D inum) (bn : Nat) :
    blockAt (setAddr D inum NDIRECT b inum) k'.view bn = blockAt (D inum) k.view bn := by
  refine blockAt_of_slots hl hf.slots ?_
  rw [addrSlot, if_pos rfl]
  unfold fileSlot
  split <;> exact Slot.noConfusion

theorem Filled.spent {bn b : Nat} {k' : Kernel} (hf : Filled k k' D ip inum NDIRECT b dirty)
    (hl : Live k.sb D inum) (hempty : (D inum).addrs NDIRECT = 0) (hlo : NDIRECT ≤ bn)
    (hmiss : blockAt (D inum) k.view bn = 0) (n : Nat) :
    Spent k k' D (setAddr D inum NDIRECT b) inum bn (n + 1) bn (n + 1) :=
  spent_of_fill (hf.blockAt_eq hl) hmiss hlo hempty (by rw [setAddr_addrs, if_pos ⟨rfl, rfl⟩])
    hf.ne_zero hf.took hf.steady.sb (fun c => hf.mem_lh) n

theorem Filled.trans {k' k'' : Kernel} {j b r : Nat} {dirty' : Set Nat}
    (hf : Filled k k' D ip inum NDIRECT b dirty) (hl : Live k.sb D inum)
    (hempty : (D inum).addrs NDIRECT = 0)
    (hm : Mapped k' k'' (setAddr D inum NDIRECT b) (setAddr D inum NDIRECT b) ip inum
      (.entry inum j) r (dirty \ {b}) dirty') :
    Mapped k k'' D (setAddr D inum NDIRECT b) ip inum (.entry inum j) r dirty dirty' := by
  have hg := hf.grown (OnWay inum (.entry inum j)) (Or.inl rfl)
  refine ⟨hm.inv, hm.table, ?_, hg.trans hm.grown Set.sdiff_subset ?_,
    hm.sub.trans Set.sdiff_subset, fun b hb => hm.logs b (hf.logs b hb), hm.addr, hm.ne_zero,
    fun hne => ?_⟩
  · rw [hm.entry, hf.entry, update_self, update_idem]
    rfl
  · rintro s (rfl | rfl)
    · exact hl
    · exact hl
  · rw [slotAddr, if_neg (fun hc => hc.2 hempty)] at hne
    exact absurd rfl hne

theorem bmap_spec {bn n : Nat} (h : FsInv k D [] dirty [] (some inum))
    (ht : Table k.inode k.sb.ninodes D) (ho : Opened k ip inum) (hbn : bn < MAXFILE)
    (hroom : WriteFits R k D inum bn (n + 1)) : wp (bmap ip bn)
      (fun r k' => ∃ D' dirty', Mapped k k' D D' ip inum (fileSlot inum bn) r dirty dirty' ∧
        Charged k k' D D' inum bn r)
      (Fail R) k := by
  have hl := ho.live ht
  have hN : MAXFILE = NDIRECT + NINDIRECT := rfl
  rw [bmap, wp_bind, wp_get, ho.din ht, ho.dev ht]
  refine wp_ite (fun hd => ?_) fun hd => ?_
  · have hs₀ : fileSlot inum bn = addrSlot inum bn := by
      rw [fileSlot, if_pos hd, addrSlot, if_neg hd.ne]
    have haddr : blockAt (D inum) k.view bn = (D inum).addrs bn := by
      rw [← slotAddr_fileSlot_eq, hs₀, slotAddr_addrSlot hd.le]
    refine wp_ite (fun he => ?_) fun he => ?_
    · refine wp_then (balloc_spec h (by simp [HeldUsed]) (by simp)
        (hroom.allocRoom h.nodup (haddr.trans he))) ?_
      rintro b k1 ⟨-, ha⟩
      rw [wp_bind, setDin_spec, wp_pure]
      have hf := ha.filled h ht ho hd.le he
      exact ⟨_, _, hf.mapped hl hd.le hs₀ he, hf.charged hl hd (haddr.trans he)⟩
    · refine ⟨D, dirty, mapped_of_hit ht ho ?_ (fileSlot_inode _ _) he h h (Quiet.refl k)
        (fun _ _ => rfl), charged_of_hit rfl rfl rfl (fun _ => rfl) haddr he⟩
      rw [hs₀, slotAddr_addrSlot hd.le]
  · rw [if_pos (by omega), wp_bind, wp_when]
    constructor
    · intro he
      rw [beq_iff_eq] at he
      have hmiss : blockAt (D inum) k.view bn = 0 := by
        rw [← slotAddr_fileSlot_eq, fileSlot, if_neg hd]
        exact if_neg fun hc => hc.2 he
      refine wp_then (balloc_spec h (by simp [HeldUsed]) (by simp) (hroom.allocRoom h.nodup hmiss)) ?_
      rintro b k1 ⟨-, ha⟩
      rw [setDin_spec]
      have hf := ha.filled h ht ho le_rfl he
      have hspent := hf.spent hl he (Nat.not_lt.mp hd) hmiss
      refine wp_post (bmapEntry_spec hf.inv hf.table (ho.of_entry hf.entry) ?_ (Nat.not_lt.mp hd) hbn
        ((hspent n).fits hf.steady hroom)) ?_
      · rw [setAddr_addrs, if_pos ⟨rfl, rfl⟩]
        exact hf.ne_zero
      · rintro r k2 ⟨dirty', hm, hc⟩
        rw [fileSlot, if_neg hd] at hm ⊢
        exact ⟨_, _, hf.trans hl he hm, hc.of_fill hspent ((hf.blockAt_eq hl bn).trans hmiss)⟩
    · intro he
      rw [beq_eq_false_iff_ne] at he
      refine wp_post (bmapEntry_spec h ht ho he (Nat.not_lt.mp hd) hbn hroom) ?_
      rintro r k2 ⟨dirty', hm, hc⟩
      exact ⟨_, _, hm, hc⟩

/-- `bmap` of a block that is there only reads. -/
theorem bmap_hit_spec {bn : Nat} {extra : List Nat}
    (h : FsInv k D extra dirty [] stale) (ht : Table k.inode k.sb.ninodes D)
    (ho : Opened k ip inum) (hs : slotAddr D k.view (fileSlot inum bn) ≠ 0)
    (hroom : R → k.log.lh.length < NBUF) : wp (bmap ip bn)
      (fun r k' => r = slotAddr D k.view (fileSlot inum bn) ∧ FsInv k' D extra dirty [] stale ∧
        Quiet k k' ∧ Kept k k' dirty [])
      (Fail R) k := by
  have hbn := slotAddr_fileSlot hs
  have hN : MAXFILE = NDIRECT + NINDIRECT := rfl
  rw [bmap, wp_bind, wp_get, ho.din ht, ho.dev ht]
  refine wp_ite (fun hd => ?_) fun hd => ?_
  · rw [fileSlot, if_pos hd, slotAddr, if_pos hd] at hs ⊢
    rw [if_neg hs]
    exact ⟨rfl, h, Quiet.refl k, fun _ _ => rfl⟩
  · rw [if_pos (by omega)]
    rw [fileSlot, if_neg hd] at hs ⊢
    have hz : (D inum).addrs NDIRECT ≠ 0 := fun hz => hs (if_neg fun hc => hc.2 hz)
    have hslot : slotAddr D k.view (.entry inum (bn - NDIRECT)) =
        getEntry (k.view ((D inum).addrs NDIRECT)) (bn - NDIRECT) := if_pos ⟨by omega, hz⟩
    rw [hslot] at hs ⊢
    rw [wp_bind, wp_when]
    refine ⟨fun he => absurd (beq_iff_eq.mp he) hz, fun _ => ?_⟩
    rw [bmapEntry, wp_bind, wp_get, ho.dev ht, ho.din ht]
    refine wp_bread h (by simp) (by simpa using hroom) ?_
    intro bp k1 h1 q1 v1
    have hv := v1 _ (Or.inl (h.not_dirty_indirect (ho.live ht)))
    rw [wp_bind, bufData_spec h1.cache List.mem_cons_self, hv, if_neg hs]
    refine wp_brelse h1 fun k2 h2 q2 v2 => ?_
    exact ⟨rfl, h2, q1.trans q2, fun c hc => by rw [v2, v1 c hc]⟩

end Bmap

end Xv6.Fs
