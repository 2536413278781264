import Xv6.Fs.Alloc

/-!
# The inode table, `iupdate` and `bmap`
-/

namespace Xv6.Fs

open Xv6.Foundation Xv6.Disk Function

set_option autoImplicit false

/-! ## The table -/

/-- The entries of `itable.inode` that are in use. -/
structure Table (inode : Nat → Inode) (ninodes : Nat) (D : DTable) : Prop where
  unique : ∀ i < NINODE, ∀ j < NINODE, 0 < (inode i).ref → 0 < (inode j).ref →
    (inode i).inum = (inode j).inum → i = j
  dev : ∀ i < NINODE, 0 < (inode i).ref → (inode i).dev = ROOTDEV
  valid : ∀ i < NINODE, 0 < (inode i).ref → (inode i).valid = true →
    1 ≤ (inode i).inum ∧ (inode i).inum < ninodes ∧ (inode i).din = D (inode i).inum ∧
      (D (inode i).inum).type ≠ 0

/-- Entry `ip` is in use and has been read from inode `inum`. -/
structure Opened (k : Kernel) (ip inum : Nat) : Prop where
  entry : ip < NINODE
  ref : 0 < (k.inode ip).ref
  valid : (k.inode ip).valid = true
  inum : (k.inode ip).inum = inum

section Table
variable {inode : Nat → Inode} {ninodes ip : Nat} {D : DTable}

variable (h : Table inode ninodes D)
include h

theorem Table.replace {D' : DTable} {x : Inode} (hx : 0 < x.ref → x.dev = ROOTDEV ∧
      (∀ j < NINODE, j ≠ ip → 0 < (inode j).ref → (inode j).inum ≠ x.inum) ∧
      (x.valid = true → 1 ≤ x.inum ∧ x.inum < ninodes ∧ x.din = D' x.inum ∧ (D' x.inum).type ≠ 0))
    (hD : ∀ j < NINODE, j ≠ ip → 0 < (inode j).ref → (inode j).valid = true →
      D' (inode j).inum = D (inode j).inum) : Table (update inode ip x) ninodes D' := by
  refine ⟨?_, ?_, ?_⟩
  · intro i hi j hj hri hrj hij
    by_cases hie : i = ip <;> by_cases hje : j = ip
    · rw [hie, hje]
    · subst hie
      rw [update_self] at hri hij
      rw [update_of_ne hje] at hrj hij
      exact absurd hij.symm ((hx hri).2.1 j hj hje hrj)
    · subst hje
      rw [update_self] at hrj hij
      rw [update_of_ne hie] at hri hij
      exact absurd hij ((hx hrj).2.1 i hi hie hri)
    · rw [update_of_ne hie] at hri hij
      rw [update_of_ne hje] at hrj hij
      exact h.unique i hi j hj hri hrj hij
  · intro i hi hri
    by_cases hie : i = ip
    · subst hie
      rw [update_self] at hri ⊢
      exact (hx hri).1
    · rw [update_of_ne hie] at hri ⊢
      exact h.dev i hi hri
  · intro i hi hri hvi
    by_cases hie : i = ip
    · subst hie
      rw [update_self] at hri hvi ⊢
      exact (hx hri).2.2 hvi
    · rw [update_of_ne hie] at hri hvi ⊢
      rw [hD i hi hie hri hvi]
      exact h.valid i hi hri hvi

theorem Table.inum_ne (hip : ip < NINODE) (href : 0 < (inode ip).ref) :
    ∀ j < NINODE, j ≠ ip → 0 < (inode j).ref → (inode j).inum ≠ (inode ip).inum :=
  fun j hj hne hrj he => hne (h.unique j hj ip hip hrj href he)

theorem Table.setDin (hip : ip < NINODE) (href : 0 < (inode ip).ref)
    (hv : (inode ip).valid = true) (x : DInode) (hx : x.type ≠ 0) :
    Table (update inode ip ((inode ip).withDin x)) ninodes
      (update D (inode ip).inum x) := by
  obtain ⟨h1, h2, -, -⟩ := h.valid ip hip href hv
  refine h.replace (fun _ => ⟨h.dev ip hip href, h.inum_ne hip href, fun _ => ⟨h1, h2, ?_, ?_⟩⟩)
    fun j hj hne hrj _ => update_of_ne (h.inum_ne hip href j hj hne hrj) _ _
  · simp [Inode.withDin]
  · simpa [Inode.withDin] using hx

theorem Table.touch {x : Inode} (hip : ip < NINODE)
    (href : 0 < (inode ip).ref) (hdev : x.dev = (inode ip).dev) (hinum : x.inum = (inode ip).inum)
    (hdin : x.din = (inode ip).din) (hv : x.valid = true → (inode ip).valid = true) :
    Table (update inode ip x) ninodes D := by
  refine h.replace (fun _ => ⟨hdev.trans (h.dev ip hip href), ?_, fun hx => ?_⟩) fun _ _ _ _ _ => rfl
  · rw [hinum]
    exact h.inum_ne hip href
  · rw [hinum, hdin]
    exact h.valid ip hip href (hv hx)

end Table

/-- What holds at the boundaries of operations. -/
structure Sound (k : Kernel) (D : DTable) (dirty : Set Nat) : Prop where
  inv : FsInv k D [] dirty [] none
  table : Table k.inode k.sb.ninodes D

theorem setDin_spec {k : Kernel} (ip : Nat) (f : DInode → DInode) (Q : Unit → Kernel → Prop)
    (E : Panic → Kernel → Prop) :
    wp (setDin ip f) Q E k ↔ Q () (k.setInode ip ((k.inode ip).withDin (f (k.inode ip).din))) :=
  Iff.rfl

section Inodes
variable {k k' : Kernel} {D D' : DTable} {extra extra' : List Nat} {dirty : Set Nat}
  {held : List (Nat × Nat)} {stale : Option Nat} {inum ip : Nat} {R : Prop} {x : DInode}

namespace FsInv

theorem setInode (h : FsInv k D extra dirty held stale) (ip : Nat) (x : Inode) :
    FsInv (k.setInode ip x) D extra dirty held stale :=
  ⟨{ h.cache with }, h.geo, h.dev, h.home, h.room, h.owned, h.metadata, h.torn, h.fits, h.dinode, h.holes⟩

theorem weaken (h : FsInv k D extra dirty held none) (inum : Nat) :
    FsInv k D extra dirty held (some inum) :=
  { h with
    dinode := fun i h1 hi _ => h.dinode i h1 hi (by simp)
    holes := fun i hl _ => h.holes i hl (by simp) }

theorem setD (h : FsInv k D extra dirty held (some inum)) (hoff : ∀ i, i ≠ inum → D' i = D i)
    (howned : Owned k.sb D' k.view extra') (hfits : (D' inum).Fits)
    (htorn : Live k.sb D' inum → (D' inum).addrs NDIRECT ∉ dirty) :
    FsInv k D' extra' dirty held (some inum) := by
  have hlive : ∀ i, i ≠ inum → (Live k.sb D' i ↔ Live k.sb D i) := fun i hi => by
    rw [Live, hoff i hi, Live]
  refine ⟨h.cache, h.geo, h.dev, h.home, h.room, howned, h.metadata, ?_, ?_, ?_, ?_⟩
  · intro b hb
    refine ⟨(h.torn b hb).1, fun i hl => ?_⟩
    by_cases hi : i = inum
    · subst hi
      exact fun he => htorn hl (he ▸ hb)
    · rw [hoff i hi]
      exact (h.torn b hb).2 i ((hlive i hi).mp hl)
  · intro i
    by_cases hi : i = inum
    · rw [hi]
      exact hfits
    · rw [hoff i hi]
      exact h.fits i
  · intro i h1 hlt hne
    have hi : i ≠ inum := fun he => hne (by rw [he])
    rw [hoff i hi]
    exact h.dinode i h1 hlt hne
  · intro i hl hne bn hbn
    have hi : i ≠ inum := fun he => hne (by rw [he])
    rw [hoff i hi] at hbn
    have hs : slotAddr D' k.view (fileSlot i bn) = slotAddr D k.view (fileSlot i bn) := by
      unfold fileSlot
      split <;> simp only [slotAddr, hoff i hi]
    rw [hs]
    exact h.holes i ((hlive i hi).mp hl) hne bn hbn

end FsInv

theorem Sound.touch {x : Inode} (h : Sound k D dirty) (hip : ip < NINODE)
    (href : 0 < (k.inode ip).ref) (hdev : x.dev = (k.inode ip).dev)
    (hinum : x.inum = (k.inode ip).inum) (hdin : x.din = (k.inode ip).din)
    (hv : x.valid = true → (k.inode ip).valid = true) : Sound (k.setInode ip x) D dirty :=
  ⟨h.inv.setInode ip x, h.table.touch hip href hdev hinum hdin hv⟩

theorem freshDInode_fits {t : Nat} (ht : t < 2 ^ 16) : (freshDInode t).Fits :=
  ⟨ht, by simp [freshDInode], by simp [freshDInode], by simp [freshDInode], by simp [freshDInode],
    fun _ => by simp [freshDInode], fun _ _ => rfl⟩

theorem eq_of_iblock_eq {sb : Superblock} {i j : Nat} (h : iblock sb i = iblock sb j)
    (hm : i % IPB = j % IPB) : i = j := by
  unfold iblock at h
  have hd : i / IPB = j / IPB := by omega
  rw [← Nat.div_add_mod i IPB, ← Nat.div_add_mod j IPB, hd, hm]

theorem FsInv.storeDInode {i : Nat} (h : FsInv k D extra dirty ((i, iblock k.sb inum) :: held) stale)
    (hs : Stored k k' (iblock k.sb inum)
      (putDInode (k.view (iblock k.sb inum)) (inum % IPB) (D' inum)) dirty held)
    (hr : inum < k.sb.ninodes) (hstale : stale = none ∨ stale = some inum)
    (hoff : ∀ i, i ≠ inum → D' i = D i) (howned : Owned k.sb D' k.view extra')
    (hfits : (D' inum).Fits) (htorn : Live k.sb D' inum → (D' inum).addrs NDIRECT ∉ dirty)
    (hholes : Live k.sb D' inum → HoleFree D' k.view inum) :
    FsInv k' D' extra' dirty held none := by
  have hgeo := h.geo
  have hib := hgeo.iblock_range hr
  have hlow := bmapstart_lt_datastart k.sb
  have hother : ∀ c, c ≠ iblock k.sb inum → k'.view c = k.view c := fun c hc => by
    rw [hs.view, update_of_ne hc]
  have h1 : FsInv k D' extra' dirty ((i, iblock k.sb inum) :: held) (some inum) := by
    rcases hstale with rfl | rfl
    · exact (h.weaken inum).setD hoff howned hfits htorn
    · exact h.setD hoff howned hfits htorn
  have hind : ∀ i, Live k.sb D' i → (D' i).addrs NDIRECT ≠ 0 →
      k'.view ((D' i).addrs NDIRECT) = k.view ((D' i).addrs NDIRECT) := fun i hl hz => by
    have hlo := (howned.range _ _ (used_indirect hl hz)).1
    exact hother _ (by omega)
  have hmark : ∀ b < k.sb.size, marked k.sb k'.view b ↔ marked k.sb k.view b := fun b hb => by
    have hbb := (bblock_range hb).1
    rw [marked, hother _ (by omega), marked]
  refine h.ofStored hs hib.1 ?_ ?_ h1.torn h1.fits ?_ ?_
  · exact howned.congr (used_congr hind) fun c _ hc => hmark c hc
  · exact fun b hb => (hmark b (hb.trans_le hgeo.data)).mpr (h.metadata b hb)
  · intro j hj hlt _
    rw [onDisk, hs.view]
    by_cases hji : j = inum
    · subst hji
      rw [update_self, getDInode_putDInode_self _ _ hfits]
    · by_cases hblk : iblock k.sb j = iblock k.sb inum
      · rw [hblk, update_self, getDInode_putDInode_of_ne, ← hblk]
        · exact h1.dinode j hj hlt (by simpa using Ne.symm hji)
        · exact fun hm => hji (eq_of_iblock_eq hblk hm)
      · rw [update_of_ne hblk]
        exact h1.dinode j hj hlt (by simpa using Ne.symm hji)
  · intro j hl _ bn hbn
    rw [slotAddr_congr (v := k.view)]
    · by_cases hji : j = inum
      · subst hji
        exact hholes hl bn hbn
      · exact h1.holes j hl (by simpa using Ne.symm hji) bn hbn
    · rw [fileSlot_inode]
      exact hind j hl

theorem iupdate_spec (h : FsInv k D extra dirty held stale) (hdev : (k.inode ip).dev = ROOTDEV)
    (hr : (k.inode ip).inum < k.sb.ninodes) (hdin : (k.inode ip).din = D (k.inode ip).inum)
    (hstale : stale = none ∨ stale = some (k.inode ip).inum)
    (hholes : Live k.sb D (k.inode ip).inum → HoleFree D k.view (k.inode ip).inum)
    (hheld : HeldUsed k held) (hlen : R → held.length ≤ 1) (hroom : LogRoom R k 0) : wp (iupdate ip)
      (fun _ k' => FsInv k' D extra dirty held none ∧ SameRest k k' ∧
        k'.log.lh = addBlock k.log.lh (iblock k.sb (k.inode ip).inum) ∧
        (∀ c, datastart k.sb ≤ c → c ∉ dirty ∨ c ∈ held.map Prod.snd → k'.view c = k.view c) ∧
        (∀ c < k.sb.size, marked k.sb k'.view c ↔ marked k.sb k.view c) ∧
        1 ≤ k.log.outstanding ∧ k.log.lh.length + 1 < k.log.size)
      (Fail R) k := by
  have hib := h.geo.iblock_range hr
  have hlow := bmapstart_lt_datastart k.sb
  rw [iupdate, wp_bind, wp_get, hdev]
  refine wp_bread h (fun _ hm => ?_) (hroom.cache hlen) ?_
  · obtain ⟨p, hp, he⟩ := List.mem_map.mp hm
    have := (hheld p hp).1
    omega
  intro i k1 h1 q1 v1
  have hsb : k1.sb = k.sb := q1.sb
  have hview : ∀ c, c < datastart k.sb → k1.view c = k.view c := fun c hc =>
    v1 c (Or.inl (h.not_dirty_meta hc))
  rw [wp_bind, bufData_spec h1.cache List.mem_cons_self, hdin]
  refine wp_post (store_spec h1.cache _ (hroom.quiet q1)) ?_
  rintro _ k2 hs
  have howned := h1.owned
  rw [hsb] at howned
  have hholes1 : Live k.sb D (k.inode ip).inum → HoleFree D k1.view (k.inode ip).inum := by
    intro hl bn hbn
    rw [slotAddr_congr (v := k.view)]
    · exact hholes hl bn hbn
    · rw [fileSlot_inode]
      exact fun _ => v1 _ (Or.inl (h.not_dirty_indirect hl))
  rw [← hsb] at h1 hs
  refine ⟨h1.storeDInode hs (by rw [hsb]; exact hr) hstale (fun _ _ => rfl) (by rw [hsb]; exact howned)
    (h.fits _) (by rw [hsb]; exact fun hl => h.not_dirty_indirect hl) (by rw [hsb]; exact hholes1),
    q1.sameRest.trans hs.rest, ?_, ?_, ?_, by rw [← q1.log]; exact hs.before⟩
  · rw [hs.lh, q1.log, hsb]
  · intro c hc hk
    rw [hs.view, update_of_ne (by rw [hsb]; omega), v1 c hk]
  · intro c hc
    have hbb := bblock_range hc
    rw [marked, hs.view, update_of_ne (by rw [hsb]; omega), hview _ hbb.2, marked]

variable (ho : Opened k ip inum)
include ho

theorem Opened.live (ht : Table k.inode k.sb.ninodes D) : Live k.sb D inum := by
  obtain ⟨h1, h2, -, h4⟩ := ht.valid ip ho.entry ho.ref ho.valid
  rw [ho.inum] at h1 h2 h4
  exact ⟨h1, h2, h4⟩

theorem Opened.din (ht : Table k.inode k.sb.ninodes D) : (k.inode ip).din = D inum := by
  have := (ht.valid ip ho.entry ho.ref ho.valid).2.2.1
  rwa [ho.inum] at this

theorem Opened.dev (ht : Table k.inode k.sb.ninodes D) :
    (k.inode ip).dev = ROOTDEV := ht.dev ip ho.entry ho.ref

theorem Opened.of_entry {k' : Kernel}
    (he : k'.inode = update k.inode ip ((k.inode ip).withDin x)) : Opened k' ip inum := by
  refine ⟨ho.entry, ?_, ?_, ?_⟩
  · simpa [he, Inode.withDin] using ho.ref
  · simpa [he, Inode.withDin] using ho.valid
  · simpa [he, Inode.withDin] using ho.inum

theorem Opened.quiet {k' : Kernel} (q : Quiet k k') : Opened k' ip inum :=
  ⟨ho.entry, by rw [q.inode]; exact ho.ref, by rw [q.inode]; exact ho.valid,
    by rw [q.inode]; exact ho.inum⟩

omit ho in
theorem FsInv.setField (h : FsInv k D extra dirty held (some inum))
    (hx : x.Fits) (htype : x.type = (D inum).type) (haddrs : x.addrs = (D inum).addrs) :
    FsInv k (update D inum x) extra dirty held (some inum) := by
  have heq : ∀ i, (update D inum x i).type = (D i).type ∧
      (update D inum x i).addrs = (D i).addrs := fun i => by
    by_cases hi : i = inum
    · subst hi
      simp [htype, haddrs]
    · simp [hi]
  refine h.setD (fun i hi => update_of_ne hi _ _) ?_ (by simpa using hx) ?_
  · exact h.owned.congr (used_of_addrs (fun i => (heq i).1) fun i => (heq i).2)
      fun _ _ _ => Iff.rfl
  · intro hl
    rw [(heq inum).2]
    exact h.not_dirty_indirect ((live_congr fun i => (heq i).1).mp hl)

theorem Opened.setField (ht : Table k.inode k.sb.ninodes D)
    (h : FsInv k D extra dirty held (some inum)) (hx : x.Fits)
    (htype : x.type = (D inum).type) (haddrs : x.addrs = (D inum).addrs) :
    FsInv (k.setInode ip ((k.inode ip).withDin x)) (update D inum x) extra dirty held
        (some inum) ∧
      Table (k.setInode ip ((k.inode ip).withDin x)).inode k.sb.ninodes
        (update D inum x) := by
  refine ⟨(h.setField hx htype haddrs).setInode _ _, ?_⟩
  have htab := ht.setDin ho.entry ho.ref ho.valid x (by rw [htype]; exact (ho.live ht).2.2)
  rwa [ho.inum] at htab

end Inodes

end Xv6.Fs
