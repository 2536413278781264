import Xv6.Fs.Ownership

/-!
# The invariant of the file system, and the block allocator

`FsInv` is what holds between any two buffer calls of the file system. In the middle of a call
one inode may be ahead of its dinode (`stale`), blocks may be in hand (`extra`), and blocks of
file data may differ from the disk although they are not logged (`dirty`).
-/

namespace Xv6.Fs

open Xv6.Foundation Xv6.Disk

set_option autoImplicit false

structure FsInv (k : Kernel) (D : DTable) (extra : List Nat) (dirty : Set Nat)
    (held : List (Nat × Nat)) (stale : Option Nat) : Prop where
  cache : CacheInv k dirty k.log.lh held
  geo : Geometry k.sb k.log
  dev : k.log.dev = ROOTDEV
  home : ∀ b ∈ k.log.lh, k.sb.inodestart ≤ b
  room : k.log.lh.length < k.log.size
  owned : Owned k.sb D k.view extra
  metadata : ∀ b < datastart k.sb, marked k.sb k.view b
  torn : ∀ b ∈ dirty, datastart k.sb ≤ b ∧ ∀ i, Live k.sb D i → (D i).addrs NDIRECT ≠ b
  fits : ∀ i, (D i).Fits
  dinode : ∀ i, 1 ≤ i → i < k.sb.ninodes → stale ≠ some i → onDisk k.sb k.view i = D i
  holes : ∀ i, Live k.sb D i → stale ≠ some i → HoleFree D k.view i

/-- The superblock and the log but for its header are as before. -/
structure Steady (k k' : Kernel) : Prop where
  sb : k'.sb = k.sb
  start : k'.log.start = k.log.start
  size : k'.log.size = k.log.size
  outstanding : k'.log.outstanding = k.log.outstanding
  committing : k'.log.committing = k.log.committing
  dev : k'.log.dev = k.log.dev

theorem Steady.refl (k : Kernel) : Steady k k := ⟨rfl, rfl, rfl, rfl, rfl, rfl⟩

theorem Steady.trans {k k' k'' : Kernel} (h : Steady k k') (h' : Steady k' k'') : Steady k k'' :=
  ⟨h'.sb.trans h.sb, h'.start.trans h.start, h'.size.trans h.size,
    h'.outstanding.trans h.outstanding, h'.committing.trans h.committing, h'.dev.trans h.dev⟩

theorem steady_of_sameRest {k k' : Kernel} (h : SameRest k k') : Steady k k' :=
  ⟨h.sb, h.start, h.size, h.outstanding, h.committing, h.dev⟩

theorem steady_of_quiet {k k' : Kernel} (h : Quiet k k') : Steady k k' :=
  steady_of_sameRest h.sameRest

theorem steady_setInode (k : Kernel) (ip : Nat) (x : Inode) : Steady k (k.setInode ip x) :=
  ⟨rfl, rfl, rfl, rfl, rfl, rfl⟩

/-- Blocks that are not dirty, or that are locked, read as before. -/
def Kept (k k' : Kernel) (dirty : Set Nat) (held : List (Nat × Nat)) : Prop :=
  ∀ c, c ∉ dirty ∨ c ∈ held.map Prod.snd → k'.view c = k.view c

section Invariant
variable {k k' : Kernel} {D : DTable} {extra : List Nat} {dirty dirty' : Set Nat}
  {held held' : List (Nat × Nat)} {stale : Option Nat}

theorem used_indirect {sb : Superblock} {v : View} {i : Nat} (hl : Live sb D i)
    (hz : (D i).addrs NDIRECT ≠ 0) : Used sb D v (.indirect i) ((D i).addrs NDIRECT) := ⟨hl, rfl, hz⟩

namespace FsInv

variable (h : FsInv k D extra dirty held stale)
include h

theorem not_dirty_meta {c : Nat} (hc : c < datastart k.sb) :
    c ∉ dirty := fun hd => absurd (h.torn c hd).1 (by omega)

theorem not_dirty_indirect {i : Nat} (hl : Live k.sb D i) :
    (D i).addrs NDIRECT ∉ dirty := fun hd => (h.torn _ hd).2 i hl rfl

/-- Steps that leave the metadata and the indirect blocks alone. -/
theorem frame (hc : CacheInv k' dirty' k'.log.lh held')
    (hs : Steady k k') (hhome : ∀ b ∈ k'.log.lh, b ∈ k.log.lh ∨ k.sb.inodestart ≤ b)
    (hroom : k'.log.lh.length < k'.log.size)
    (hmeta : ∀ c, k.sb.inodestart ≤ c → c < datastart k.sb → k'.view c = k.view c)
    (hind : ∀ i, Live k.sb D i → (D i).addrs NDIRECT ≠ 0 →
      k'.view ((D i).addrs NDIRECT) = k.view ((D i).addrs NDIRECT))
    (htorn : ∀ b ∈ dirty', b ∈ dirty ∨
      (datastart k.sb ≤ b ∧ ∀ i, Live k.sb D i → (D i).addrs NDIRECT ≠ b)) :
    FsInv k' D extra dirty' held' stale := by
  have hmark : ∀ b < k.sb.size, marked k.sb k'.view b ↔ marked k.sb k.view b := by
    intro b hb
    have hlo : k.sb.inodestart ≤ bblock k.sb b :=
      h.geo.inodestart_le_bmapstart.trans (bblock_range hb).1
    rw [marked, hmeta _ hlo (bblock_range hb).2, marked]
  have hgeo := h.geo
  refine ⟨hc, ?_, by rw [hs.dev, h.dev], ?_, hroom, ?_, ?_, ?_, h.fits, ?_, ?_⟩
  · rw [hs.sb]
    exact ⟨by rw [hs.start, hs.size]; exact hgeo.log, hgeo.inodes, hgeo.data, hgeo.small⟩
  · intro b hb
    rw [hs.sb]
    exact (hhome b hb).elim (h.home b) id
  · rw [hs.sb]
    exact h.owned.congr (used_congr hind) fun c _ hc => hmark c hc
  · intro b hb
    rw [hs.sb] at hb ⊢
    exact (hmark b (hb.trans_le hgeo.data)).mpr (h.metadata b hb)
  · intro b hb
    rw [hs.sb]
    exact (htorn b hb).elim (h.torn b) id
  · intro i h1 hi hst
    rw [hs.sb] at hi ⊢
    have hlt := (hgeo.iblock_range hi).2.trans (bmapstart_lt_datastart k.sb)
    rw [onDisk, hmeta _ (hgeo.iblock_range hi).1 hlt]
    exact h.dinode i h1 hi hst
  · intro i hl hst bn hbn
    rw [hs.sb] at hl
    rw [slotAddr_congr (v := k.view)]
    · exact h.holes i hl hst bn hbn
    · rw [fileSlot_inode]
      exact hind i hl

theorem of_kept (hc : CacheInv k' dirty k.log.lh held')
    (q : Quiet k k') (hk : Kept k k' dirty held) : FsInv k' D extra dirty held' stale := by
  refine h.frame (by rw [q.log]; exact hc) (steady_of_quiet q) (fun b hb => Or.inl ?_)
    (by rw [q.log]; exact h.room) ?_ ?_ (fun _ hb => Or.inl hb)
  · rw [q.log] at hb
    exact hb
  · exact fun c _ hlt => hk c (Or.inl (h.not_dirty_meta hlt))
  · exact fun i hl _ => hk _ (Or.inl (h.not_dirty_indirect hl))

end FsInv

/-! ## Reading and storing a block -/

variable {R : Prop} {α : Type} {i b : Nat} {d : Block} {Q : α → Kernel → Prop} {g : Unit → K α}
  {extra' : List Nat}

/-- How a call may fail: not at all where `R` promises room, and never by freeing a free block. -/
def Fail (R : Prop) : Panic → Kernel → Prop := fun e _ => ¬ R ∧ e ≠ .freeingFreeBlock

/-- Under `R`, an operation is open and there is room for `n` more blocks in the log. -/
def LogRoom (R : Prop) (k : Kernel) (n : Nat) : Prop :=
  R → 1 ≤ k.log.outstanding ∧ k.log.size = LOGSIZE ∧ k.log.lh.length + n ≤ LOGSIZE - 2

theorem wp_bread {b : Nat} {g : Nat → K α}
    (h : FsInv k D extra dirty held stale) (hb : R → b ∉ held.map Prod.snd)
    (hroom : R → held.length + k.log.lh.length < NBUF)
    (hg : ∀ i k', FsInv k' D extra dirty ((i, b) :: held) stale → Quiet k k' →
      Kept k k' dirty held → wp (g i) Q (Fail R) k') : wp (bread ROOTDEV b >>= g) Q (Fail R) k := by
  refine wp_seq (bread_spec h.cache b) ?_ ?_
  · rintro i k1 ⟨h1, q1, v1, -⟩
    have hk : Kept k k1 dirty held := fun c hc => v1 c (by tauto)
    exact hg i k1 (h.of_kept h1 q1 hk) q1 hk
  · rintro e k1 ⟨-, ⟨rfl, -, hlen⟩ | ⟨rfl, hm⟩⟩
    · exact ⟨fun hR => absurd (hroom hR) (by omega), by simp⟩
    · exact ⟨fun hR => hb hR hm, by simp⟩

/-- Contents `d` put into block `b`, logged and released. -/
structure Stored (k k' : Kernel) (b : Nat) (d : Block) (dirty : Set Nat)
    (held : List (Nat × Nat)) : Prop where
  cache : CacheInv k' (dirty \ {b}) k'.log.lh held
  lh : k'.log.lh = addBlock k.log.lh b
  rest : SameRest k k'
  before : 1 ≤ k.log.outstanding ∧ k.log.lh.length + 1 < k.log.size
  view : k'.view = Function.update k.view b d

/-- `log_write` returns only inside an operation and if there was room for one more block. -/
theorem logWrite_room (k : Kernel) (i : Nat) :
    wp (logWrite i) (fun _ _ => 1 ≤ k.log.outstanding ∧ k.log.lh.length + 1 < k.log.size)
      (fun _ _ => True) k := by
  rw [logWrite, wp_bind, wp_get, wp_bind, wp_check]
  refine ⟨fun _ => trivial, fun hbig => ?_⟩
  have hroom : k.log.lh.length + 1 < k.log.size := by
    have : ¬ (LOGSIZE ≤ k.log.lh.length ∨ k.log.size - 1 ≤ k.log.lh.length) := by simpa using hbig
    omega
  rw [wp_bind, wp_check]
  refine ⟨fun _ => trivial, fun hout => ?_⟩
  have hopen : 1 ≤ k.log.outstanding := Nat.not_lt.mp (by simpa using hout)
  unfold wp
  split
  · exact ⟨hopen, hroom⟩
  · trivial

theorem store_spec (h : CacheInv k dirty k.log.lh ((i, b) :: held)) (d : Block)
    (hroom : LogRoom R k 0) : wp (setBufData i d >>= fun _ => logWrite i >>= fun _ => brelse i)
      (fun _ k' => Stored k k' b d dirty held) (Fail R) k := by
  refine wp_sure (setBufData_spec h List.mem_cons_self d) ?_
  rintro _ k1 ⟨h1, q1, v1⟩
  rw [← q1.log] at h1
  refine wp_seq (wp_and (logWrite_spec h1 List.mem_cons_self) (logWrite_room k1 i)) ?_ ?_
  · rintro _ k2 ⟨⟨h2, l2, r2, -, -, v2⟩, hlen⟩
    rw [Set.insert_sdiff_of_mem _ (Set.mem_singleton _)] at h2
    refine wp_sure_post (brelse_spec h2 List.mem_cons_self) ?_
    rintro _ k3 ⟨h3, q3, v3⟩
    rw [List.erase_cons_head, ← q3.log] at h3
    refine ⟨h3, ?_, q1.sameRest.trans (r2.trans q3.sameRest), ?_, ?_⟩
    · rw [q3.log, l2, q1.log]
    · rw [← q1.log]
      exact hlen
    · rw [v3, v2, v1]
  · rintro e k2 ⟨⟨-, ⟨rfl, hbig⟩ | ⟨rfl, ho⟩⟩, -⟩
    · refine ⟨fun hR => ?_, by simp⟩
      obtain ⟨-, hsize, hlen⟩ := hroom hR
      rw [q1.log, hsize] at hbig
      simp only [LOGSIZE, MAXOPBLOCKS] at hbig hlen
      omega
    · refine ⟨fun hR => ?_, by simp⟩
      have hout := (hroom hR).1
      rw [q1.log] at ho
      omega

theorem wp_store (h : CacheInv k dirty k.log.lh ((i, b) :: held)) (hroom : LogRoom R k 0)
    (hg : ∀ k', Stored k k' b d dirty held → wp (g ()) Q (Fail R) k') :
    wp (setBufData i d >>= fun _ => logWrite i >>= fun _ => brelse i >>= g) Q (Fail R) k := by
  have hs := wp_post (store_spec h d hroom) (fun _ k' hk => hg k' hk)
  simpa only [wp_bind] using hs

variable (h : FsInv k D extra dirty ((i, b) :: held) stale)
include h

theorem wp_brelse (hg : ∀ k', FsInv k' D extra dirty held stale → Quiet k k' → k'.view = k.view →
      wp (g ()) Q (Fail R) k') : wp (brelse i >>= g) Q (Fail R) k := by
  refine wp_sure (brelse_spec h.cache List.mem_cons_self) ?_
  rintro _ k1 ⟨h1, q1, v1⟩
  rw [List.erase_cons_head] at h1
  exact hg k1 (h.of_kept h1 q1 fun c _ => by rw [v1]) q1 v1

omit h in
theorem Stored.steady {b : Nat} (h : Stored k k' b d dirty held) : Steady k k' :=
  steady_of_sameRest h.rest

omit h in
theorem Stored.room {b : Nat} (h : Stored k k' b d dirty held) : k'.log.lh.length < k'.log.size := by
  have hle := length_addBlock_le k.log.lh b
  have hbefore := h.before.2
  rw [h.lh, h.rest.size]
  omega

omit h in
theorem Stored.home {b : Nat} (h : Stored k k' b d dirty held)
    (hb : k.sb.inodestart ≤ b) : ∀ c ∈ k'.log.lh, c ∈ k.log.lh ∨ k.sb.inodestart ≤ c := by
  intro c hc
  rw [h.lh, mem_addBlock] at hc
  rcases hc with hc | rfl
  · exact Or.inl hc
  · exact Or.inr hb

theorem FsInv.storeData (hs : Stored k k' b d dirty held) (hb : datastart k.sb ≤ b)
    (hind : ∀ i, Live k.sb D i → (D i).addrs NDIRECT ≠ b) :
    FsInv k' D extra (dirty \ {b}) held stale := by
  have hlow := h.geo.inodestart_le_bmapstart.trans (bmapstart_lt_datastart k.sb).le
  refine h.frame hs.cache hs.steady (hs.home (hlow.trans hb)) hs.room ?_ ?_
    (fun c hc => Or.inl hc.1)
  · intro c _ hc
    rw [hs.view, Function.update_of_ne (by omega)]
  · intro i hl _
    rw [hs.view, Function.update_of_ne (hind i hl)]

theorem FsInv.ofStored {D' : DTable} {stale' : Option Nat}
    (hs : Stored k k' b d dirty held) (hb : k.sb.inodestart ≤ b)
    (howned : Owned k.sb D' k'.view extra') (hmeta : ∀ c < datastart k.sb, marked k.sb k'.view c)
    (htorn : ∀ c ∈ dirty, datastart k.sb ≤ c ∧ ∀ i, Live k.sb D' i → (D' i).addrs NDIRECT ≠ c)
    (hfits : ∀ i, (D' i).Fits)
    (hdinode : ∀ i, 1 ≤ i → i < k.sb.ninodes → stale' ≠ some i → onDisk k.sb k'.view i = D' i)
    (hholes : ∀ i, Live k.sb D' i → stale' ≠ some i → HoleFree D' k'.view i) :
    FsInv k' D' extra' dirty held stale' := by
  have hst := hs.steady
  have hgeo := h.geo
  refine ⟨hs.cache.dirty_mono Set.sdiff_subset, ?_, by rw [hst.dev, h.dev], ?_, hs.room, ?_, ?_, ?_,
    hfits, ?_, ?_⟩ <;> rw [hst.sb]
  · exact ⟨by rw [hst.start, hst.size]; exact hgeo.log, hgeo.inodes, hgeo.data, hgeo.small⟩
  · intro c hc
    exact (hs.home hb c hc).elim (h.home c) id
  · exact howned
  · exact hmeta
  · exact htorn
  · exact hdinode
  · exact hholes

theorem FsInv.storeBitmap (hs : Stored k k' b d dirty held)
    (hlo : k.sb.bmapstart ≤ b) (hhi : b < datastart k.sb) (howned : Owned k.sb D k'.view extra')
    (hmeta : ∀ b < datastart k.sb, marked k.sb k'.view b) : FsInv k' D extra' dirty held stale := by
  have hdata : ∀ c, c ≠ b → k'.view c = k.view c := fun c hc => by
    rw [hs.view, Function.update_of_ne hc]
  refine h.ofStored hs (h.geo.inodestart_le_bmapstart.trans hlo) howned hmeta h.torn h.fits ?_ ?_
  · intro i h1 hi hne
    have hlt := (h.geo.iblock_range hi).2
    rw [onDisk, hdata _ (by omega)]
    exact h.dinode i h1 hi hne
  · intro i hl hne bn hbn
    rw [slotAddr_congr (v := k.view)]
    · exact h.holes i hl hne bn hbn
    · rw [fileSlot_inode]
      intro hz
      have hr := (h.owned.range _ _ (used_indirect hl hz)).1
      exact hdata _ (by omega)

end Invariant

end Xv6.Fs
