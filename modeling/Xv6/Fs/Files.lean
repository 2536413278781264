import Xv6.Fs.Bmap

/-!
# `readi` and `writei`

Both loops go block by block. `Written` is what some rounds of `writei` have done: the bytes of
the range are in the file, every block of it is there and logged, and nothing of another inode
has changed.
-/

namespace Xv6.Fs

open Xv6.Foundation Xv6.Disk Function

set_option autoImplicit false

/-! ## Bytes of a file -/

def fileByte (D : DTable) (v : View) (i o : Nat) : Byte :=
  v (slotAddr D v (fileSlot i (o / BSIZE))) (o % BSIZE)

/-- The number of blocks that `n` bytes at `off` lie in. -/
def touched (off n : Nat) : Nat := if n = 0 then 0 else (off + n - 1) / BSIZE + 1 - off / BSIZE

theorem touched_succ {off n len : Nat} (hn : 0 < n) (hlen : len = min n (BSIZE - off % BSIZE)) :
    touched off n = touched (off + len) (n - len) + 1 := by
  unfold touched BSIZE at *
  split <;> split <;> omega

theorem touched_next {off n len : Nat} (hlen : len = min n (BSIZE - off % BSIZE)) :
    touched (off + len) (n - len) = 0 ∨ (off + len) / BSIZE = off / BSIZE + 1 := by
  unfold touched BSIZE at *
  split <;> omega

theorem block_of_range {off len o : Nat} (hlen : len ≤ BSIZE - off % BSIZE) (h1 : off ≤ o)
    (h2 : o < off + len) : o / BSIZE = off / BSIZE ∧ o % BSIZE - off % BSIZE = o - off ∧
      off % BSIZE ≤ o % BSIZE ∧ o % BSIZE < off % BSIZE + len := by
  unfold BSIZE at *
  omega

theorem outside_range {off len o : Nat} (hb : o / BSIZE = off / BSIZE)
    (h : ¬ (off ≤ o ∧ o < off + len)) :
    ¬ (off % BSIZE ≤ o % BSIZE ∧ o % BSIZE < off % BSIZE + len) := by
  unfold BSIZE at *
  omega

/-- `n` bytes have been written at `off`. When not `ok`, the last block was left torn. -/
structure Written (k k' : Kernel) (D D' : DTable) (ip inum off n : Nat)
    (ok : Prop) (dirty dirty' : Set Nat) : Prop where
  inv : FsInv k' D' [] dirty' [] (some inum)
  table : Table k'.inode k'.sb.ninodes D'
  entry : k'.inode = Function.update k.inode ip ((k.inode ip).withDin (D' inum))
  grown : Grown k k' D D' inum (fun s => s.inode = inum) dirty
  sub : ok → dirty' ⊆ dirty
  logs : ∀ b ∈ k.log.lh, b ∈ k'.log.lh
  logged : ∀ o, off ≤ o → o < off + n →
    slotAddr D' k'.view (fileSlot inum (o / BSIZE)) ≠ 0 ∧
      slotAddr D' k'.view (fileSlot inum (o / BSIZE)) ∈ k'.log.lh

/-- What a write that was not cut short does to the bytes of the file, whatever blocks of other files
are torn. -/
structure Exact (k k' : Kernel) (D D' : DTable) (inum : Nat) (src : Bytes) (off n : Nat)
    (dirty dirty' : Set Nat) : Prop where
  sub : dirty' ⊆ dirty
  bytes : ∀ o, off ≤ o → o < off + n → fileByte D' k'.view inum o = src (o - off)
  clean : ∀ o, off ≤ o → o < off + n →
    slotAddr D' k'.view (fileSlot inum (o / BSIZE)) ∉ dirty'
  rest : ∀ o, ¬ (off ≤ o ∧ o < off + n) → slotAddr D k.view (fileSlot inum (o / BSIZE)) ≠ 0 →
    slotAddr D k.view (fileSlot inum (o / BSIZE)) ∉ dirty →
      fileByte D' k'.view inum o = fileByte D k.view inum o

section Written
variable {k k1 k2 k3 : Kernel} {D D' D'' : DTable} {ip inum off n n' r bp : Nat} {src : Bytes}
  {ok : Prop} {dirty dirty1 dirty2 : Set Nat} {R : Prop} {extra : List Nat} {dirty' : Set Nat}
  {stale : Option Nat} {d : Block}

theorem Grown.mono {T T' : Slot → Prop} (h : Grown k k1 D D' inum T dirty)
    (hT : ∀ s, T s → T' s) : Grown k k1 D D' inum T' dirty :=
  ⟨h.steady, h.off, h.same, fun s hl => (h.slots s hl).imp_right fun hc => ⟨hc.1, hT s hc.2⟩,
    fun c hc hd hne => h.kept c hc hd fun s hs => hne s (hT s hs)⟩

theorem Grown.live {T : Slot → Prop} (h : Grown k k1 D D' inum T dirty) {i : Nat} :
    Live k1.sb D' i ↔ Live k.sb D i := by
  rw [h.steady.sb]
  exact live_congr h.type

theorem written_refl (h : FsInv k D [] dirty [] (some inum)) (ht : Table k.inode k.sb.ninodes D)
    (ho : Opened k ip inum) (off : Nat) : Written k k D D ip inum off 0 ok dirty dirty := by
  refine ⟨h, ht, ?_, ⟨Steady.refl k, fun _ _ => rfl, rfl, fun _ _ => Or.inl rfl, fun _ _ _ _ => rfl⟩,
    fun _ _ hb => hb, fun _ hb => hb, fun o h1 h2 => absurd h2 (by omega)⟩
  rw [← ho.din ht]
  exact (update_eq_self ip k.inode).symm

theorem Written.trans (h : Written k k1 D D' ip inum off n True dirty dirty1)
    (h' : Written k1 k2 D' D'' ip inum (off + n) n' ok dirty1 dirty2)
    (hl : Live k.sb D inum) : Written k k2 D D'' ip inum off (n + n') ok dirty dirty2 := by
  have hsub := h.sub trivial
  have hstable : ∀ bn, slotAddr D' k1.view (fileSlot inum bn) ≠ 0 →
      slotAddr D'' k2.view (fileSlot inum bn) = slotAddr D' k1.view (fileSlot inum bn) :=
    fun bn hz => h'.grown.slot_of_ne_zero (by rw [fileSlot_inode]; exact h.grown.live.mpr hl) hz
  refine ⟨h'.inv, h'.table, ?_, h.grown.trans h'.grown hsub ?_, fun ho => (h'.sub ho).trans hsub,
    fun b hb => h'.logs b (h.logs b hb), fun o h1 h2 => ?_⟩
  · rw [h'.entry, h.entry, update_self, update_idem]
    rfl
  · rintro s rfl
    exact hl
  · by_cases hlt : o < off + n
    · obtain ⟨hz, hm⟩ := h.logged o h1 hlt
      rw [hstable _ hz]
      exact ⟨hz, h'.logs _ hm⟩
    · exact h'.logged o (by omega) (by omega)

theorem exact_refl (src : Bytes) (off : Nat) : Exact k k D D inum src off 0 dirty dirty :=
  ⟨fun _ hb => hb, fun o h1 h2 => absurd h2 (by omega), fun o h1 h2 => absurd h2 (by omega),
    fun _ _ _ _ => rfl⟩

theorem Exact.trans (h : Exact k k1 D D' inum src off n dirty dirty1)
    (h' : Exact k1 k2 D' D'' inum (fun o => src (n + o)) (off + n) n' dirty1 dirty2)
    (hw : Written k k1 D D' ip inum off n True dirty dirty1)
    (hw' : Grown k1 k2 D' D'' inum (fun s => s.inode = inum) dirty1) (hl : Live k.sb D inum) :
    Exact k k2 D D'' inum src off (n + n') dirty dirty2 := by
  have hlive : ∀ bn, Live k.sb D (fileSlot inum bn).inode := fun bn => by
    rw [fileSlot_inode]
    exact hl
  refine ⟨h'.sub.trans h.sub, fun o h1 h2 => ?_, fun o h1 h2 => ?_, fun o hn hz hd => ?_⟩
  · by_cases hlt : o < off + n
    · rw [h'.rest o (by omega) (hw.logged o h1 hlt).1 (h.clean o h1 hlt)]
      exact h.bytes o h1 hlt
    · rw [h'.bytes o (by omega) (by omega)]
      congr 1
      omega
  · by_cases hlt : o < off + n
    · rw [hw'.slot_of_ne_zero (hw.grown.live.mpr (hlive _)) (hw.logged o h1 hlt).1]
      exact fun hm => h.clean o h1 hlt (h'.sub hm)
    · exact h'.clean o (by omega) (by omega)
  · have hsame := hw.grown.slot_of_ne_zero (hlive _) hz
    rw [h'.rest o (by omega) (by rw [hsame]; exact hz)
      (by rw [hsame]; exact fun hm => hd (h.sub hm)), h.rest o (by omega) hz hd]

/-! ## One round -/

theorem Used.ne_indirect {sb : Superblock} {v : View} {i j bn c : Nat}
    (howned : Owned sb D v extra) (hu : Used sb D v (fileSlot j bn) c) (hl : Live sb D i) :
    (D i).addrs NDIRECT ≠ c := by
  intro he
  have hz : (D i).addrs NDIRECT ≠ 0 := he ▸ hu.nonzero
  have hc := howned.inj _ _ _ (used_indirect (v := v) hl hz) (he ▸ hu)
  unfold fileSlot at hc
  split at hc <;> cases hc

theorem Mapped.data {bn : Nat} (hm : Mapped k k1 D D' ip inum (fileSlot inum bn) r dirty dirty1)
    (hl : Live k.sb D inum) : Used k1.sb D' k1.view (fileSlot inum bn) r ∧
      ∀ i, Live k1.sb D' i → (D' i).addrs NDIRECT ≠ r := by
  have hu : Used k1.sb D' k1.view (fileSlot inum bn) r :=
    ⟨by rw [fileSlot_inode]; exact hm.grown.live.mpr hl, hm.addr, hm.ne_zero⟩
  exact ⟨hu, fun i hli => hu.ne_indirect hm.inv.owned hli⟩

theorem Mapped.store {bn : Nat}
    (hm : Mapped k k1 D D' ip inum (fileSlot inum bn) r dirty dirty1) (hl : Live k.sb D inum)
    (q : Quiet k1 k2) (hk : Kept k1 k2 dirty1 []) (hst : Steady k2 k3)
    (hview : k3.view = update k2.view r d) :
    (∀ s, Live k.sb D s.inode → slotAddr D' k3.view s = slotAddr D' k1.view s) ∧
      Grown k k3 D D' inum (fun s => s.inode = inum) dirty := by
  obtain ⟨hu, hind⟩ := hm.data hl
  have hother : ∀ c, c ≠ r → c ∉ dirty1 → k3.view c = k1.view c := fun c hc hd => by
    rw [hview, update_of_ne hc, hk c (Or.inl hd)]
  have hslots : ∀ s, Live k.sb D s.inode → slotAddr D' k3.view s = slotAddr D' k1.view s :=
    fun s hs => by
      have hs1 := hm.grown.live.mpr hs
      exact slotAddr_congr fun _ => hother _ (hind _ hs1) (hm.inv.not_dirty_indirect hs1)
  have hT : ∀ s, OnWay inum (fileSlot inum bn) s → s.inode = inum := by
    rintro s (rfl | rfl)
    · rfl
    · exact fileSlot_inode inum bn
  have hg := hm.grown.mono hT
  refine ⟨hslots, hg.steady.trans ((steady_of_quiet q).trans hst), hg.off, hg.same, ?_, ?_⟩
  · intro s hs
    rw [hslots s hs]
    exact hg.slots s hs
  · intro c hc hd hne
    have hcr : c ≠ r := by
      rintro rfl
      refine hne (fileSlot inum bn) (fileSlot_inode inum bn) ?_
      rw [hslots _ (by rw [fileSlot_inode]; exact hl), hm.addr]
    rw [hother c hcr fun hm' => hd (hm.sub hm')]
    refine hg.kept c hc hd fun s hs => ?_
    rw [← hslots s (by rw [show s.inode = inum from hs]; exact hl)]
    exact hne s hs

section
variable (hm : Mapped k k1 D D' ip inum (fileSlot inum (off / BSIZE)) r dirty dirty1)
include hm

theorem Mapped.exact {len : Nat}
    (hl : Live k.sb D inum) (hlen : len ≤ BSIZE - off % BSIZE) (q : Quiet k1 k2)
    (hk : Kept k1 k2 dirty1 [])
    (hs : Stored k2 k3 r (blit (k2.view r) (off % BSIZE) src len) dirty1 []) :
    Exact k k3 D D' inum src off len dirty (dirty1 \ {r}) := by
  obtain ⟨hu, -⟩ := hm.data hl
  obtain ⟨hslots, hgrown⟩ := hm.store hl q hk hs.steady hs.view
  have hlive : ∀ bn, Live k.sb D (fileSlot inum bn).inode := fun bn => by
    rw [fileSlot_inode]
    exact hl
  have haddr : slotAddr D' k3.view (fileSlot inum (off / BSIZE)) = r := by
    rw [hslots _ (hlive _), hm.addr]
  refine ⟨Set.sdiff_subset.trans hm.sub, fun o h1 h2 => ?_, fun o h1 h2 => ?_, fun o hn hz hd => ?_⟩
  · obtain ⟨hb, hsub, hlo, hhi⟩ := block_of_range hlen h1 h2
    rw [fileByte, hb, haddr, hs.view, update_self, blit, if_pos ⟨hlo, hhi⟩, hsub]
  · rw [(block_of_range hlen h1 h2).1, haddr]
    exact fun hmem => hmem.2 rfl
  · have hd1 : slotAddr D k.view (fileSlot inum (o / BSIZE)) ∉ dirty1 := fun hc => hd (hm.sub hc)
    have hold : slotAddr D' k3.view (fileSlot inum (o / BSIZE)) =
        slotAddr D k.view (fileSlot inum (o / BSIZE)) := hgrown.slot_of_ne_zero (hlive _) hz
    rw [fileByte, fileByte, hold, hs.view]
    by_cases hb : o / BSIZE = off / BSIZE
    · -- the same block: it was there, and the offset is beside the piece
      have hr : slotAddr D k.view (fileSlot inum (o / BSIZE)) = r := by rw [← hold, hb, haddr]
      rw [hr] at hd1 hd
      rw [hr, update_self, blit, if_neg (outside_range hb hn), hk r (Or.inl hd1),
        (hm.hit (by rw [← hb]; exact hz)).2.2.2 r hd]
    · have hu' : Used k1.sb D' k1.view (fileSlot inum (o / BSIZE))
          (slotAddr D k.view (fileSlot inum (o / BSIZE))) :=
        ⟨hm.grown.live.mpr (hlive _), by rw [← hold, hslots _ (hlive _)], hz⟩
      have hne : slotAddr D k.view (fileSlot inum (o / BSIZE)) ≠ r := fun he =>
        hb (fileSlot_inj (hm.inv.owned.inj _ _ _ hu' (by rw [he]; exact hu))).2
      rw [update_of_ne hne, hk _ (Or.inl hd1),
        hm.grown.kept _ (by rw [← hm.grown.steady.sb]; exact (hm.inv.owned.range _ _ hu').1) hd]
      rintro s (rfl | rfl) he
      · exact hu'.ne_indirect hm.inv.owned (hm.grown.live.mpr hl) he
      · exact hne (he.symm.trans hm.addr)

theorem Mapped.written {len : Nat}
    (hl : Live k.sb D inum) (hlen : len ≤ BSIZE - off % BSIZE) (q : Quiet k1 k2)
    (hk : Kept k1 k2 dirty1 []) (h2 : FsInv k2 D' [] dirty1 [(bp, r)] (some inum))
    (hs : Stored k2 k3 r (blit (k2.view r) (off % BSIZE) src len) dirty1 []) :
    Written k k3 D D' ip inum off len True dirty (dirty1 \ {r}) := by
  obtain ⟨hu, hind⟩ := hm.data hl
  obtain ⟨hslots, hgrown⟩ := hm.store hl q hk hs.steady hs.view
  have hsb : k2.sb = k1.sb := q.sb
  have haddr : slotAddr D' k3.view (fileSlot inum (off / BSIZE)) = r := by
    rw [hslots _ (by rw [fileSlot_inode]; exact hl), hm.addr]
  have hmem : r ∈ k3.log.lh := by
    rw [hs.lh]
    exact mem_addBlock.mpr (Or.inr rfl)
  have hin : k3.inode = k1.inode := hs.rest.inode.trans q.inode
  have hlogs : ∀ b ∈ k1.log.lh, b ∈ k3.log.lh := fun b hb => by
    rw [hs.lh, q.log]
    exact mem_addBlock.mpr (Or.inl hb)
  refine ⟨h2.storeData hs ?_ ?_, ?_, by rw [hin, hm.entry], hgrown,
    fun _ => Set.sdiff_subset.trans hm.sub, ?_, ?_⟩
  · rw [hsb]
    exact (hm.inv.owned.range _ _ hu).1
  · rw [hsb]
    exact hind
  · rw [hin, hs.rest.sb, hsb]
    exact hm.table
  · exact fun b hb => hlogs b (hm.logs b hb)
  · intro o h1 h2
    rw [(block_of_range hlen h1 h2).1, haddr]
    exact ⟨hm.ne_zero, hmem⟩

/-- A round whose copy failed: the buffer has changed, but it is not logged. -/
theorem Mapped.torn (hl : Live k.sb D inum) (q : Quiet k1 k2) (hk : Kept k1 k2 dirty1 [])
    (h2 : FsInv k2 D' [] dirty1 [(bp, r)] (some inum)) (hc : CacheInv k3 (insert r dirty1) k2.log.lh [])
    (q3 : Quiet k2 k3) (hview : k3.view = update k2.view r d) :
    Written k k3 D D' ip inum off 0 False dirty (insert r dirty1) := by
  obtain ⟨hu, hind⟩ := hm.data hl
  obtain ⟨hslots, hgrown⟩ := hm.store hl q hk (steady_of_quiet q3) hview
  have hsb : k2.sb = k1.sb := q.sb
  have hin : k3.inode = k1.inode := q3.inode.trans q.inode
  have hr := (hm.inv.owned.range _ _ hu).1
  refine ⟨h2.frame (by rw [q3.log]; exact hc) (steady_of_quiet q3) (fun b hb => Or.inl ?_)
    (by rw [q3.log]; exact h2.room) ?_ ?_ ?_, ?_,
    by rw [hin, hm.entry], hgrown, fun hf => hf.elim, ?_, fun o h1 h2 => absurd h2 (by omega)⟩
  · rwa [q3.log] at hb
  · intro c _ hlt
    rw [hview, update_of_ne (by rw [hsb] at hlt; omega)]
  · intro i hli _
    rw [hview, update_of_ne (hind i (by rw [← hsb]; exact hli))]
  · rintro b (rfl | hb)
    · rw [hsb]
      exact Or.inr ⟨hr, hind⟩
    · exact Or.inl hb
  · rw [hin, q3.sb, hsb]
    exact hm.table
  · intro b hb
    rw [q3.log, q.log]
    exact hm.logs b hb

end

/-! ## The loop of `writei` -/

theorem Mapped.spent {b n : Nat} (hm : Mapped k k1 D D' ip inum (fileSlot inum b) r dirty dirty1)
    (hc : Charged k k1 D D' inum b r) (hl : Live k.sb D inum) (q : Quiet k1 k2)
    (hk : Kept k1 k2 dirty1 []) (hs : Stored k2 k3 r d dirty1 []) :
    Spent k k3 D D' inum b (n + 1) (b + 1) n := by
  have hdata := (hm.inv.owned.range _ _ (hm.data hl).1).1
  have hmark : ∀ c < k1.sb.size, marked k1.sb k3.view c ↔ marked k1.sb k1.view c := fun c hc => by
    have hbb := (bblock_range hc).2
    rw [marked, hs.view, update_of_ne (by omega), hk _ (Or.inl (hm.inv.not_dirty_meta hbb)), marked]
  refine hc.spent (hs.rest.sb.trans q.sb) (fun c => ?_) (freeBlocks_congr hmark) (fun bn => ?_) n
  · rw [hs.lh, mem_addBlock, q.log]
  · rw [← slotAddr_fileSlot_eq, ← slotAddr_fileSlot_eq]
    exact (hm.store hl q hk hs.steady hs.view).1 _ (by rw [fileSlot_inode]; exact hl)

/-- The loop of `writei` has come to its end from `tot` with `p`. What it has logged is what a write of
`w` blocks logs, of all blocks if it was not cut short. -/
def WriteEnd (R : Prop) (m : Mem) (k : Kernel) (D : DTable) (ip inum : Nat) (dirty : Set Nat)
    (src off tot n : Nat) (p : Nat × Nat) (k' : Kernel) : Prop :=
  tot ≤ p.1 ∧ p.1 ≤ n ∧ p.2 = off + (p.1 - tot) ∧ (m.Covers src (n - tot) → p.1 = n) ∧
    LogRoom R k' 0 ∧
    (∃ w ≤ touched off (n - tot), (p.1 = n → w = touched off (n - tot)) ∧
      k'.log.lh.toFinset = logAfter k D inum (off / BSIZE) w) ∧
    ∃ D' dirty', Written k k' D D' ip inum off (p.1 - tot) (p.1 = n) dirty dirty' ∧
      (p.1 = n → Exact k k' D D' inum (fun o => m.byte (src + o)) off (p.1 - tot) dirty dirty' ∧
        Spent k k' D D' inum (off / BSIZE) (touched off (n - tot)) 0 0)

theorem Mapped.logged {b : Nat} (hm : Mapped k k1 D D' ip inum (fileSlot inum b) r dirty dirty1)
    (hc : Charged k k1 D D' inum b r) :
    ∃ w ≤ 1, k1.log.lh.toFinset = logAfter k D inum b w := by
  by_cases hmiss : blockAt (D inum) k.view b = 0
  · exact ⟨1, le_rfl, hc.logged_of_miss hmiss⟩
  · refine ⟨0, Nat.zero_le _, ?_⟩
    rw [logAfter_zero, (hm.hit (by rwa [slotAddr_fileSlot_eq])).2.2.1]

theorem writeEnd_self {m : Mem} {src b : Nat} (h : FsInv k D [] dirty [] (some inum))
    (ht : Table k.inode k.sb.ninodes D) (ho : Opened k ip inum)
    (hroom : WriteFits R k D inum b n') :
    WriteEnd R m k D ip inum dirty src off n n (n, off) k := by
  refine ⟨le_rfl, le_rfl, by simp, fun _ => rfl, hroom.start h.nodup,
    ⟨0, Nat.zero_le _, fun _ => by simp [touched], (logAfter_zero ..).symm⟩, D, dirty, ?_, fun _ => ?_⟩
  · rw [Nat.sub_self]
    exact written_refl h ht ho _
  · rw [Nat.sub_self]
    exact ⟨exact_refl _ _, (spent_refl k D inum (off / BSIZE) 0).done 0⟩

theorem writeiLoop_spec (m : Mem) (fuel src off tot n : Nat) (hfuel : n - tot ≤ fuel)
    (htot : tot ≤ n) (h : FsInv k D [] dirty [] (some inum)) (ht : Table k.inode k.sb.ninodes D)
    (ho : Opened k ip inum) (hmax : off + (n - tot) ≤ MAXFILE * BSIZE)
    (hroom : WriteFits R k D inum (off / BSIZE) (touched off (n - tot))) :
    wp (writeiLoop ip m fuel src off tot n) (WriteEnd R m k D ip inum dirty src off tot n)
      (Fail R) k := by
  induction fuel generalizing k D dirty src off tot with
  | zero =>
    have he : tot = n := by omega
    rw [he] at hroom ⊢
    exact writeEnd_self h ht ho hroom
  | succ fuel ih =>
    rw [writeiLoop]
    refine wp_ite (fun hlt => ?_) fun hge => ?_
    swap
    · have he : tot = n := by omega
      rw [he] at hroom ⊢
      exact writeEnd_self h ht ho hroom
    have hl := ho.live ht
    set len := min (n - tot) (BSIZE - off % BSIZE) with hlen
    have hpos : 0 < len := by
      have := Nat.mod_lt off (show 0 < BSIZE by decide)
      omega
    rw [touched_succ (by omega) hlen] at hroom
    have hbn : off / BSIZE < MAXFILE := Nat.div_lt_of_lt_mul (by rw [Nat.mul_comm]; omega)
    refine wp_then (bmap_spec h ht ho hbn hroom) ?_
    rintro r k1 ⟨D1, dirty1, hm, hcharged⟩
    have ho1 : Opened k1 ip inum := ho.of_entry hm.entry
    have hlog1 := hcharged.logRoom hroom hm.grown.steady hm.inv.nodup
    rw [wp_bind, wp_get, ho1.dev hm.table]
    refine wp_bread hm.inv (by simp) (hlog1.cache (by simp)) ?_
    intro bp k2 h2 q2 v2
    rw [wp_bind, bufData_spec h2.cache List.mem_cons_self]
    obtain ⟨t, htlen, hcov, hcopy⟩ := eitherCopyin_spec m (k2.view r) (off % BSIZE) src len
    dsimp only
    rw [hcopy]
    by_cases htl : t = len
    · subst htl
      rw [decide_eq_true rfl]
      refine wp_store h2.cache (hlog1.quiet q2) fun k3 hs => ?_
      have hw := hm.written hl (by omega) q2 v2 h2 hs
      have hex := hm.exact hl (by omega) q2 v2 hs
      have ho3 : Opened k3 ip inum := ho.of_entry hw.entry
      have hsub : n - (tot + len) = n - tot - len := by omega
      have hnext : ∀ w ≤ touched (off + len) (n - tot - len),
          Spent k k3 D D1 inum (off / BSIZE) (w + 1) ((off + len) / BSIZE) w := fun w hle => by
        have hround := hm.spent (n := w) hcharged hl q2 v2 hs
        rcases touched_next hlen with h0 | hnext
        · obtain rfl : w = 0 := by omega
          exact hround.done _
        · rw [hnext]
          exact hround
      have hspent := hnext _ le_rfl
      refine wp_post (ih (src + len) (off + len) (tot + len) (by omega) (by omega) hw.inv hw.table ho3
        (by omega) (by rw [hsub]; exact hspent.fits hw.grown.steady hroom)) ?_
      rintro ⟨t', o'⟩ k4 ⟨hge, hle, heq, hall, hlog, ⟨w, hwle, hwall, hlogged⟩, D', dirty', hw', hdone'⟩
      rw [hsub] at hwle hwall
      have hsum : t' - tot = len + (t' - (tot + len)) := by
        simp only at hge
        omega
      simp only [Nat.add_assoc] at hw' hdone'
      refine ⟨by omega, hle, by simp only at heq ⊢; omega, fun hc => ?_, hlog,
        ⟨w + 1, ?_, fun hn => ?_, hlogged.trans (hnext w hwle).logs⟩, D', dirty', ?_, fun hn => ?_⟩
      · exact hall (by rw [hsub]; exact hc.tail (by omega))
      · rw [touched_succ (by omega) hlen]
        omega
      · rw [touched_succ (by omega) hlen, hwall hn]
      · simp only [hsum]
        exact hw.trans hw' hl
      · obtain ⟨hex', hspent'⟩ := hdone' hn
        rw [hsub] at hspent'
        simp only [hsum]
        refine ⟨hex.trans hex' hw hw'.grown hl, ?_⟩
        rw [touched_succ (by omega) hlen]
        exact hspent.trans hspent'
    · rw [decide_eq_false htl]
      refine wp_sure (setBufData_spec h2.cache List.mem_cons_self _) ?_
      rintro _ k3 ⟨h3, q3, v3⟩
      refine wp_sure (brelse_spec h3 List.mem_cons_self) ?_
      rintro _ k4 ⟨h4, q4, v4⟩
      rw [List.erase_cons_head] at h4
      have hw : Written k k4 D D1 ip inum off 0 False dirty
          (insert r dirty1) :=
        hm.torn hl q2 v2 h2 h4 (q3.trans q4) (by rw [v4, v3])
      have hne : ¬ tot = n := by omega
      have q := q2.trans (q3.trans q4)
      obtain ⟨w, hwle, hlogged⟩ := hm.logged hcharged
      refine ⟨le_rfl, htot, by simp, fun hc => ?_, hlog1.quiet q,
        ⟨w, by rw [touched_succ (by omega) hlen]; omega, fun he => absurd he hne,
          by rw [q.log]; exact hlogged⟩, D1, insert r dirty1, ?_, fun he => absurd he hne⟩
      · exact absurd (hcov (hc.mono (by omega))) htl
      · rw [Nat.sub_self]
        simpa only [hne] using hw

/-! ## `writei` -/

/-- `writei` has written `n` bytes at `off`, the size and the dinode included. -/
structure FileWritten (k k' : Kernel) (D D' : DTable) (ip inum off n : Nat)
    (ok : Prop) (dirty dirty' : Set Nat) : Prop where
  inv : FsInv k' D' [] dirty' [] none
  table : Table k'.inode k'.sb.ninodes D'
  entry : k'.inode = Function.update k.inode ip ((k.inode ip).withDin (D' inum))
  steady : Steady k k'
  other : ∀ i, i ≠ inum → D' i = D i
  same : D' inum = { D inum with addrs := (D' inum).addrs, size := max (D inum).size (off + n) }
  sub : ok → dirty' ⊆ dirty
  logged : ∀ o, off ≤ o → o < off + n →
    slotAddr D' k'.view (fileSlot inum (o / BSIZE)) ≠ 0 ∧
      slotAddr D' k'.view (fileSlot inum (o / BSIZE)) ∈ k'.log.lh
  slots : ∀ s, Live k.sb D s.inode → slotAddr D' k'.view s = slotAddr D k.view s ∨
    (slotAddr D k.view s = 0 ∧ s.inode = inum)
  kept : ∀ c, datastart k.sb ≤ c → c ∉ dirty → c ∉ dirty' →
    (∀ s, s.inode = inum → slotAddr D' k'.view s ≠ c) → k'.view c = k.view c

def grownSize (D : DTable) (inum sz : Nat) : DTable :=
  Function.update D inum ((D inum).withSize (max (D inum).size sz))

theorem grownSize_addrs (sz i : Nat) : (grownSize D inum sz i).addrs = (D i).addrs := by
  unfold grownSize
  by_cases hi : i = inum
  · subst hi
    simp [DInode.withSize]
  · simp [hi]

theorem Written.holeFree (hw : Written k k1 D D' ip inum off n ok dirty dirty')
    (hl : Live k.sb D inum) (hh : HoleFree D k.view inum) (hoff : off ≤ (D inum).size) :
    HoleFree (grownSize D' inum (off + n)) k1.view inum := by
  intro bn hbn
  rw [slotAddr_of_addrs (fun i => grownSize_addrs _ i)]
  rw [grownSize, update_self] at hbn
  simp only [DInode.withSize, hw.grown.size] at hbn
  by_cases hlt : bn * BSIZE < (D inum).size
  · rw [hw.grown.slot_of_ne_zero (by rw [fileSlot_inode]; exact hl) (hh bn hlt)]
    exact hh bn hlt
  · have hz := (hw.logged (bn * BSIZE) (by omega) (by omega)).1
    rwa [Nat.mul_div_cancel bn (show 0 < BSIZE by decide)] at hz

theorem Exact.tail (hex : Exact k k1 D D' inum src off n dirty dirty')
    (hw : Written k k1 D D' ip inum off n ok dirty dirty') (hl : Live k.sb D inum)
    (hslots : ∀ bn, slotAddr D'' k2.view (fileSlot inum bn) = slotAddr D' k1.view (fileSlot inum bn))
    (hview : ∀ c, datastart k.sb ≤ c → c ∉ dirty' → k2.view c = k1.view c) :
    Exact k k2 D D'' inum src off n dirty dirty' := by
  have hlive : ∀ bn, Live k.sb D (fileSlot inum bn).inode := fun bn => by
    rw [fileSlot_inode]
    exact hl
  have hbyte : ∀ o, slotAddr D' k1.view (fileSlot inum (o / BSIZE)) ≠ 0 →
      slotAddr D' k1.view (fileSlot inum (o / BSIZE)) ∉ dirty' →
      fileByte D'' k2.view inum o = fileByte D' k1.view inum o := fun o hz hd => by
    have hu : Used k1.sb D' k1.view (fileSlot inum (o / BSIZE)) _ :=
      ⟨hw.grown.live.mpr (hlive _), rfl, hz⟩
    rw [fileByte, fileByte, hslots, hview _ ?_ hd]
    rw [← hw.grown.steady.sb]
    exact (hw.inv.owned.range _ _ hu).1
  refine ⟨hex.sub, fun o h1 h2 => ?_, fun o h1 h2 => ?_, fun o hn hz hd => ?_⟩
  · rw [hbyte o (hw.logged o h1 h2).1 (hex.clean o h1 h2)]
    exact hex.bytes o h1 h2
  · rw [hslots]
    exact hex.clean o h1 h2
  · have hsame := hw.grown.slot_of_ne_zero (hlive _) hz
    rw [hbyte o (by rw [hsame]; exact hz) (by rw [hsame]; exact fun hm => hd (hex.sub hm))]
    exact hex.rest o hn hz hd

theorem wp_growSize (ho : Opened k ip inum) (ht : Table k.inode k.sb.ninodes D) (sz : Nat)
    (Q : Unit → Kernel → Prop) (E : Panic → Kernel → Prop) :
    wp (when (decide ((k.inode ip).din.size < sz)) (setDin ip (·.withSize sz))) Q E k ↔
      Q () (k.setInode ip ((k.inode ip).withDin ((D inum).withSize (max (D inum).size sz)))) := by
  rw [wp_when, setDin_spec, ho.din ht]
  by_cases hlt : (D inum).size < sz
  · rw [Nat.max_eq_right hlt.le]
    simp [hlt]
  · have hsame : k.setInode ip ((k.inode ip).withDin ((D inum).withSize (D inum).size)) = k := by
      rw [← ho.din ht]
      exact congrArg (fun i => { k with inode := i }) (update_eq_self ip k.inode)
    rw [Nat.max_eq_left (by omega), hsame]
    simp [hlt]

theorem writeiTail_spec (hw : Written k k1 D D' ip inum off n ok dirty dirty')
    (hex : ok → Exact k k1 D D' inum src off n dirty dirty')
    (ho : Opened k ip inum) (ht : Table k.inode k.sb.ninodes D) (hh : HoleFree D k.view inum)
    (hoff : off ≤ (D inum).size) (hmax : off + n ≤ MAXFILE * BSIZE) (hlog : LogRoom R k1 0)
    (w : Int) :
    wp (when (decide ((k1.inode ip).din.size < off + n)) (setDin ip (·.withSize (off + n))) >>=
        fun _ => iupdate ip >>= fun _ => pure w)
      (fun r k' => r = w ∧ (1 ≤ k1.log.outstanding ∧ k1.log.lh.length + 1 < k1.log.size) ∧
        k'.log.lh = addBlock k1.log.lh (iblock k.sb inum) ∧
        ∃ D', FileWritten k k' D D' ip inum off n ok dirty dirty' ∧
        (ok → Exact k k' D D' inum src off n dirty dirty'))
      (Fail R) k1 := by
  have hl := ho.live ht
  have ho1 : Opened k1 ip inum := ho.of_entry hw.entry
  have hfits : ((D' inum).withSize (max (D' inum).size (off + n))).Fits := by
    have hf := hw.inv.fits inum
    have hcap : MAXFILE * BSIZE < 2 ^ 32 := by decide
    exact { hf with size := by simp only [DInode.withSize]; have := hf.size; omega }
  obtain ⟨hinv2, htab2⟩ := ho1.setField hw.table hw.inv hfits rfl rfl
  rw [wp_bind, wp_growSize ho1 hw.table]
  set x := (D' inum).withSize (max (D' inum).size (off + n))
  have hin2 : (k1.setInode ip ((k1.inode ip).withDin x)).inode =
      update k.inode ip ((k.inode ip).withDin (grownSize D' inum (off + n) inum)) := by
    rw [setInode_inode, hw.entry, update_idem, update_self, grownSize, update_self]
    rfl
  have hst2 := steady_setInode k1 ip ((k1.inode ip).withDin x)
  have hview2 : (k1.setInode ip ((k1.inode ip).withDin x)).view = k1.view := rfl
  have ho2 : Opened (k1.setInode ip ((k1.inode ip).withDin x)) ip inum := ho1.of_entry rfl
  set k2 := k1.setInode ip ((k1.inode ip).withDin x)
  have hsb2 : k2.sb = k.sb := hst2.sb.trans hw.grown.steady.sb
  refine wp_then (iupdate_spec (R := R) hinv2 (ho2.dev htab2) (by rw [ho2.inum, hsb2]; exact hl.2.1)
    (by rw [ho2.inum]; exact ho2.din htab2) (Or.inr (by rw [ho2.inum]))
    (by rw [ho2.inum]; exact fun _ => hw.holeFree hl hh hoff) (by simp [HeldUsed]) (by simp)
    (hlog.mono hst2 le_rfl)) ?_
  rintro _ k3 ⟨h3, r3, l3, v3, -, hbefore⟩
  have hst3 := (hw.grown.steady.trans hst2).trans (steady_of_sameRest r3)
  have hslots3 : ∀ s, Live k.sb D s.inode →
      slotAddr (grownSize D' inum (off + n)) k3.view s = slotAddr D' k1.view s := by
    intro s hs
    rw [slotAddr_of_addrs fun i => grownSize_addrs _ i]
    have hs1 := hw.grown.live.mpr hs
    exact slotAddr_congr fun hz => v3 _ (by
      rw [hsb2, ← hw.grown.steady.sb]
      exact (hw.inv.owned.range _ _ (used_indirect (v := k1.view) hs1 hz)).1)
        (Or.inl (hw.inv.not_dirty_indirect hs1))
  have hlive : ∀ bn, Live k.sb D (fileSlot inum bn).inode := fun bn => by
    rw [fileSlot_inode]
    exact hl
  have hexact : ok → Exact k k3 D (grownSize D' inum (off + n)) inum src off n dirty dirty' :=
    fun hok => (hex hok).tail hw hl (fun bn => hslots3 _ (hlive bn)) fun c hc hd => by
      rw [v3 c (by rw [hsb2]; exact hc) (Or.inl hd), hview2]
  refine ⟨rfl, hbefore, by rw [l3, hsb2, ho2.inum]; rfl, grownSize D' inum (off + n),
    ⟨h3, ?_, by rw [r3.inode, hin2], hst3, ?_, ?_, hw.sub, ?_, ?_, ?_⟩, hexact⟩
  · rw [r3.inode, r3.sb]
    exact htab2
  · intro i hi
    rw [grownSize, update_of_ne hi, hw.grown.off i hi]
  · rw [grownSize, update_self, hw.grown.same]
    rfl
  · intro o h1 h2
    obtain ⟨hz, hm⟩ := hw.logged o h1 h2
    rw [hslots3 _ (hlive _), l3]
    exact ⟨hz, mem_addBlock.mpr (Or.inl hm)⟩
  · intro s hs
    rw [hslots3 s hs]
    exact hw.grown.slots s hs
  · intro c hc hd hd' hne
    rw [v3 c (by rw [hsb2]; exact hc) (Or.inl hd'), hview2]
    refine hw.grown.kept c hc hd fun s hs => ?_
    rw [← hslots3 s (by rw [show s.inode = inum from hs]; exact hl)]
    exact hne s hs

theorem writei_exact (m : Mem) (w : Nat) (h : FsInv k D [] dirty [] none)
    (ht : Table k.inode k.sb.ninodes D) (ho : Opened k ip inum) (hoff : off ≤ (D inum).size)
    (hmax : off + n ≤ MAXFILE * BSIZE)
    (hroom : WriteFits R k D inum (off / BSIZE) (touched off n)) : wp (writei ip m w off n)
      (fun r k' => ∃ t : Nat, r = t ∧ t ≤ n ∧ (m.Covers w n → t = n) ∧
        (t = n → Fits k D inum (off / BSIZE) (touched off n)) ∧
        (∃ b ≤ touched off n, (t = n → b = touched off n) ∧
          k'.log.lh.toFinset = insert (iblock k.sb inum) (logAfter k D inum (off / BSIZE) b)) ∧
        ∃ D' dirty', FileWritten k k' D D' ip inum off t (t = n) dirty dirty' ∧
        (t = n → Exact k k' D D' inum (fun o => m.byte (w + o)) off t dirty dirty'))
      (Fail R) k := by
  have hl := ho.live ht
  have hcap : MAXFILE * BSIZE < 2 ^ 32 := by decide
  have hmod : (off + n) % 2 ^ 32 = off + n := Nat.mod_eq_of_lt (by omega)
  rw [writei, wp_bind, wp_get, ho.din ht, hmod, if_neg (by omega), if_neg (by omega)]
  refine wp_then (writeiLoop_spec (R := R) m n w off 0 n (by omega) (by omega) (h.weaken inum) ht ho
    (by omega) (by rw [Nat.sub_zero]; exact hroom)) ?_
  rintro ⟨t, o'⟩ k1 ⟨-, hle, heq, hall, hlog, ⟨b, hble, hball, hlogged⟩, D', dirty', hw, hdone⟩
  simp only [Nat.sub_zero] at heq hall hw hle hdone hble hball
  subst heq
  rw [wp_bind, wp_get]
  refine wp_post (writeiTail_spec hw (fun hn => (hdone hn).1) ho ht (h.holes inum hl (by simp)) hoff
    (by omega) hlog _) ?_
  rintro _ k2 ⟨rfl, hbefore, hlh, D'', hf, hex'⟩
  refine ⟨t, rfl, hle, hall, fun hn => ?_, ⟨b, hble, hball, ?_⟩, D'', dirty', hf, hex'⟩
  · exact (hdone hn).2.fits_of_logged hw.grown.steady hw.inv.nodup hbefore
  · ext c
    rw [List.mem_toFinset, hlh, mem_addBlock, Finset.mem_insert, ← hlogged, List.mem_toFinset, or_comm]

theorem writei_spec (m : Mem) (w : Nat) (h : FsInv k D [] dirty [] none)
    (ht : Table k.inode k.sb.ninodes D) (ho : Opened k ip inum) (hoff : off ≤ (D inum).size)
    (hmax : off + n ≤ MAXFILE * BSIZE)
    (hroom : WriteFits R k D inum (off / BSIZE) (touched off n)) : wp (writei ip m w off n)
      (fun r k' => ∃ t : Nat, r = t ∧ t ≤ n ∧ (m.Covers w n → t = n) ∧ ∃ D' dirty',
        FileWritten k k' D D' ip inum off t (t = n) dirty dirty')
      (Fail R) k :=
  wp_post (writei_exact m w h ht ho hoff hmax hroom)
    (fun _ _ ⟨t, hr, hle, hall, _, _, D', dirty', hf, _⟩ => ⟨t, hr, hle, hall, D', dirty', hf⟩)

theorem FileWritten.whole (hw : FileWritten k k1 D D' ip inum off n ok dirty dirty')
    (hex : Exact k k1 D D' inum src off n dirty dirty') (hl : Live k.sb D inum)
    (hh : HoleFree D k.view inum) (hoff : off ≤ (D inum).size)
    (hwhole : ∀ bn, bn * BSIZE < (D inum).size → slotAddr D k.view (fileSlot inum bn) ∉ dirty) :
    ∀ bn, bn * BSIZE < (D' inum).size → slotAddr D' k1.view (fileSlot inum bn) ∉ dirty' := by
  intro bn hbn
  rw [hw.same] at hbn
  by_cases hlt : bn * BSIZE < (D inum).size
  · rcases hw.slots (fileSlot inum bn) (by rw [fileSlot_inode]; exact hl) with he | ⟨hz, -⟩
    · rw [he]
      exact fun hm => hwhole bn hlt (hex.sub hm)
    · exact absurd hz (hh bn hlt)
  · have hclean := hex.clean (bn * BSIZE) (by omega) (by simp only at hbn; omega)
    rwa [Nat.mul_div_cancel bn (show 0 < BSIZE by decide)] at hclean

theorem writei_refused {E : Panic → Kernel → Prop} (m : Mem) (w : Nat)
    (hbig : MAXFILE * BSIZE < off + n) (hwrap : off + n < 2 ^ 32) :
    wp (writei ip m w off n) (fun r k' => r = -1 ∧ k' = k) E k := by
  rw [writei, wp_bind, wp_get, Nat.mod_eq_of_lt hwrap]
  refine wp_ite (fun _ => ⟨rfl, rfl⟩) fun _ => ?_
  rw [if_pos hbig]
  exact ⟨rfl, rfl⟩

/-- A write inside one block that is there needs no free block. -/
theorem writei_hit (m : Mem) (w : Nat) (h : FsInv k D [] dirty [] none)
    (ht : Table k.inode k.sb.ninodes D) (ho : Opened k ip inum) (hoff : off ≤ (D inum).size)
    (hmax : off + n ≤ MAXFILE * BSIZE) (hn : 0 < n) (hone : n ≤ BSIZE - off % BSIZE)
    (hz : slotAddr D k.view (fileSlot inum (off / BSIZE)) ≠ 0) (hcov : m.Covers w n)
    (hroom : LogRoom R k 1) : wp (writei ip m w off n)
      (fun r k' => r = n ∧ ∃ D' dirty',
        FileWritten k k' D D' ip inum off n True dirty dirty' ∧
        Exact k k' D D' inum (fun o => m.byte (w + o)) off n dirty dirty')
      (Fail R) k := by
  have hl := ho.live ht
  have hcap : MAXFILE * BSIZE < 2 ^ 32 := by decide
  have hmod : (off + n) % 2 ^ 32 = off + n := Nat.mod_eq_of_lt (by omega)
  rw [writei, wp_bind, wp_get, ho.din ht, hmod, if_neg (by omega), if_neg (by omega)]
  obtain ⟨n', rfl⟩ : ∃ n', n = n' + 1 := ⟨n - 1, by omega⟩
  have hcache : R → k.log.lh.length < NBUF := fun hR => by
    have hlen := (hroom hR).2.2
    exact (Nat.lt_of_succ_le hlen).trans (by decide)
  have hlen : min (n' + 1 - 0) (BSIZE - off % BSIZE) = n' + 1 := by omega
  rw [writeiLoop, if_pos hn, bind_assoc]
  refine wp_then (bmap_hit_spec (h.weaken inum) ht ho hz hcache) ?_
  rintro r k1 ⟨rfl, h1, q1, v1⟩
  have hm := mapped_of_hit ht ho rfl (fileSlot_inode _ _) hz h1 (h.weaken inum) q1 v1
  have hroom1 := hroom.quiet q1
  rw [bind_assoc, wp_bind, wp_get, (ho.quiet q1).dev hm.table, bind_assoc]
  refine wp_bread hm.inv (by simp) (hroom1.cache (by simp)) ?_
  intro bp k2 h2 q2 v2
  rw [bind_assoc, wp_bind, bufData_spec h2.cache List.mem_cons_self]
  obtain ⟨t, htlen, hall, hcopy⟩ := eitherCopyin_spec m
    (k2.view (slotAddr D k.view (fileSlot inum (off / BSIZE)))) (off % BSIZE) w (n' + 1)
  obtain rfl := hall hcov
  dsimp only
  rw [hlen, hcopy, decide_eq_true rfl]
  simp only [bind_assoc]
  have hroom2 := hroom1.quiet q2
  refine wp_store h2.cache (hroom2.mono (Steady.refl k2) (by omega)) fun k3 hs => ?_
  have hw := hm.written hl hone q2 v2 h2 hs
  have hex := hm.exact hl hone q2 v2 hs
  have hlog3 : LogRoom R k3 0 := hroom2.mono hs.steady (by
    rw [hs.lh]
    have := length_addBlock_le k2.log.lh (slotAddr D k.view (fileSlot inum (off / BSIZE)))
    omega)
  have hend : writeiLoop ip m n' (w + (n' + 1)) (off + (n' + 1)) (0 + (n' + 1)) (n' + 1) =
      pure (n' + 1, off + (n' + 1)) := by
    cases n' with
    | zero => rfl
    | succ n' => rw [writeiLoop, if_neg (by omega), Nat.zero_add]
  rw [hend, pure_bind, wp_bind, wp_get]
  refine wp_post (writeiTail_spec hw (fun _ => hex) ho ht (h.holes inum hl (by simp)) hoff hmax hlog3 _)
    ?_
  rintro _ k4 ⟨rfl, -, -, D', hf, hex'⟩
  exact ⟨rfl, D', _, hf, hex' trivial⟩

/-! ## `readi` -/

theorem blit_chain {d : Bytes} {dst len : Nat} {f g g' : Bytes} (hle : len ≤ n)
    (hf : ∀ o < len, g o = f o) (hg : ∀ o < n - len, g' o = f (len + o)) :
    blit (blit d dst g len) (dst + len) g' (n - len) = blit d dst f n := by
  rw [blit_append d dst len (n - len) g _ f hf hg, Nat.add_sub_cancel' hle]

/-- Where no block of the range is torn, the bytes read are those of the file. -/
theorem readiLoop_spec (m : Mem) (fuel dst off tot n : Nat)
    (hfuel : n - tot ≤ fuel) (htot : tot ≤ n) (h : FsInv k D extra dirty [] stale)
    (ht : Table k.inode k.sb.ninodes D) (ho : Opened k ip inum) (hcov : m.Covers dst (n - tot))
    (hhit : ∀ o, off ≤ o → o < off + (n - tot) → slotAddr D k.view (fileSlot inum (o / BSIZE)) ≠ 0)
    (hroom : R → k.log.lh.length < NBUF) : wp (readiLoop ip fuel m dst off tot n)
      (fun p k' => FsInv k' D extra dirty [] stale ∧ Quiet k k' ∧ Kept k k' dirty [] ∧ p.2 = n ∧
        ((∀ o, off ≤ o → o < off + (n - tot) →
          slotAddr D k.view (fileSlot inum (o / BSIZE)) ∉ dirty) → p.1 = { m with
          byte := blit m.byte dst (fun o => fileByte D k.view inum (off + o)) (n - tot) }))
      (Fail R) k := by
  induction fuel generalizing k m dst off tot with
  | zero =>
    have he : tot = n := by omega
    rw [he, Nat.sub_self]
    exact ⟨h, Quiet.refl k, fun _ _ => rfl, rfl, fun _ => by rw [blit_zero]⟩
  | succ fuel ih =>
    rw [readiLoop]
    refine wp_ite (fun hlt => ?_) fun hge => ?_
    swap
    · have he : tot = n := by omega
      rw [he, Nat.sub_self]
      exact ⟨h, Quiet.refl k, fun _ _ => rfl, rfl, fun _ => by rw [blit_zero]⟩
    have hl := ho.live ht
    set len := min (n - tot) (BSIZE - off % BSIZE) with hlen
    have hpos : 0 < len := by
      have := Nat.mod_lt off (show 0 < BSIZE by decide)
      omega
    refine wp_then (bmap_hit_spec h ht ho (hhit off le_rfl (by omega)) hroom) ?_
    rintro r k1 ⟨hr, h1, q1, v1⟩
    rw [wp_bind, wp_get, show (k1.inode ip).dev = ROOTDEV by rw [q1.inode, ho.dev ht]]
    refine wp_bread h1 (by simp) (by rw [q1.log]; simpa using hroom) ?_
    intro bp k2 h2 q2 v2
    rw [wp_bind, bufData_spec h2.cache List.mem_cons_self]
    dsimp only
    refine wp_brelse h2 fun k3 h3 q3 v3 => ?_
    rw [eitherCopyout_spec (hcov.mono (by omega))]
    have q : Quiet k k3 := q1.trans (q2.trans q3)
    have hk : Kept k k3 dirty [] := fun c hc => by rw [v3, v2 c hc, v1 c hc]
    have hslots : ∀ bn, slotAddr D k3.view (fileSlot inum bn) =
        slotAddr D k.view (fileSlot inum bn) := fun bn =>
      slotAddr_congr fun _ => hk _ (Or.inl (h.not_dirty_indirect (by rwa [fileSlot_inode])))
    have hsub : n - (tot + len) = n - tot - len := by omega
    refine wp_post (ih _ (dst + len) (off + len) (tot + len) (by omega) (by omega) h3
      (by rw [q.inode, q.sb]; exact ht) (ho.quiet q) ?_ ?_ (by rw [q.log]; exact hroom)) ?_
    · rw [hsub]
      exact hcov.tail (by omega)
    · intro o h1 h2
      rw [hslots]
      exact hhit o (by omega) (by omega)
    · rintro ⟨m', t'⟩ k4 ⟨h4, q4, v4, ht4, hb4⟩
      refine ⟨h4, q.trans q4, fun c hc => by rw [v4 c hc, hk c hc], ht4, fun hd => ?_⟩
      have hbyte : ∀ o, off ≤ o → o < off + (n - tot) →
          fileByte D k3.view inum o = fileByte D k.view inum o := fun o h1 h2 => by
        rw [fileByte, fileByte, hslots, hk _ (Or.inl (hd o h1 h2))]
      have hle : len ≤ n - tot := by omega
      rw [show m' = _ from hb4 fun o h1 h2 => by rw [hslots]; exact hd o (by omega) (by omega), hsub]
      simp only [Mem.mk.injEq, true_and]
      refine blit_chain hle (fun o holt => ?_) fun o holt => ?_
      swap
      · rw [hbyte _ (by omega) (by omega), Nat.add_assoc]
      · have hpiece : len ≤ BSIZE - off % BSIZE := by omega
        have hlast : off + o < off + len := by omega
        obtain ⟨hb, hs, hlo, -⟩ := block_of_range hpiece (Nat.le_add_right off o) hlast
        have hview : k2.view r = k.view r := by
          rw [← v3, hk r (Or.inl (by rw [hr]; exact hd off le_rfl (by omega)))]
        rw [fileByte, hb, hview, hr]
        congr 1
        omega

theorem readi_bytes (m : Mem) (dst : Nat)
    (h : FsInv k D extra dirty [] stale) (ht : Table k.inode k.sb.ninodes D)
    (ho : Opened k ip inum) (hh : HoleFree D k.view inum)
    (hcov : m.Covers dst (min n ((D inum).size - off))) (hwrap : off + n < 2 ^ 32)
    (hroom : R → k.log.lh.length < NBUF) : wp (readi ip m dst off n)
      (fun p k' => FsInv k' D extra dirty [] stale ∧ Quiet k k' ∧ Kept k k' dirty [] ∧
        p.2 = (min n ((D inum).size - off) : Nat) ∧
        ((∀ o, off ≤ o → o < off + min n ((D inum).size - off) →
          slotAddr D k.view (fileSlot inum (o / BSIZE)) ∉ dirty) → p.1 = { m with
          byte := blit m.byte dst (fun o => fileByte D k.view inum (off + o))
            (min n ((D inum).size - off)) }))
      (Fail R) k := by
  rw [readi, wp_bind, wp_get, ho.din ht, Nat.mod_eq_of_lt hwrap]
  refine wp_ite (fun hout => ?_) fun hin => ?_
  · have hz : min n ((D inum).size - off) = 0 := by omega
    rw [hz]
    exact ⟨h, Quiet.refl k, fun _ _ => rfl, rfl, fun _ => by rw [blit_zero]⟩
  · have hn : (if (D inum).size < off + n then (D inum).size - off else n) =
        min n ((D inum).size - off) := by
      split <;> omega
    dsimp only
    rw [hn]
    have hloop := readiLoop_spec (R := R) m (min n ((D inum).size - off)) dst off 0
      (min n ((D inum).size - off)) (by omega) (by omega) h ht ho (by rw [Nat.sub_zero]; exact hcov)
      (fun o h1 h2 => hh _ (by have := Nat.div_mul_le_self o BSIZE; omega)) hroom
    rwa [Nat.sub_zero] at hloop

end Written

end Xv6.Fs
