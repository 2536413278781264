import Xv6.Foundation.Lowest
import Xv6.Fs.Blocks

/-!
# What a write takes

`balloc` gives out the lowest free block, so what a write of `n` blocks from block `b` on allocates and
logs is a function of the state before it: `demand` is the number of free blocks, `writeBlocks` the set
of blocks that the loop of `writei` passes to `log_write`.
-/

namespace Xv6.Fs

open Xv6.Foundation Xv6.Disk

set_option autoImplicit false

def freeBlocks (sb : Superblock) (v : View) : Finset Nat :=
  (Finset.range sb.size).filter fun b => ¬ marked sb v b

/-- The number of block `bn` of the file, zero if there is none. -/
def blockAt (x : DInode) (v : View) (bn : Nat) : Nat := slotAddr (fun _ => x) v (fileSlot 0 bn)

theorem slotAddr_fileSlot_eq {D : DTable} {v : View} {i bn : Nat} :
    slotAddr D v (fileSlot i bn) = blockAt (D i) v bn := by
  unfold blockAt fileSlot
  split <;> rfl

def missing (x : DInode) (v : View) (b n : Nat) : Finset Nat :=
  (Finset.Ico b (b + n)).filter fun bn => blockAt x v bn = 0

/-- One of the blocks is behind the indirect block. -/
def Indirect (s : Finset Nat) : Prop := ∃ bn ∈ s, NDIRECT ≤ bn

instance (s : Finset Nat) : Decidable (Indirect s) :=
  inferInstanceAs (Decidable (∃ bn ∈ s, NDIRECT ≤ bn))

def demand (x : DInode) (v : View) (b n : Nat) : Nat :=
  (missing x v b n).card + if x.addrs NDIRECT = 0 ∧ Indirect (missing x v b n) then 1 else 0

/-- The blocks that are there. -/
def present (x : DInode) (v : View) (b n : Nat) : Finset Nat :=
  ((Finset.Ico b (b + n)).image (blockAt x v)).erase 0

/-- What `m` calls of `balloc` log. -/
def taken (sb : Superblock) (free : Finset Nat) (m : Nat) : Finset Nat :=
  lowest free m ∪ (lowest free m).image (bblock sb)

/-- The indirect block, if it is there and gets a new entry. -/
def entryBlock (x : DInode) (v : View) (b n : Nat) : Finset Nat :=
  if x.addrs NDIRECT ≠ 0 ∧ Indirect (missing x v b n) then {x.addrs NDIRECT} else ∅

def writeBlocks (sb : Superblock) (free : Finset Nat) (x : DInode) (v : View) (b n : Nat) : Finset Nat :=
  present x v b n ∪ taken sb free (demand x v b n) ∪ entryBlock x v b n

section Steps
variable {sb : Superblock} {free free' : Finset Nat} {x x' : DInode} {v v' : View} {a b c m n : Nat}

theorem mem_writeBlocks : c ∈ writeBlocks sb free x v b n ↔
    c ∈ present x v b n ∨ c ∈ taken sb free (demand x v b n) ∨ c ∈ entryBlock x v b n := by
  rw [writeBlocks, Finset.mem_union, Finset.mem_union, or_assoc]

theorem missing_zero : missing x v b 0 = ∅ := by
  simp [missing]

theorem demand_zero : demand x v b 0 = 0 := by
  simp [demand, Indirect, missing_zero]

theorem writeBlocks_zero : writeBlocks sb free x v b 0 = ∅ := by
  simp [writeBlocks, present, taken, entryBlock, demand_zero, lowest_zero, Indirect, missing_zero]

theorem Ico_succ_eq_insert (b n : Nat) :
    Finset.Ico b (b + (n + 1)) = insert b (Finset.Ico (b + 1) (b + 1 + n)) := by
  ext bn
  simp only [Finset.mem_Ico, Finset.mem_insert]
  omega

section Hit
variable (h : blockAt x v b ≠ 0)
include h

theorem missing_succ_of_hit : missing x v b (n + 1) = missing x v (b + 1) n := by
  rw [missing, Ico_succ_eq_insert, Finset.filter_insert, if_neg h, missing]

theorem demand_succ_of_hit : demand x v b (n + 1) = demand x v (b + 1) n := by
  simp only [demand, missing_succ_of_hit h]

theorem writeBlocks_succ_of_hit : writeBlocks sb free x v b (n + 1) =
    insert (blockAt x v b) (writeBlocks sb free x v (b + 1) n) := by
  have hpresent : present x v b (n + 1) = insert (blockAt x v b) (present x v (b + 1) n) := by
    rw [present, Ico_succ_eq_insert, Finset.image_insert, Finset.erase_insert_of_ne h, present]
  have hentry : entryBlock x v b (n + 1) = entryBlock x v (b + 1) n := by
    simp only [entryBlock, missing_succ_of_hit h]
  rw [writeBlocks, hpresent, hentry, demand_succ_of_hit h, Finset.insert_union, Finset.insert_union,
    writeBlocks]

end Hit

section Miss
variable (h : blockAt x v b = 0)
include h

theorem missing_succ_of_miss : missing x v b (n + 1) = insert b (missing x v (b + 1) n) := by
  rw [missing, Ico_succ_eq_insert, Finset.filter_insert, if_pos h, missing]

theorem indirect_missing_succ_of_miss :
    Indirect (missing x v b (n + 1)) ↔ NDIRECT ≤ b ∨ Indirect (missing x v (b + 1) n) := by
  rw [missing_succ_of_miss h, Indirect, Finset.exists_mem_insert, Indirect]

theorem demand_succ_of_miss (hd : b < NDIRECT ∨ x.addrs NDIRECT ≠ 0) :
    demand x v b (n + 1) = demand x v (b + 1) n + 1 := by
  have hnew : b ∉ missing x v (b + 1) n := by simp [missing]
  have hind : (x.addrs NDIRECT = 0 ∧ Indirect (missing x v b (n + 1))) ↔
      x.addrs NDIRECT = 0 ∧ Indirect (missing x v (b + 1) n) := by
    refine and_congr_right fun hz => ?_
    rw [indirect_missing_succ_of_miss h, or_iff_right fun hle => ?_]
    exact hd.elim (fun hlt => absurd hle (by omega)) fun hne => hne hz
  rw [demand, if_congr hind rfl rfl, missing_succ_of_miss h, Finset.card_insert_of_notMem hnew, demand]
  omega

theorem present_succ_of_miss : present x v b (n + 1) = present x v (b + 1) n := by
  rw [present, Ico_succ_eq_insert, Finset.image_insert, h, Finset.erase_insert_eq_erase, present]

theorem mem_entryBlock_succ_of_miss (hd : b < NDIRECT ∨ x.addrs NDIRECT ≠ 0) :
    c ∈ entryBlock x v b (n + 1) ↔
      (NDIRECT ≤ b ∧ c = x.addrs NDIRECT) ∨ c ∈ entryBlock x v (b + 1) n := by
  have hmem : ∀ b n, c ∈ entryBlock x v b n ↔
      (x.addrs NDIRECT ≠ 0 ∧ Indirect (missing x v b n)) ∧ c = x.addrs NDIRECT := fun b n => by
    unfold entryBlock
    split <;> simp_all
  have hz : NDIRECT ≤ b → x.addrs NDIRECT ≠ 0 := fun hle => hd.resolve_left (by omega)
  rw [hmem, hmem, indirect_missing_succ_of_miss h]
  tauto

end Miss

theorem mem_taken_succ (ht : TookLeast free free' a) :
    c ∈ taken sb free (m + 1) ↔ (c = bblock sb a ∨ c = a) ∨ c ∈ taken sb free' m := by
  simp only [taken, ht.lowest_succ, Finset.image_insert, Finset.mem_union, Finset.mem_insert]
  tauto

theorem mem_writeBlocks_succ_of_miss (h : blockAt x v b = 0) (hd : b < NDIRECT ∨ x.addrs NDIRECT ≠ 0)
    (ht : TookLeast free free' a) : c ∈ writeBlocks sb free x v b (n + 1) ↔
      ((c = bblock sb a ∨ c = a) ∨ NDIRECT ≤ b ∧ c = x.addrs NDIRECT) ∨
        c ∈ writeBlocks sb free' x v (b + 1) n := by
  rw [mem_writeBlocks, mem_writeBlocks, demand_succ_of_miss h hd, mem_taken_succ ht,
    present_succ_of_miss h, mem_entryBlock_succ_of_miss h hd]
  tauto

/-- Only the blocks of the range matter. -/
theorem demand_congr (sb : Superblock) (free : Finset Nat)
    (hblock : ∀ bn, b ≤ bn → bn < b + n → blockAt x' v' bn = blockAt x v bn)
    (hind : x'.addrs NDIRECT = x.addrs NDIRECT) : demand x' v' b n = demand x v b n ∧
      writeBlocks sb free x' v' b n = writeBlocks sb free x v b n := by
  have hmissing : missing x' v' b n = missing x v b n := by
    refine Finset.filter_congr fun bn hbn => ?_
    rw [Finset.mem_Ico] at hbn
    rw [hblock bn hbn.1 hbn.2]
  have himage : (Finset.Ico b (b + n)).image (blockAt x' v') =
      (Finset.Ico b (b + n)).image (blockAt x v) := by
    refine Finset.image_congr fun bn hbn => ?_
    rw [Finset.coe_Ico, Set.mem_Ico] at hbn
    exact hblock bn hbn.1 hbn.2
  constructor
  · simp only [demand, hmissing, hind]
  · simp only [writeBlocks, present, entryBlock, demand, hmissing, hind, himage]

/-! ### The indirect block is made first -/

section Fill
variable (hblock : ∀ bn, blockAt x' v' bn = blockAt x v bn) (h : blockAt x v b = 0) (hb : NDIRECT ≤ b)
  (hx : x.addrs NDIRECT = 0) (hx' : x'.addrs NDIRECT = a) (hz : a ≠ 0)
include hblock h hb hx hx' hz

theorem demand_fill : demand x v b (n + 1) = demand x' v' b (n + 1) + 1 := by
  have hmissing : missing x' v' b (n + 1) = missing x v b (n + 1) :=
    Finset.filter_congr fun bn _ => by rw [hblock bn]
  rw [demand, demand, hmissing, if_pos ⟨hx, (indirect_missing_succ_of_miss h).mpr (Or.inl hb)⟩,
    if_neg fun hc => hz (hx'.symm.trans hc.1)]

theorem mem_writeBlocks_fill (ht : TookLeast free free' a) :
    c ∈ writeBlocks sb free x v b (n + 1) ↔
      (c = bblock sb a ∨ c = a) ∨ c ∈ writeBlocks sb free' x' v' b (n + 1) := by
  have hpresent : present x' v' b (n + 1) = present x v b (n + 1) := by
    rw [present, funext hblock, present]
  have hnone : entryBlock x v b (n + 1) = ∅ := if_neg fun hc => hc.1 hx
  have hfills : Indirect (missing x' v' b (n + 1)) :=
    (indirect_missing_succ_of_miss ((hblock b).trans h)).mpr (Or.inl hb)
  have hsome : entryBlock x' v' b (n + 1) = {a} := by
    rw [entryBlock, hx', if_pos ⟨hz, hfills⟩]
  rw [mem_writeBlocks, mem_writeBlocks, demand_fill hblock h hb hx hx' hz, mem_taken_succ ht, hpresent,
    hnone, hsome, Finset.mem_singleton]
  simp only [Finset.notMem_empty, or_false]
  tauto

end Fill

end Steps

/-! ## Fitting into the transaction -/

/-- The blocks of the log header after the loop of `writei`. -/
def logAfter (k : Kernel) (D : DTable) (inum b n : Nat) : Finset Nat :=
  k.log.lh.toFinset ∪ writeBlocks k.sb (freeBlocks k.sb k.view) (D inum) k.view b n

/-- There are free blocks enough, and the header still has room when the inode is logged. -/
def Fits (k : Kernel) (D : DTable) (inum b n : Nat) : Prop :=
  1 ≤ k.log.outstanding ∧ demand (D inum) k.view b n ≤ (freeBlocks k.sb k.view).card ∧
    (logAfter k D inum b n).card + 1 < k.log.size

def WriteFits (R : Prop) (k : Kernel) (D : DTable) (inum b n : Nat) : Prop :=
  R → k.log.size = LOGSIZE ∧ Fits k D inum b n

/-- Under `R`, `balloc` finds a block, and the header has room for it and its bitmap block. -/
def AllocRoom (R : Prop) (k : Kernel) : Prop :=
  R → 1 ≤ k.log.outstanding ∧ k.log.size = LOGSIZE ∧ ∃ a ∈ freeBlocks k.sb k.view,
    (∀ c ∈ freeBlocks k.sb k.view, a ≤ c) ∧
      (addBlock k.log.lh (bblock k.sb a)).length ≤ LOGSIZE - 2

/-- A write of `n` blocks at `b` in `k` comes to the same as one of `n'` blocks at `b'` in `k'`. -/
structure Spent (k k' : Kernel) (D D' : DTable) (inum b n b' n' : Nat) : Prop where
  logs : logAfter k' D' inum b' n' = logAfter k D inum b n
  free : demand (D inum) k.view b n + (freeBlocks k'.sb k'.view).card =
    demand (D' inum) k'.view b' n' + (freeBlocks k.sb k.view).card

/-- The same after `bmap` of block `b`, when the block `r` that it found is still to be logged. -/
structure Charged (k k' : Kernel) (D D' : DTable) (inum b r : Nat) : Prop where
  logs : ∀ n, insert r (logAfter k' D' inum (b + 1) n) = logAfter k D inum b (n + 1)
  free : ∀ n, demand (D inum) k.view b (n + 1) + (freeBlocks k'.sb k'.view).card =
    demand (D' inum) k'.view (b + 1) n + (freeBlocks k.sb k.view).card
  new : blockAt (D inum) k.view b = 0 → r ∈ k'.log.lh

section Fitting
variable {R : Prop} {k k' k'' : Kernel} {D D' D'' : DTable} {inum a b b' b'' n n' n'' r : Nat}

theorem mem_logAfter {c : Nat} : c ∈ logAfter k D inum b n ↔
    c ∈ k.log.lh ∨ c ∈ writeBlocks k.sb (freeBlocks k.sb k.view) (D inum) k.view b n := by
  rw [logAfter, Finset.mem_union, List.mem_toFinset]

theorem length_le_of_subset {lh : List Nat} {s : Finset Nat} (hn : lh.Nodup) (hsub : ∀ c ∈ lh, c ∈ s) :
    lh.length ≤ s.card := by
  rw [← List.toFinset_card_of_nodup hn]
  exact Finset.card_le_card fun c hc => hsub c (List.mem_toFinset.mp hc)

theorem WriteFits.logRoom (h : WriteFits R k D inum b n) (hs : Steady k k') (hn : k'.log.lh.Nodup)
    (hsub : ∀ c ∈ k'.log.lh, c ∈ logAfter k D inum b n) : LogRoom R k' 0 := by
  intro hR
  obtain ⟨hsize, hout, -, hlog⟩ := h hR
  have hlen := length_le_of_subset hn hsub
  exact ⟨by rw [hs.outstanding]; exact hout, by rw [hs.size]; exact hsize, by omega⟩

theorem demand_pos_of_miss (h : blockAt (D inum) k.view b = 0) : 0 < demand (D inum) k.view b (n + 1) := by
  have hmem : b ∈ missing (D inum) k.view b (n + 1) := by
    rw [missing_succ_of_miss h]
    exact Finset.mem_insert_self _ _
  have := Finset.card_pos.mpr ⟨b, hmem⟩
  unfold demand
  omega

theorem mem_logAfter_of_least {F : Finset Nat} (h : blockAt (D inum) k.view b = 0)
    (ht : TookLeast (freeBlocks k.sb k.view) F a) :
    bblock k.sb a ∈ logAfter k D inum b (n + 1) ∧ a ∈ logAfter k D inum b (n + 1) := by
  obtain ⟨m, hm⟩ := Nat.exists_eq_add_of_lt (demand_pos_of_miss (n := n) h)
  rw [Nat.zero_add] at hm
  have hmem : ∀ c, c = bblock k.sb a ∨ c = a → c ∈ logAfter k D inum b (n + 1) := fun c hc => by
    rw [mem_logAfter, mem_writeBlocks, hm]
    exact Or.inr (Or.inr (Or.inl ((mem_taken_succ ht).mpr (Or.inl hc))))
  exact ⟨hmem _ (Or.inl rfl), hmem _ (Or.inr rfl)⟩

theorem WriteFits.allocRoom (h : WriteFits R k D inum b (n + 1)) (hn : k.log.lh.Nodup)
    (hmiss : blockAt (D inum) k.view b = 0) : AllocRoom R k := by
  intro hR
  obtain ⟨hsize, hout, hfree, hlog⟩ := h hR
  obtain ⟨a, ht⟩ := exists_tookLeast ((demand_pos_of_miss hmiss).trans_le hfree)
  have hsub : ∀ c ∈ addBlock k.log.lh (bblock k.sb a), c ∈ logAfter k D inum b (n + 1) := fun c hc => by
    rcases mem_addBlock.mp hc with hc | rfl
    · exact mem_logAfter.mpr (Or.inl hc)
    · exact (mem_logAfter_of_least hmiss ht).1
  have hlen := length_le_of_subset (nodup_addBlock hn _) hsub
  exact ⟨hout, hsize, a, ht.mem, ht.least, by omega⟩

/-! ### Keeping account -/

theorem spent_refl (k : Kernel) (D : DTable) (inum b n : Nat) : Spent k k D D inum b n b n := ⟨rfl, rfl⟩

theorem Spent.trans (h : Spent k k' D D' inum b n b' n')
    (h' : Spent k' k'' D' D'' inum b' n' b'' n'') : Spent k k'' D D'' inum b n b'' n'' := by
  refine ⟨h'.logs.trans h.logs, ?_⟩
  have h1 := h.free
  have h2 := h'.free
  omega

theorem logAfter_zero (k : Kernel) (D : DTable) (inum b : Nat) :
    logAfter k D inum b 0 = k.log.lh.toFinset := by
  rw [logAfter, writeBlocks_zero, Finset.union_empty]

/-- With no blocks left to write, it does not matter where. -/
theorem Spent.done (h : Spent k k' D D' inum b n b' 0) (b'' : Nat) :
    Spent k k' D D' inum b n b'' 0 := by
  constructor
  · rw [← h.logs, logAfter_zero, logAfter_zero]
  · rw [h.free, demand_zero, demand_zero]

theorem Spent.fits (h : Spent k k' D D' inum b n b' n') (hs : Steady k k')
    (hfits : WriteFits R k D inum b n) : WriteFits R k' D' inum b' n' := by
  intro hR
  obtain ⟨hsize, hout, hfree, hlog⟩ := hfits hR
  have hcount := h.free
  exact ⟨by rw [hs.size]; exact hsize, by rw [hs.outstanding]; exact hout, by omega,
    by rw [h.logs, hs.size]; exact hlog⟩

/-- A write that has come to its end, with room in the header for one more block, has fitted. -/
theorem Spent.fits_of_logged (h : Spent k k' D D' inum b n b' 0) (hs : Steady k k')
    (hn : k'.log.lh.Nodup) (hbefore : 1 ≤ k'.log.outstanding ∧ k'.log.lh.length + 1 < k'.log.size) :
    Fits k D inum b n := by
  have hfree := h.free
  rw [demand_zero] at hfree
  refine ⟨by rw [← hs.outstanding]; exact hbefore.1, by omega, ?_⟩
  rw [← h.logs, logAfter_zero, List.toFinset_card_of_nodup hn, ← hs.size]
  exact hbefore.2

theorem charged_of_hit (hlh : k'.log.lh = k.log.lh) (hsb : k'.sb = k.sb)
    (hfree : freeBlocks k.sb k'.view = freeBlocks k.sb k.view)
    (hblock : ∀ bn, blockAt (D inum) k'.view bn = blockAt (D inum) k.view bn)
    (hr : blockAt (D inum) k.view b = r) (hz : r ≠ 0) : Charged k k' D D inum b r := by
  subst hr
  have hcongr := fun n => demand_congr (b := b + 1) (n := n) k.sb (freeBlocks k.sb k.view)
    (fun bn _ _ => hblock bn) rfl
  refine ⟨fun n => ?_, fun n => ?_, fun h => absurd h hz⟩
  · ext c
    rw [Finset.mem_insert, mem_logAfter, mem_logAfter, hlh, hsb, hfree, (hcongr n).2,
      writeBlocks_succ_of_hit hz, Finset.mem_insert]
    tauto
  · rw [hsb, hfree, (hcongr n).1, demand_succ_of_hit hz]

theorem charged_of_miss (h : blockAt (D inum) k.view b = 0)
    (hd : b < NDIRECT ∨ (D inum).addrs NDIRECT ≠ 0)
    (ht : TookLeast (freeBlocks k.sb k.view) (freeBlocks k.sb k'.view) a) (hsb : k'.sb = k.sb)
    (hlh : ∀ c, c ∈ k'.log.lh ↔ c ∈ k.log.lh ∨
      ((c = bblock k.sb a ∨ c = a) ∨ NDIRECT ≤ b ∧ c = (D inum).addrs NDIRECT))
    (hblock : ∀ bn, bn ≠ b → blockAt (D' inum) k'.view bn = blockAt (D inum) k.view bn)
    (hind : (D' inum).addrs NDIRECT = (D inum).addrs NDIRECT) : Charged k k' D D' inum b a := by
  have hcongr := fun n => demand_congr (b := b + 1) (n := n) k.sb (freeBlocks k.sb k'.view)
    (fun bn hle _ => hblock bn (by omega)) hind
  refine ⟨fun n => ?_, fun n => ?_, fun _ => (hlh a).mpr (Or.inr (Or.inl (Or.inr rfl)))⟩
  · ext c
    rw [Finset.mem_insert, mem_logAfter, mem_logAfter, hsb, (hcongr n).2,
      mem_writeBlocks_succ_of_miss h hd ht, hlh c]
    tauto
  · have hcard := ht.card
    rw [hsb, (hcongr n).1, demand_succ_of_miss h hd]
    omega

theorem spent_of_fill (hblock : ∀ bn, blockAt (D' inum) k'.view bn = blockAt (D inum) k.view bn)
    (h : blockAt (D inum) k.view b = 0) (hb : NDIRECT ≤ b) (hx : (D inum).addrs NDIRECT = 0)
    (hx' : (D' inum).addrs NDIRECT = a) (hz : a ≠ 0)
    (ht : TookLeast (freeBlocks k.sb k.view) (freeBlocks k.sb k'.view) a) (hsb : k'.sb = k.sb)
    (hlh : ∀ c, c ∈ k'.log.lh ↔ c ∈ k.log.lh ∨ (c = bblock k.sb a ∨ c = a)) (n : Nat) :
    Spent k k' D D' inum b (n + 1) b (n + 1) := by
  constructor
  · ext c
    rw [mem_logAfter, mem_logAfter, hsb, mem_writeBlocks_fill hblock h hb hx hx' hz ht, hlh c, or_assoc]
  · have hcard := ht.card
    rw [hsb, demand_fill hblock h hb hx hx' hz]
    omega

theorem Charged.logRoom (hc : Charged k k' D D' inum b r) (h : WriteFits R k D inum b (n + 1))
    (hs : Steady k k') (hn : k'.log.lh.Nodup) : LogRoom R k' 0 := by
  refine h.logRoom hs hn fun c hmem => ?_
  rw [← hc.logs n]
  exact Finset.mem_insert_of_mem (mem_logAfter.mpr (Or.inl hmem))

theorem Charged.of_fill (hc : Charged k' k'' D' D'' inum b r)
    (hs : ∀ n, Spent k k' D D' inum b (n + 1) b (n + 1)) (hmiss : blockAt (D' inum) k'.view b = 0) :
    Charged k k'' D D'' inum b r := by
  refine ⟨fun n => (hc.logs n).trans (hs n).logs, fun n => ?_, fun _ => hc.new hmiss⟩
  have h1 := hc.free n
  have h2 := (hs n).free
  omega

theorem Charged.logged_of_miss (hc : Charged k k' D D' inum b r) (h : blockAt (D inum) k.view b = 0) :
    k'.log.lh.toFinset = logAfter k D inum b 1 := by
  rw [← hc.logs 0, logAfter_zero, Finset.insert_eq_of_mem (List.mem_toFinset.mpr (hc.new h))]

/-- Block `r` has been logged. -/
theorem Charged.spent (hc : Charged k k' D D' inum b r) (hsb : k''.sb = k'.sb)
    (hlh : ∀ c, c ∈ k''.log.lh ↔ c ∈ k'.log.lh ∨ c = r)
    (hfree : freeBlocks k'.sb k''.view = freeBlocks k'.sb k'.view)
    (hblock : ∀ bn, blockAt (D' inum) k''.view bn = blockAt (D' inum) k'.view bn) (n : Nat) :
    Spent k k'' D D' inum b (n + 1) (b + 1) n := by
  have hcongr := demand_congr (b := b + 1) (n := n) k'.sb (freeBlocks k'.sb k'.view)
    (fun bn _ _ => hblock bn) rfl
  constructor
  · rw [← hc.logs n]
    ext c
    rw [Finset.mem_insert, mem_logAfter, mem_logAfter, hlh c, hsb, hfree, hcongr.2]
    tauto
  · rw [hsb, hfree, hcongr.1]
    exact hc.free n

end Fitting

/-! ## A simple bound -/

/-- What the indirect block may still cost in log entries: itself and its bitmap block. -/
def indirectCost (D : DTable) (lh : List Nat) (inum : Nat) : Nat :=
  if (D inum).addrs NDIRECT ≠ 0 ∧ (D inum).addrs NDIRECT ∈ lh then 0 else 2

/-- The block that an indirect pointer may still need. -/
def indirectFree (D : DTable) (inum : Nat) : Nat := if (D inum).addrs NDIRECT = 0 then 1 else 0

/-- Under `R`, there is room to write `n` more blocks of the file and its inode, with `lh` logged:
each block takes itself and a bitmap block, the indirect block the same once, the inode one. -/
def WriteRoom (R : Prop) (k : Kernel) (D : DTable) (inum : Nat) (lh : List Nat) (n : Nat) : Prop :=
  R → 1 ≤ k.log.outstanding ∧ k.log.size = LOGSIZE ∧
    lh.length + indirectCost D lh inum + 2 * n + 1 ≤ LOGSIZE - 2 ∧
    n + indirectFree D inum ≤ (freeBlocks k.sb k.view).card

theorem card_present_add_missing (x : DInode) (v : View) (b n : Nat) :
    (present x v b n).card + (missing x v b n).card ≤ n := by
  have hsub : present x v b n ⊆
      ((Finset.Ico b (b + n)).filter fun bn => ¬ blockAt x v bn = 0).image (blockAt x v) := by
    intro c hc
    simp only [present, Finset.mem_erase, Finset.mem_image] at hc
    obtain ⟨hz, bn, hbn, rfl⟩ := hc
    exact Finset.mem_image_of_mem _ (Finset.mem_filter.mpr ⟨hbn, hz⟩)
  have hle := (Finset.card_le_card hsub).trans Finset.card_image_le
  have hsplit := Finset.card_filter_add_card_filter_not (s := Finset.Ico b (b + n))
    (fun bn => blockAt x v bn = 0)
  rw [Nat.card_Ico] at hsplit
  unfold missing
  omega

theorem card_taken_le (sb : Superblock) (free : Finset Nat) (m : Nat) :
    (taken sb free m).card ≤ 2 * m := by
  have h1 := card_lowest_le free m
  have h2 := Finset.card_union_le (lowest free m) ((lowest free m).image (bblock sb))
  have h3 := Finset.card_image_le (s := lowest free m) (f := bblock sb)
  unfold taken
  omega

section Indirect
variable {x : DInode} (v : View) (b n : Nat)

theorem entryBlock_eq_empty (hz : x.addrs NDIRECT = 0) : entryBlock x v b n = ∅ :=
  if_neg fun hc => hc.1 hz

theorem entryBlock_subset : entryBlock x v b n ⊆ {x.addrs NDIRECT} := by
  unfold entryBlock
  split <;> simp

theorem demand_eq_card (hz : x.addrs NDIRECT ≠ 0) : demand x v b n = (missing x v b n).card := by
  rw [demand, if_neg fun hc => hz hc.1, Nat.add_zero]

theorem demand_le_succ : demand x v b n ≤ (missing x v b n).card + 1 := by
  unfold demand
  split <;> omega

end Indirect

theorem card_writeBlocks_le (sb : Superblock) (free : Finset Nat) (x : DInode) (v : View) (b n : Nat) :
    (writeBlocks sb free x v b n).card ≤ n + (missing x v b n).card + 2 := by
  have hblocks := card_present_add_missing x v b n
  have htaken := card_taken_le sb free (demand x v b n)
  have hunion : (writeBlocks sb free x v b n).card ≤ (present x v b n).card +
      (taken sb free (demand x v b n)).card + (entryBlock x v b n).card :=
    (Finset.card_union_le _ _).trans (Nat.add_le_add_right (Finset.card_union_le _ _) _)
  by_cases hz : x.addrs NDIRECT = 0
  · have hdemand := demand_le_succ (x := x) v b n
    rw [entryBlock_eq_empty v b n hz, Finset.card_empty] at hunion
    omega
  · have hone := Finset.card_le_card (entryBlock_subset (x := x) v b n)
    rw [demand_eq_card v b n hz] at htaken hunion
    rw [Finset.card_singleton] at hone
    omega

section Bound
variable (k : Kernel) (D : DTable) (inum b n : Nat)

theorem demand_le : demand (D inum) k.view b n ≤
    (missing (D inum) k.view b n).card + indirectFree D inum := by
  unfold indirectFree
  split
  · exact demand_le_succ k.view b n
  · exact (demand_eq_card k.view b n ‹_›).le

/-- The indirect block is new, or there and logged, or there and not logged. -/
theorem entryBlock_cost :
    2 * demand (D inum) k.view b n + (entryBlock (D inum) k.view b n \ k.log.lh.toFinset).card ≤
      2 * (missing (D inum) k.view b n).card + indirectCost D k.log.lh inum := by
  have hsub := entryBlock_subset (x := D inum) k.view b n
  by_cases hz : (D inum).addrs NDIRECT = 0
  · have hle := demand_le_succ (x := D inum) k.view b n
    rw [entryBlock_eq_empty k.view b n hz, Finset.empty_sdiff, Finset.card_empty, indirectCost,
      if_neg fun hc => hc.1 hz]
    omega
  · rw [demand_eq_card k.view b n hz]
    by_cases hm : (D inum).addrs NDIRECT ∈ k.log.lh
    · have hnone : entryBlock (D inum) k.view b n \ k.log.lh.toFinset = ∅ := by
        refine Finset.sdiff_eq_empty_iff_subset.mpr (hsub.trans ?_)
        simpa using hm
      rw [hnone, Finset.card_empty]
      omega
    · have hone : (entryBlock (D inum) k.view b n \ k.log.lh.toFinset).card ≤ 1 :=
        Finset.card_le_card (Finset.sdiff_subset.trans hsub)
      rw [indirectCost, if_neg fun hc => hm hc.2]
      omega

variable {k D inum n} {R : Prop}

theorem WriteRoom.fits (h : WriteRoom R k D inum k.log.lh n) (b : Nat) : WriteFits R k D inum b n := by
  intro hR
  obtain ⟨hout, hsize, hlog, hfree⟩ := h hR
  have hblocks := card_present_add_missing (D inum) k.view b n
  have htaken := card_taken_le k.sb (freeBlocks k.sb k.view) (demand (D inum) k.view b n)
  have hcost := entryBlock_cost k D inum b n
  have hdemand := demand_le k D inum b n
  have hunion : logAfter k D inum b n ⊆ k.log.lh.toFinset ∪ present (D inum) k.view b n ∪
      taken k.sb (freeBlocks k.sb k.view) (demand (D inum) k.view b n) ∪
        entryBlock (D inum) k.view b n \ k.log.lh.toFinset := by
    intro c hc
    simp only [mem_logAfter, mem_writeBlocks] at hc
    simp only [Finset.mem_union, Finset.mem_sdiff, List.mem_toFinset]
    tauto
  have hcard : (logAfter k D inum b n).card ≤ k.log.lh.length + (present (D inum) k.view b n).card +
      (taken k.sb (freeBlocks k.sb k.view) (demand (D inum) k.view b n)).card +
        (entryBlock (D inum) k.view b n \ k.log.lh.toFinset).card :=
    calc (logAfter k D inum b n).card
        ≤ _ := (Finset.card_le_card hunion).trans (Finset.card_union_le _ _)
      _ ≤ _ := Nat.add_le_add_right ((Finset.card_union_le _ _).trans (Nat.add_le_add_right
          ((Finset.card_union_le _ _).trans (Nat.add_le_add_right (List.toFinset_card_le _) _)) _)) _
  exact ⟨hsize, hout, by omega, by omega⟩

end Bound

end Xv6.Fs
