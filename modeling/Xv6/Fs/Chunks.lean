import Xv6.Fs.ByteStrings
import Xv6.Fs.Directories

/-!
# What one chunk of `filewrite` logs

`filewrite` cuts a write into chunks, each in a transaction of its own. `logged` is the set of blocks
that a chunk passes to `log_write`: file data, new blocks with their bitmap blocks, the indirect block
and the inode. It never has more than `MAXOPBLOCKS` elements.
-/

namespace Xv6.Fs

open Xv6.Foundation Xv6.Disk Function

set_option autoImplicit false

/-- `max` in `filewrite` -/
def chunkMax : Nat := (MAXOPBLOCKS - 1 - 1 - 2) / 2 * BSIZE

/-- What `filewrite` does between `begin_op` and `end_op`: the result of `writei` and the new
`f->off`. -/
def filewriteChunk (ip : Nat) (m : Mem) (addr off n1 : Nat) : K (Int × Nat) := do
  ilock ip
  let r ← writei ip m addr off n1
  iunlock ip
  pure (r, if 0 < r then off + r.toNat else off)

/-- What a write of `n` blocks from block `b` on logs: what its loop logs, and the inode. -/
def logged (k : Kernel) (D : DTable) (inum b n : Nat) : Finset Nat :=
  insert (iblock k.sb inum) (writeBlocks k.sb (freeBlocks k.sb k.view) (D inum) k.view b n)

/-! ## The bound -/

section Bound
variable {x : DInode} {v : View} {off n w : Nat}

/-- A chunk that begins inside a block finds this block there. -/
theorem card_missing_le (hoff : off % BSIZE ≠ 0 → blockAt x v (off / BSIZE) ≠ 0)
    (hn : n ≤ chunkMax) (hw : w ≤ touched off n) : w + (missing x v (off / BSIZE) w).card ≤ 7 := by
  have hmax : chunkMax = 3072 := rfl
  have hcard : (Finset.Ico (off / BSIZE) (off / BSIZE + w)).card = w := by simp
  by_cases ha : off % BSIZE = 0
  · have ht : w ≤ 3 := by
      unfold touched BSIZE at *
      split at hw <;> omega
    have hle : (missing x v (off / BSIZE) w).card ≤ _ := Finset.card_filter_le _ _
    omega
  · have ht : w ≤ 4 := by
      unfold touched BSIZE at *
      split at hw <;> omega
    rcases Nat.eq_zero_or_pos w with rfl | hpos
    · simp [missing_zero]
    · have hmem : off / BSIZE ∈ Finset.Ico (off / BSIZE) (off / BSIZE + w) := by simp [hpos]
      have hlt : (missing x v (off / BSIZE) w).card < _ :=
        Finset.card_lt_card (Finset.filter_ssubset.mpr ⟨_, hmem, hoff ha⟩)
      omega

theorem card_logged_le {k : Kernel} {D : DTable} {inum : Nat}
    (hoff : off % BSIZE ≠ 0 → blockAt (D inum) k.view (off / BSIZE) ≠ 0) (hn : n ≤ chunkMax)
    (hw : w ≤ touched off n) : (logged k D inum (off / BSIZE) w).card ≤ MAXOPBLOCKS := by
  have hmissing := card_missing_le hoff hn hw
  have hwrite := card_writeBlocks_le k.sb (freeBlocks k.sb k.view) (D inum) k.view (off / BSIZE) w
  calc (logged k D inum (off / BSIZE) w).card
      ≤ (writeBlocks k.sb (freeBlocks k.sb k.view) (D inum) k.view (off / BSIZE) w).card + 1 :=
        Finset.card_insert_le _ _
    _ ≤ MAXOPBLOCKS := by
        show _ ≤ 10
        omega

end Bound

/-! ## The chunk -/

section Logs
variable {k : Kernel} {D : DTable} {ip off n : Nat} {dirty : Set Nat}

theorem ilock_logs {R : Prop} (h : Sound k D dirty) (hip : ip < NINODE) (href : 0 < (k.inode ip).ref)
    (hroom : R → (k.inode ip).locked = false ∧ Live k.sb D (k.inode ip).inum ∧
      k.log.lh.length < NBUF) :
    wp (ilock ip) (fun _ k' => k'.log = k.log ∧ k'.sb = k.sb ∧ ∀ c, c ∉ dirty → k'.view c = k.view c)
      (Fail R) k := by
  rw [ilock, wp_bind, wp_get, wp_bind, wp_check]
  refine ⟨fun hlt => ?_, fun _ => ?_⟩
  · rw [decide_eq_true_eq] at hlt
    omega
  rw [wp_bind, wp_check]
  refine ⟨fun hlock => ⟨fun hR => ?_, by simp⟩, fun _ => ?_⟩
  · rw [(hroom hR).1] at hlock
    cases hlock
  rw [wp_bind, wp_set, wp_when]
  refine ⟨fun _ => ?_, fun _ => ⟨rfl, rfl, fun _ _ => rfl⟩⟩
  have h1 := h.inv.setInode ip ((k.inode ip).withLocked true)
  rw [h.table.dev ip hip href]
  refine wp_bread h1 (by simp) (fun hR => by simpa using (hroom hR).2.2) ?_
  intro bp k2 h2 q2 v2
  rw [wp_bind, bufData_spec h2.cache List.mem_cons_self]
  refine wp_brelse h2 fun k3 h3 q3 v3 => ?_
  have hself : k3.inode ip = (k.inode ip).withLocked true := by
    rw [q3.inode, q2.inode, setInode_inode, update_self]
  rw [wp_bind, wp_modify, wp_check, hself]
  refine ⟨fun ht => ⟨fun hR => ?_, by simp⟩, fun _ => ⟨q3.log.trans q2.log, q3.sb.trans q2.sb, fun c hc => ?_⟩⟩
  · obtain ⟨-, hl, -⟩ := hroom hR
    have hmeta := (h.inv.geo.iblock_range hl.2.1).2.trans (bmapstart_lt_datastart k.sb)
    have hdin := h.inv.dinode _ hl.1 hl.2.1 (by simp)
    rw [decide_eq_true_eq, v2 _ (Or.inl (h.inv.not_dirty_meta hmeta))] at ht
    exact hl.2.2 (by rw [← hdin]; exact ht)
  · exact (congrFun v3 c).trans (v2 c (Or.inl hc))

theorem filewriteChunk_logs (m : Mem) (addr : Nat) (h : Sound k D dirty) (hip : ip < NINODE)
    (href : 0 < (k.inode ip).ref) (hpos : 1 ≤ (k.inode ip).inum)
    (hr : (k.inode ip).inum < k.sb.ninodes) (hoff : off ≤ (D (k.inode ip).inum).size)
    (hn : n ≤ chunkMax) : wp (filewriteChunk ip m addr off n)
      (fun _ k' => Live k.sb D (k.inode ip).inum ∧ (k'.log.lh = k.log.lh ∨ ∃ w ≤ touched off n,
        ∀ c, c ∈ k'.log.lh ↔ c ∈ k.log.lh ∨ c ∈ logged k D (k.inode ip).inum (off / BSIZE) w))
      (Fail False) k := by
  rw [filewriteChunk]
  refine wp_seq (wp_and (ilock_spec h hip href hpos hr) (ilock_logs (R := False) h hip href nofun)) ?_
    (fun _ _ he => he.1)
  rintro _ k1 ⟨⟨h1, ho1, -, -, -, -⟩, hlog, hsb, hview⟩
  have hl := ho1.live h1.table
  have hkept : Kept k k1 dirty [] := fun c hc => hview c (by simpa using hc)
  have hfree := freeBlocks_congr (h.inv.marked_of_kept hkept)
  have hcap : MAXFILE * BSIZE + chunkMax < 2 ^ 32 := by decide
  have hsize := size_le_of_holeFree (h1.inv.holes _ hl (by simp))
  have hwritei : wp (writei ip m addr off n) (fun _ k2 => k2.log.lh = k.log.lh ∨ ∃ w ≤ touched off n,
      ∀ c, c ∈ k2.log.lh ↔ c ∈ k.log.lh ∨ c ∈ logged k D (k.inode ip).inum (off / BSIZE) w)
      (Fail False) k1 := by
    by_cases hmax : off + n ≤ MAXFILE * BSIZE
    · refine wp_post (writei_exact (R := False) m addr h1.inv h1.table ho1 hoff hmax nofun) ?_
      rintro _ k2 ⟨-, -, -, -, -, ⟨w, hw, -, hlh⟩, -⟩
      have hblocks := (demand_congr (b := off / BSIZE) (n := w) k.sb (freeBlocks k.sb k.view)
        (fun bn _ _ => blockAt_kept h.inv (hsb ▸ hl) hkept bn) rfl).2
      refine Or.inr ⟨w, hw, fun c => ?_⟩
      rw [← List.mem_toFinset, hlh, Finset.mem_insert, mem_logAfter, hlog, hsb, hfree, hblocks, logged,
        Finset.mem_insert]
      tauto
    · refine wp_post (writei_refused _ _ (by omega) (by omega)) ?_
      rintro _ k2 ⟨-, rfl⟩
      exact Or.inl (by rw [hlog])
  refine wp_then hwritei ?_
  rintro r k2 hq
  rw [wp_bind, iunlock, wp_bind, wp_get, wp_bind, wp_check]
  refine ⟨fun _ => ⟨id, by simp⟩, fun _ => ?_⟩
  rw [wp_set, wp_pure]
  exact ⟨hsb ▸ hl, hq⟩

end Logs

/-- One turn of `filewrite`, at any offset up to the size of the file, of any alignment: the blocks it
passes to `log_write` are at most as many as `begin_op` reserved, whatever the geometry and wherever
`balloc` finds free blocks. If a copy fails, they are those of a shorter write. -/
theorem chunk_fits_reservation {k k' : Kernel} {D : DTable} {dirty : Set Nat} {ip off n1 addr : Nat}
    {m : Mem} {a : Int × Nat} (h : Sound k D dirty) (hip : ip < NINODE)
    (href : 0 < (k.inode ip).ref) (hpos : 1 ≤ (k.inode ip).inum)
    (hr : (k.inode ip).inum < k.sb.ninodes) (hoff : off ≤ (D (k.inode ip).inum).size)
    (hn : n1 ≤ chunkMax) (hrun : filewriteChunk ip m addr off n1 k = .ok a k') :
    ∃ S : Finset Nat, S.card ≤ MAXOPBLOCKS ∧
      (S = ∅ ∨ ∃ w ≤ touched off n1, S = logged k D (k.inode ip).inum (off / BSIZE) w) ∧
      ∀ c, c ∈ k'.log.lh ↔ c ∈ k.log.lh ∨ c ∈ S := by
  have hwp := filewriteChunk_logs m addr h hip href hpos hr hoff hn
  rw [wp_of_ok hrun] at hwp
  obtain ⟨hl, hq | ⟨w, hw, hiff⟩⟩ := hwp
  · exact ⟨∅, by simp, Or.inl rfl, by simp [hq]⟩
  · refine ⟨_, card_logged_le (fun hne => ?_) hn hw, Or.inr ⟨w, hw, rfl⟩, hiff⟩
    rw [← slotAddr_fileSlot_eq]
    refine h.inv.holes _ hl (by simp) _ ?_
    have hmod := Nat.div_add_mod off BSIZE
    rw [Nat.mul_comm] at hmod
    omega

def smallUnlocked : Kernel := smallKernel.setInode 0 ((smallKernel.inode 0).withLocked false)

theorem smallUnlocked_sound : Sound smallUnlocked smallTable ∅ :=
  ⟨smallKernel_inv.setInode _ _, smallKernel_table.touch (by decide) (by decide) rfl rfl rfl id⟩

theorem ilock_smallUnlocked : ilock 0 smallUnlocked = .ok () smallKernel := by
  have hrun : ilock 0 smallUnlocked =
      .ok () (smallUnlocked.setInode 0 ((smallUnlocked.inode 0).withLocked true)) := rfl
  rw [hrun]
  congr 1
  simp only [smallUnlocked, Kernel.setInode, update_idem, update_self]
  rw [show ((smallKernel.inode 0).withLocked false).withLocked true = smallKernel.inode 0 from rfl,
    update_eq_self]

theorem smallUnlocked_run (off n : Nat) (hoff : off ≤ (smallTable 1).size)
    (hmax : off + n ≤ MAXFILE * BSIZE)
    (hroom : WriteRoom True smallKernel smallTable 1 smallKernel.log.lh (touched off n)) :
    ∃ a k', filewriteChunk 0 (.kernel fun _ => 7) 0 off n smallUnlocked = .ok (n, a) k' := by
  obtain ⟨r, k1, hrun, t, hr, -, hall, D', dirty', hw⟩ := ok_of_wp (writei_spec (.kernel fun _ => 7) 0
    smallKernel_inv smallKernel_table smallKernel_opened hoff hmax (hroom.fits _))
  have ht : t = n := hall fun hu => by cases hu
  rw [hr, ht] at hrun
  have hin : (k1.inode 0).locked = true ∧ (k1.inode 0).ref = 1 := by
    rw [hw.entry, update_self]
    exact ⟨rfl, rfl⟩
  have hun : iunlock 0 k1 = .ok () (k1.setInode 0 ((k1.inode 0).withLocked false)) := by
    rw [ok_iff_wp]
    simp [iunlock, hin]
  simp only [filewriteChunk, bind, EStateM.bind, ilock_smallUnlocked, hrun, hun]
  exact ⟨_, _, rfl⟩

/-- A chunk of 2000 bytes that starts near the end of the only block of the file. -/
theorem chunk_fits_reservation_small :
    ∃ (a : Nat) (k' : Kernel),
      filewriteChunk 0 (.kernel fun _ => 7) 0 1000 2000 smallUnlocked = .ok ((2000 : Nat), a) k' ∧
      ∃ S : Finset Nat, S.card ≤ MAXOPBLOCKS ∧
        ∀ c, c ∈ k'.log.lh ↔ c ∈ smallUnlocked.log.lh ∨ c ∈ S := by
  obtain ⟨a, k', hrun⟩ := smallUnlocked_run 1000 2000 (by decide) (by decide)
    fun _ => ⟨by decide, by decide, by decide, le_trans (by decide) smallKernel_free⟩
  obtain ⟨S, hcard, -, hiff⟩ := chunk_fits_reservation smallUnlocked_sound (by decide) (by decide)
    (by decide) (by decide) (by decide) (by decide) hrun
  exact ⟨a, k', hrun, S, hcard, hiff⟩

end Xv6.Fs
