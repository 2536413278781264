import Xv6.Foundation.Run
import Xv6.Fs.ByteStrings
import Xv6.Fs.Directories

/-!
# What a file system check would find

Operations run one after another on a file system that was consistent when it was mounted. At
every operation boundary the bitmap, the dinodes, the indirect blocks and the in-memory inodes
agree, whether the operations succeeded, failed part-way or were refused.
-/

namespace Xv6.Fs

open Xv6.Foundation Xv6.Disk

set_option autoImplicit false

/-! ## The log between operations -/

section Log
variable {k k' : Kernel} {D : DTable} {dirty : Set Nat} {R : Prop}

theorem Sound.setLog {l : Log} (h : Sound k D dirty) (hstart : l.start = k.log.start)
    (hsize : l.size = k.log.size) (hdev : l.dev = k.log.dev) (hlh : l.lh = k.log.lh) :
    Sound { k with log := l } D dirty := by
  have hi := h.inv
  refine ⟨⟨?_, ?_, ?_, ?_, ?_, hi.owned, hi.metadata, hi.torn, hi.fits, hi.dinode, hi.holes⟩, h.table⟩
  · have hc := hi.cache.setLog l
    rwa [← hlh] at hc
  · exact ⟨by rw [hstart, hsize]; exact hi.geo.log, hi.geo.inodes, hi.geo.data, hi.geo.small⟩
  · exact hdev.trans hi.dev
  · intro b hb
    exact hi.home b (hlh ▸ hb)
  · have := hi.room
    rwa [← hlh, ← hsize] at this

/-- A commit moves the logged blocks home; nothing that the cache shows outside the log changes. -/
theorem committed_view {ws : List (Nat × Block)} {d d' : Block} (h : CacheInv k dirty k.log.lh [])
    (h' : CacheInv k' dirty [] []) (hc : Committed k k' ws)
    (hws : ws = commitWrites k.log.start k.view k.log.lh d d') (hroom : k.log.lh.length < k.log.size)
    {c : Nat} (hd : c ∉ dirty) (ha : ¬ k.log.inArea c) : k'.view c = k.view c := by
  have hstart : c ≠ k.log.start := fun he => ha ⟨by omega, by omega⟩
  have hlog : ∀ w ∈ logWrites k.log.start 0 k.view k.log.lh, w.1 ≠ c := by
    intro w hw he
    obtain ⟨h1, h2⟩ := logWrites_addr hw
    exact ha ⟨by omega, by omega⟩
  have hmem : ∀ w ∈ ws, w.1 = c → c ∈ k.log.lh ∧ w.2 = k.view c := by
    intro w hw he
    rw [hws, commitWrites] at hw
    simp only [List.append_assoc, List.mem_append, List.mem_singleton, List.mem_map] at hw
    rcases hw with hw | rfl | ⟨b, hb, rfl⟩ | rfl
    · exact absurd he (hlog w hw)
    · exact absurd he.symm hstart
    · obtain rfl : b = c := he
      exact ⟨hb, rfl⟩
    · exact absurd he.symm hstart
  rw [h'.view_eq_disk (by simp) hd, hc.disk]
  by_cases hl : c ∈ k.log.lh
  · refine applyWrites_of_mem (fun w hw he => (hmem w hw he).2) ?_
    rw [hws, commitWrites]
    simp only [List.append_assoc, List.mem_append, List.mem_map]
    exact Or.inr (Or.inr (Or.inl ⟨c, hl, rfl⟩))
  · rw [applyWrites_of_not_mem fun w hw he => hl (hmem w hw he).1, h.view_eq_disk hl hd]

/-- The file system is as it was, apart from the log. -/
structure Undisturbed (k k' : Kernel) (D : DTable) (dirty : Set Nat) : Prop where
  sound : Sound k' D dirty
  sb : k'.sb = k.sb
  inode : k'.inode = k.inode
  view : ∀ c, c ∉ dirty → k.sb.inodestart ≤ c → k'.view c = k.view c

theorem commit_undisturbed (h : Sound k D dirty) (hroom : R → k.log.lh.length < NBUF) :
    wp commit (fun _ k' => Undisturbed k k' D dirty) (Fail R) k := by
  have hi := h.inv
  have harea : ∀ b, k.sb.inodestart ≤ b → ¬ k.log.inArea b := fun b hb ha => by
    have := hi.geo.log
    have := ha.2
    omega
  by_cases hz : k.log.lh = []
  · rw [commit, wp_bind, wp_get, if_neg (by simp [hz])]
    exact ⟨h, rfl, rfl, fun _ _ _ => rfl⟩
  have hpos : 0 < k.log.lh.length := List.length_pos_iff.mpr hz
  by_cases hfull : NBUF ≤ k.log.lh.length
  · refine wp_mono (commit_dry hi.cache hi.dev hfull ?_) (fun _ _ hf => hf.elim) ?_
    · intro hm
      have hr := hi.room
      have hN : NBUF = 30 := rfl
      exact harea _ (hi.home _ hm) ⟨by omega, by omega⟩
    · rintro e k1 ⟨rfl, -⟩
      exact ⟨fun hR => absurd (hroom hR) (by omega), by simp⟩
  · refine wp_sure_post (commit_spec hi.cache hi.dev hpos (by omega) hi.room
      fun b hb => harea b (hi.home b hb)) ?_
    rintro _ k1 ⟨d, d', hc1, hcom⟩
    have hview : ∀ c, c ∉ dirty → k.sb.inodestart ≤ c → k1.view c = k.view c := fun c hd hlo =>
      committed_view hi.cache hc1 hcom rfl hi.room hd (harea c hlo)
    have hst : Steady k k1 := ⟨hcom.sb, by rw [hcom.log], by rw [hcom.log], by rw [hcom.log],
      by rw [hcom.log], by rw [hcom.log]⟩
    refine ⟨⟨hi.frame (by rw [hcom.log]; exact hc1) hst ?_ ?_ ?_ ?_ fun b hb => Or.inl hb, ?_⟩,
      hcom.sb, hcom.inode, hview⟩
    · rw [hcom.log]
      simp
    · rw [hcom.log]
      exact Nat.zero_lt_of_lt hi.room
    · exact fun c hlo hlt => hview c (hi.not_dirty_meta hlt) hlo
    · intro i hl hz
      refine hview _ (hi.not_dirty_indirect hl) ?_
      have hr := (hi.owned.range _ _ (used_indirect (v := k.view) hl hz)).1
      have hlow := hi.geo.inodestart_le_bmapstart.trans (bmapstart_lt_datastart k.sb).le
      omega
    · rw [hcom.inode, hcom.sb]
      exact h.table

theorem beginOp_eq {l : Log} (h : GroupCommit.beginOpPass k.log = some l) :
    beginOp k = .ok () { k with log := l } := by
  rw [ok_iff_wp]
  simp [beginOp, setLog, h]

theorem beginOp_undisturbed (h : Sound k D dirty) (hroom : R → GroupCommit.beginOpPass k.log ≠ none) :
    wp beginOp (fun _ k' => Undisturbed k k' D dirty ∧ ∃ l, GroupCommit.beginOpPass k.log = some l ∧
      k' = { k with log := l }) (Fail R) k := by
  rcases GroupCommit.beginOpPass_cases k.log with ⟨he, -⟩ | ⟨he, -, -⟩
  · rw [beginOp, wp_bind, wp_get, he]
    exact ⟨fun hR => hroom hR he, by simp⟩
  · rw [wp_of_ok (beginOp_eq he)]
    exact ⟨⟨h.setLog rfl rfl rfl rfl, rfl, rfl, fun _ _ _ => rfl⟩, _, he, rfl⟩

theorem beginOp_sound (h : Sound k D dirty) :
    wp beginOp (fun _ k' => Sound k' D dirty) (Fail False) k :=
  wp_post (beginOp_undisturbed h nofun) (fun _ _ h' => h'.1.sound)

theorem endOp_undisturbed (h : Sound k D dirty)
    (hroom : R → k.log.committing = false ∧ k.log.lh.length < NBUF) :
    wp endOp (fun _ k' => Undisturbed k k' D dirty) (Fail R) k := by
  rw [endOp, wp_bind, wp_get]
  rcases GroupCommit.endOpSection_cases k.log with ⟨he, hc⟩ | ⟨he, -, -⟩ | ⟨he, -, -⟩
  · rw [he]
    refine ⟨fun hR => ?_, by simp⟩
    rw [(hroom hR).1] at hc
    cases hc
  · rw [he]
    simp only [setLog, wp_bind, wp_modify, wp_when]
    refine ⟨fun _ => ?_, fun hf => by cases hf⟩
    refine wp_post (commit_undisturbed (h.setLog rfl rfl rfl rfl) fun hR => (hroom hR).2) ?_
    rintro _ k1 h1
    exact ⟨h1.sound.setLog rfl rfl rfl rfl, h1.sb, h1.inode, h1.view⟩
  · rw [he]
    simp only [setLog, wp_bind, wp_modify, wp_when]
    exact ⟨fun hf => (by cases hf), fun _ => ⟨h.setLog rfl rfl rfl rfl, rfl, rfl, fun _ _ _ => rfl⟩⟩

theorem endOp_sound (h : Sound k D dirty) :
    wp endOp (fun _ k' => Sound k' D dirty) (Fail False) k :=
  wp_post (endOp_undisturbed h nofun) (fun _ _ h' => h'.sound)

end Log

/-! ## Operations -/

/-- Calls that change the file system, each with the locking its callers do, and those that open
and close transactions and take references. -/
inductive FsOp where
  | beginOp
  | endOp
  | iget (inum : Nat)
  | ialloc (type : Nat)
  | writei (ip : Nat) (m : Mem) (src off n : Nat)
  | itrunc (ip : Nat)
  | iput (ip : Nat)
  | dirlink (dp : Nat) (name : Bytes) (inum : Nat)
  | unlink (dp : Nat) (name : Bytes)

def FsOp.run : FsOp → K Unit
  | .beginOp => Fs.beginOp
  | .endOp => Fs.endOp
  | .iget inum => do
    let _ ← Fs.iget ROOTDEV inum
    pure ()
  | .ialloc type => do
    let _ ← Fs.ialloc ROOTDEV type
    pure ()
  | .writei ip m src off n => do
    ilock ip
    let _ ← Fs.writei ip m src off n
    iunlock ip
  | .itrunc ip => do
    ilock ip
    Fs.itrunc ip
    iunlock ip
  | .iput ip => Fs.iput ip
  | .dirlink dp name inum => do
    ilock dp
    let _ ← Fs.dirlink dp name inum
    iunlock dp
  | .unlink dp name => do
    let _ ← Fs.unlink dp name
    pure ()

/-- The caller has a reference to entry `ip`, and it is for an inode of the image. -/
structure OnInode (k : Kernel) (ip : Nat) : Prop where
  entry : ip < NINODE
  ref : 0 < (k.inode ip).ref
  pos : 1 ≤ (k.inode ip).inum
  range : (k.inode ip).inum < k.sb.ninodes

/-- The operation is on inodes of the image, and its arguments have their C types. -/
def FsOp.On (k : Kernel) : FsOp → Prop
  | .beginOp | .endOp | .iget _ => True
  | .ialloc type => type < 2 ^ 16
  | .writei ip _ _ off n => OnInode k ip ∧ off < 2 ^ 32 ∧ n < 2 ^ 32
  | .itrunc ip => OnInode k ip
  | .iput ip => ip < NINODE ∧ 0 < (k.inode ip).ref
  | .dirlink dp _ _ => OnInode k dp
  | .unlink dp name => OnInode k dp ∧ FindsInode k dp name

def FsOp.Step (k : Kernel) : Option FsOp → Kernel → Prop
  | none, _ => False
  | some op, k' => op.On k ∧ op.run k = .ok () k'

section Ops
variable {k : Kernel} {D : DTable} {dirty : Set Nat}

theorem locked_sound {α : Type} {ip : Nat} {f : K α} (h : Sound k D dirty) (hon : OnInode k ip)
    (hf : ∀ k', Sound k' D dirty → Opened k' ip (k.inode ip).inum →
      wp f (fun _ k'' => ∃ D' dirty', Sound k'' D' dirty') (Fail False) k') :
    wp (ilock ip >>= fun _ => f >>= fun _ => iunlock ip)
      (fun _ k' => ∃ D' dirty', Sound k' D' dirty') (Fail False) k := by
  refine wp_then (ilock_spec h hon.entry hon.ref hon.pos hon.range) ?_
  rintro _ k1 ⟨h1, ho1, -⟩
  refine wp_then (hf k1 h1 ho1) ?_
  rintro _ k2 ⟨D2, dirty2, h2⟩
  refine wp_post (iunlock_spec h2 hon.entry) ?_
  rintro _ k3 ⟨h3, -⟩
  exact ⟨D2, dirty2, h3⟩

theorem FsOp.sound (op : FsOp) (h : Sound k D dirty) (hon : op.On k) :
    wp op.run (fun _ k' => ∃ D' dirty', Sound k' D' dirty') (Fail False) k := by
  cases op with
  | beginOp => exact wp_post (beginOp_sound h) (fun _ _ h' => ⟨D, dirty, h'⟩)
  | endOp => exact wp_post (endOp_sound h) (fun _ _ h' => ⟨D, dirty, h'⟩)
  | iget inum => exact wp_then (iget_spec h) (fun _ _ h' => ⟨D, dirty, h'.1⟩)
  | ialloc type =>
    exact wp_then (ialloc_spec hon h) (fun _ _ ⟨D', h'⟩ => ⟨D', dirty, h'⟩)
  | writei ip m src off n =>
    refine locked_sound h hon.1 fun k1 h1 ho1 => ?_
    exact wp_post (writei_sound m hon.2.1 hon.2.2 h1 ho1)
      (fun _ _ ⟨D', dirty', h', _⟩ => ⟨D', dirty', h'⟩)
  | itrunc ip =>
    refine locked_sound h hon fun k1 h1 ho1 => ?_
    exact wp_post (itrunc_spec h1.inv h1.table ho1)
      (fun _ _ h' => ⟨_, dirty, h'.1, h'.2.1⟩)
  | iput ip =>
    exact wp_post (iput_spec h hon.1 hon.2) (fun _ _ ⟨D', h', _⟩ => ⟨D', dirty, h'⟩)
  | dirlink dp name inum => exact locked_sound h hon fun k1 h1 ho1 => dirlink_spec name inum h1 ho1
  | unlink dp name =>
    exact wp_then (unlink_spec name h hon.1.entry hon.1.ref hon.1.pos hon.1.range hon.2)
      (fun _ _ h' => h')

end Ops

/-! ## The check -/

def diskTable (k : Kernel) : DTable := onDisk k.sb k.view

structure Fsck (k : Kernel) : Prop where
  /-- A data block is marked if and only if a slot of an allocated inode names it. -/
  bitmap : ∀ b, datastart k.sb ≤ b → b < k.sb.size →
    (marked k.sb k.view b ↔ ∃ s, Used k.sb (diskTable k) k.view s b)
  /-- No block is named twice. -/
  once : ∀ s t b, Used k.sb (diskTable k) k.view s b → Used k.sb (diskTable k) k.view t b → s = t
  /-- Only data blocks are named. -/
  data : ∀ s b, Used k.sb (diskTable k) k.view s b → datastart k.sb ≤ b ∧ b < k.sb.size
  /-- Every block below the size of a file is there. -/
  holes : ∀ i, Live k.sb (diskTable k) i → HoleFree (diskTable k) k.view i
  /-- A valid in-memory inode is its dinode. -/
  inodes : ∀ ip < NINODE, 0 < (k.inode ip).ref → (k.inode ip).valid = true →
    1 ≤ (k.inode ip).inum ∧ (k.inode ip).inum < k.sb.ninodes ∧
      (k.inode ip).din = diskTable k (k.inode ip).inum ∧ (diskTable k (k.inode ip).inum).type ≠ 0

/-- After `fsinit` with an empty log: nothing cached, no inode in use. -/
structure Mounted (k : Kernel) : Prop where
  cache : CacheInv k ∅ [] []
  geo : Geometry k.sb k.log
  dev : k.log.dev = ROOTDEV
  lh : k.log.lh = []
  logsize : 0 < k.log.size
  metadata : ∀ b < datastart k.sb, marked k.sb k.view b
  refs : ∀ ip < NINODE, (k.inode ip).ref = 0

section Check
variable {k : Kernel} {D : DTable} {dirty : Set Nat}

theorem Mounted.sound (h : Mounted k) (hf : Fsck k) : Sound k (diskTable k) ∅ := by
  refine ⟨⟨by rw [h.lh]; exact h.cache, h.geo, h.dev, by simp [h.lh], by rw [h.lh]; exact h.logsize, ?_,
    h.metadata, by simp, fun i => getDInode_fits _ _, fun _ _ _ _ => rfl, fun i hl _ => hf.holes i hl⟩,
    ?_⟩
  · exact ⟨hf.data, hf.once, List.nodup_nil, by simp, by simp, fun b hlo hhi => by
      rw [hf.bitmap b hlo hhi]; simp⟩
  · refine ⟨fun i hi j _ hri _ _ => ?_, fun i hi hri => ?_, fun i hi hri _ => ?_⟩ <;>
      exact absurd (h.refs i hi) hri.ne'

section
variable (h : Sound k D dirty)
include h

theorem Sound.table_eq {i : Nat} (h1 : 1 ≤ i) (hi : i < k.sb.ninodes) :
    diskTable k i = D i := h.inv.dinode i h1 hi (by simp)

theorem Sound.live_iff {i : Nat} : Live k.sb (diskTable k) i ↔ Live k.sb D i := by
  constructor
  · rintro ⟨h1, hi, ht⟩
    rw [h.table_eq h1 hi] at ht
    exact ⟨h1, hi, ht⟩
  · rintro ⟨h1, hi, ht⟩
    refine ⟨h1, hi, ?_⟩
    rw [h.table_eq h1 hi]
    exact ht

theorem Sound.slot_eq {s : Slot} (hl : Live k.sb D s.inode) :
    slotAddr (diskTable k) k.view s = slotAddr D k.view s :=
  slotAddr_of_eq (h.table_eq hl.1 hl.2.1)

theorem Sound.used_iff (s : Slot) (b : Nat) :
    Used k.sb (diskTable k) k.view s b ↔ Used k.sb D k.view s b := by
  constructor
  · rintro ⟨hl, ha, hz⟩
    have hl' := h.live_iff.mp hl
    exact ⟨hl', (h.slot_eq hl').symm.trans ha, hz⟩
  · rintro ⟨hl, ha, hz⟩
    exact ⟨h.live_iff.mpr hl, (h.slot_eq hl).trans ha, hz⟩

theorem Sound.fsck : Fsck k where
  bitmap b hlo hhi := by
    simp only [h.used_iff]
    rw [h.inv.owned.marked_iff b hlo hhi]
    simp
  once s t b hs ht := h.inv.owned.inj s t b ((h.used_iff s b).mp hs) ((h.used_iff t b).mp ht)
  data s b hs := h.inv.owned.range s b ((h.used_iff s b).mp hs)
  holes i hl bn hbn := by
    have hl' := h.live_iff.mp hl
    rw [h.table_eq hl.1 hl.2.1] at hbn
    rw [h.slot_eq (by rw [fileSlot_inode]; exact hl')]
    exact h.inv.holes i hl' (by simp) bn hbn
  inodes ip hip hr hv := by
    obtain ⟨h1, h2, h3, h4⟩ := h.table.valid ip hip hr hv
    rw [h.table_eq h1 h2]
    exact ⟨h1, h2, h3, h4⟩

end

/-- Every run keeps some table sound. -/
theorem run_sound {k₀ k : Kernel} {ops : List FsOp} (hm : Mounted k₀) (hf : Fsck k₀)
    (hr : Run FsOp.Step k₀ ops k) : ∃ D dirty, Sound k D dirty := by
  refine hr.invariant (I := fun _ k => ∃ D dirty, Sound k D dirty) ⟨_, _, hm.sound hf⟩
    (fun _ _ _ _ _ hs => hs.elim) ?_
  rintro _ k1 k2 op - ⟨D, dirty, h⟩ ⟨hon, hrun⟩
  have hs := op.sound h hon
  rwa [wp_of_ok hrun] at hs

/-- From a consistent image, after any operations on inodes of the image, a check finds nothing
wrong, and no further operation frees a free block. -/
theorem block_ownership {k₀ k : Kernel} {ops : List FsOp} (hm : Mounted k₀) (hf : Fsck k₀)
    (hr : Run FsOp.Step k₀ ops k) :
    Fsck k ∧ ∀ op : FsOp, op.On k → ∀ k', op.run k ≠ .error .freeingFreeBlock k' := by
  obtain ⟨D, dirty, h⟩ := run_sound hm hf hr
  refine ⟨h.fsck, fun op hon k' he => ?_⟩
  have hs := op.sound h hon
  rw [wp_of_error he] at hs
  exact hs.2 rfl

end Check

def smallMounted : Kernel :=
  { smallKernel with
    log := ⟨2, LOGSIZE, 0, false, ROOTDEV, []⟩
    inode := fun _ => ⟨ROOTDEV, 0, 0, false, false, freshDInode 0⟩ }

theorem smallMounted_mounted : Mounted smallMounted where
  cache := { smallKernel_cache with }
  geo := ⟨by decide, by decide, by decide, by decide⟩
  dev := rfl
  lh := rfl
  logsize := by decide
  metadata := smallKernel_inv.metadata
  refs _ _ := rfl

theorem smallMounted_fsck : Fsck smallMounted := by
  have h : Sound { smallKernel with log := ⟨2, LOGSIZE, 0, false, ROOTDEV, []⟩ } smallTable ∅ :=
    (show Sound smallKernel smallTable ∅ from ⟨smallKernel_inv, smallKernel_table⟩).setLog
      rfl rfl rfl rfl
  have hi := h.inv
  have hs : Sound smallMounted smallTable ∅ := by
    refine ⟨⟨{ hi.cache with }, hi.geo, hi.dev, hi.home, hi.room, hi.owned, hi.metadata, hi.torn,
      hi.fits, hi.dinode, hi.holes⟩, ⟨fun i _ _ _ hr _ _ => ?_, fun i _ hr => ?_, fun i _ hr _ => ?_⟩⟩
    all_goals exact absurd hr (Nat.lt_irrefl 0)
  exact hs.fsck

def FsOp.after (op : FsOp) (k : Kernel) : Kernel :=
  match op.run k with
  | .ok _ k' => k'
  | .error _ k' => k'

def FsOp.returns (op : FsOp) (k : Kernel) : Bool :=
  match op.run k with
  | .ok _ _ => true
  | .error _ _ => false

theorem FsOp.step_after {op : FsOp} {k : Kernel} (hon : op.On k) (h : op.returns k = true) :
    FsOp.Step k (some op) (op.after k) := by
  refine ⟨hon, ?_⟩
  unfold FsOp.returns at h
  unfold FsOp.after
  split at h
  · rename_i hr
    rw [hr]
  · cases h

def smallWrite : FsOp := .writei 0 (.kernel fun _ => 7) 0 1000 100

/-- The file is opened, extended into a new block and the transaction committed. -/
theorem block_ownership_small :
    ∃ k, Run FsOp.Step smallMounted [.endOp, smallWrite, .beginOp, .iget 1] k ∧
      k.disk 47 7 = 7 ∧ k.log.lh = [] ∧ Fsck k := by
  have h1 : FsOp.Step smallMounted (some (.iget 1)) ((FsOp.iget 1).after smallMounted) :=
    FsOp.step_after trivial (by decide +kernel)
  set k1 := (FsOp.iget 1).after smallMounted
  have h2 : FsOp.Step k1 (some .beginOp) (FsOp.beginOp.after k1) :=
    FsOp.step_after trivial (by decide +kernel)
  set k2 := FsOp.beginOp.after k1
  have h3 : FsOp.Step k2 (some smallWrite) (smallWrite.after k2) := by
    refine FsOp.step_after ⟨⟨?_, ?_, ?_, ?_⟩, ?_, ?_⟩ ?_ <;> decide +kernel
  set k3 := smallWrite.after k2
  have h4 : FsOp.Step k3 (some .endOp) (FsOp.endOp.after k3) :=
    FsOp.step_after trivial (by decide +kernel)
  have hrun := ((Run.refl.event h1).event h2).event h3 |>.event h4
  exact ⟨_, hrun, by decide +kernel, by decide +kernel,
    (block_ownership smallMounted_mounted smallMounted_fsck hrun).1⟩

end Xv6.Fs
