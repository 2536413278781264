import Xv6.Fs.Unwritten

/-!
# Crash consistency

The power may fail in the middle of any call, and again in each recovery. Whatever calls were
made and wherever the power failed, recovery completes and a file system check finds nothing
wrong: the image it leaves is the one of the last commit, or of the one that was cut short.
-/

namespace Xv6.Fs

open Xv6.Foundation Xv6.Disk

set_option autoImplicit false

/-! ## Runs with power failures -/

inductive Event where
  | call (op : FsOp)
  /-- The power fails after the first `n` block writes of `op`, and after `ns` block writes of
  the recoveries that follow. -/
  | crash (op : FsOp) (n : Nat) (ns : List Nat)

/-- The first recovery that is let run to its end. -/
def restart (k : Kernel) (op : FsOp) (n : Nat) (ns : List Nat) : EStateM.Result Panic Kernel Unit :=
  recoverFromLog ((powerOff k).reboot (interruptedRecoveries (powerOff k) (crashAfter op.run k n) ns))

/-- The call is on inodes of the image, it is not an `end_op` without its `begin_op`, and the
block numbers in the header are words. -/
structure Allowed (k : Kernel) (op : FsOp) : Prop where
  on : op.On k
  opened : op = .endOp → 0 < k.log.outstanding
  word : ∀ b ∈ k.log.lh, b < 2 ^ 32

def Life (k : Kernel) : Option Event → Kernel → Prop
  | none, _ => False
  | some (.call op), k' => Allowed k op ∧ op.run k = .ok () k'
  | some (.crash op n ns), k' => Allowed k op ∧ restart k op n ns = .ok () k'

def OpenStep (k : Kernel) : Option FsOp → Kernel → Prop
  | none, _ => False
  | some op, k' => op ≠ .endOp ∧ Life k (some (.call op)) k'

def Shows (k : Kernel) (c : Nat → Block) : Prop := ∀ b, k.sb.inodestart ≤ b → k.disk b = c b

/-! ## Images -/

def Image (k : Kernel) (d : Nat → Block) : Prop :=
  ∃ D dirty, Sound ((powerOff k).reboot d) D dirty

section Images
variable {k k' : Kernel} {D : DTable} {dirty : Set Nat} {c d : Nat → Block}

theorem Sound.restart (h : Sound k D dirty) (hc : CacheInv k' dirty [] []) (hlh : k'.log.lh = [])
    (hboot : (powerOff k').reboot = (powerOff k).reboot) (hrefs : ∀ i, (k'.inode i).ref = 0)
    (hview : ∀ b, k.sb.inodestart ≤ b → b ∉ dirty → k'.view b = k.view b) : Sound k' D dirty := by
  obtain ⟨hsb, hstart, hsize, hdev⟩ := boot_eq hboot
  have hi := (h.setLog (l := { k.log with
    outstanding := k'.log.outstanding, committing := k'.log.committing }) rfl rfl rfl rfl).inv
  refine ⟨hi.frame (by rwa [hlh]) ⟨hsb, hstart, hsize, rfl, rfl, hdev⟩ (by simp [hlh]) ?_ ?_ ?_
    (fun _ => Or.inl), ⟨fun i _ _ _ hr => ?_, fun i _ hr => ?_, fun i _ hr => ?_⟩⟩
  · rw [hlh, hsize]
    exact Nat.zero_lt_of_lt h.inv.room
  · exact fun b hlo hlt => hview b hlo (h.inv.not_dirty_meta hlt)
  · intro i hl hz
    refine hview _ ?_ (h.inv.not_dirty_indirect hl)
    have hlow := h.inv.geo.inodestart_le_bmapstart.trans (bmapstart_lt_datastart k.sb).le
    exact hlow.trans (h.inv.owned.range _ _ (used_indirect (v := k.view) hl hz)).1
  all_goals exact absurd (hrefs i) hr.ne'

theorem Sound.image (h : Sound k D dirty)
    (hd : ∀ b, k.sb.inodestart ≤ b → b ∉ dirty → d b = k.view b) : Image k d :=
  ⟨D, dirty, h.restart ((reboot_cacheInv _ d).dirty_mono (Set.empty_subset _)) rfl rfl (fun _ => rfl)
    fun b hlo hb => (reboot_view _ d b).trans (hd b hlo hb)⟩

end Images

/-! ## Recovery -/

section Recovery
variable {k k' : Kernel} {c d : Nat → Block}

theorem installFrom_mounted (bs : List Nat) (tail : Nat) (h : CacheInv k ∅ [] [])
    (hdev : k.log.dev = ROOTDEV) : wp (installFrom true tail bs)
      (fun _ k' => CacheInv k' ∅ [] [] ∧ ∃ ws, Wrote k k' ws) (fun _ _ => True) k := by
  induction bs generalizing k tail with
  | nil => exact ⟨h, [], rfl, rfl, rfl, rfl, by simp⟩
  | cons b bs ih =>
    change CacheInv k ∅ (pinsLeft true (b :: bs)) [] at h
    refine wp_seq (installBlock_spec h hdev (Set.notMem_empty _)) ?_ (fun _ _ _ => trivial)
    rintro _ k1 ⟨h1, w1, -⟩
    rw [Set.empty_sdiff] at h1
    refine wp_post (ih (tail + 1) h1 (by rw [w1.log, hdev])) ?_
    rintro _ k2 ⟨h2, ws, w2⟩
    exact ⟨h2, _, w1.trans w2⟩

theorem recover_mounted (hdev : k.log.dev = ROOTDEV) : wp recoverFromLog
      (fun _ k' => CacheInv k' ∅ [] [] ∧ k'.sb = k.sb ∧ k'.inode = k.inode ∧
        k'.log = (k.reboot d).log) (fun _ _ => True) (k.reboot d) := by
  rw [recoverFromLog, wp_bind, readHead, wp_bind, wp_get]
  rw [show (k.reboot d).log.dev = ROOTDEV from hdev]
  refine wp_seq (bread_spec (reboot_cacheInv k d) _) ?_ (fun _ _ _ => trivial)
  rintro buf k1 ⟨h1, q1, -⟩
  rw [wp_bind, bufData_spec h1 List.mem_cons_self, wp_bind, setLh_spec]
  refine wp_sure_post (brelse_spec (h1.setLog _) List.mem_cons_self) ?_
  rintro _ k2 ⟨h2, q2, -⟩
  rw [List.erase_cons_head] at h2
  have hdev2 : k2.log.dev = ROOTDEV := by rw [q2.log]; exact (congrArg Log.dev q1.log).trans hdev
  rw [wp_bind, installTrans, wp_bind, wp_get]
  refine wp_post (installFrom_mounted _ 0 h2 hdev2) ?_
  rintro _ k3 ⟨h3, ws, w3⟩
  rw [wp_bind, setLh_spec]
  refine wp_mono (writeHead_spec (h3.setLog _) (by simp only [w3.log, hdev2])) ?_
    (fun _ _ _ => trivial)
  rintro _ k4 ⟨e, h4, w4, -⟩
  rw [Set.empty_sdiff] at h4
  refine ⟨h4, ?_, ?_, ?_⟩
  · rw [w4.sb, w3.sb, q2.sb]; exact q1.sb
  · rw [w4.inode, w3.inode, q2.inode]; exact q1.inode
  · rw [w4.log, w3.log, q2.log]
    simp only [q1.log]
    rfl

/-- A disk from which recovery finds the image `c`. -/
def Pending (k : Kernel) (c d : Nat → Block) : Prop :=
  Settled k.log c d ∨ ∃ lh v c₀, lh.length < NBUF ∧ lh.length < k.log.size ∧
    (∀ b ∈ lh, ¬ k.log.inArea b) ∧ Logged k.log lh v c₀ d ∧ c = installed lh v c₀

theorem Pending.recover (h : Pending k c d) (hdev : k.log.dev = ROOTDEV) (hsize : 0 < k.log.size)
    (ns : List Nat) :
    ∃ k', recoverFromLog ((powerOff k).reboot (interruptedRecoveries (powerOff k) d ns)) = .ok () k' ∧
      Settled k.log c k'.disk := by
  rcases h with h | ⟨lh, v, c₀, hlen, hroom, hhome, h, rfl⟩
  · exact Settled.recoveries (k := powerOff k) h hdev hsize ns
  · exact Logged.recoveries (k := powerOff k) h hdev hlen hroom hhome ns

end Recovery

/-! ## The invariant -/

/-- What holds between calls, whatever happened before. -/
structure Lasting (k : Kernel) : Prop where
  sound : ∃ D dirty, Sound k D dirty
  clean : headN (k.disk k.log.start) = 0
  image : Image k k.disk

section Steps
variable {k k' : Kernel} {D : DTable} {dirty : Set Nat} {c d : Nat → Block} {op : FsOp}

theorem Lasting.idle (h : Lasting k) (hs : ∃ D dirty, Sound k' D dirty) (hi : Idle k k') :
    Lasting k' := by
  obtain ⟨hdisk, -, hboot⟩ := hi
  refine ⟨hs, ?_, ?_⟩
  · rw [hdisk, (boot_eq hboot).2.1]
    exact h.clean
  · rw [Image, hboot, hdisk]
    exact h.image

theorem lasting_of_settled (hs : Sound k D dirty) (hlh : k.log.lh = [])
    (hd : Settled k.log c k.disk) : Lasting k := by
  refine ⟨⟨D, dirty, hs⟩, hd.head, hs.image fun b _ hb => ?_⟩
  have hc := hs.inv.cache
  rw [hlh] at hc
  exact (hc.view_eq_disk (by simp) hb).symm

theorem not_inArea (g : Geometry k.sb k.log) {b : Nat} (hb : k.sb.inodestart ≤ b) :
    ¬ k.log.inArea b := fun ha => absurd ha.2 (by have := g.log; omega)

theorem Image.lasting (h : Image k c) (hdev : k.log.dev = ROOTDEV) (g : Geometry k.sb k.log)
    (hr : recoverFromLog ((powerOff k).reboot d) = .ok () k') (hd : Settled k.log c k'.disk) :
    Lasting k' := by
  obtain ⟨D, dirty, hs⟩ := h
  obtain ⟨hc, hsb, hin, hlog⟩ := (wp_of_ok hr).mp (recover_mounted (k := powerOff k) hdev)
  have hboot : (powerOff k').reboot = (powerOff ((powerOff k).reboot c)).reboot := by
    funext e
    simp [powerOff, Kernel.reboot, hsb, hlog]
  have hlh : k'.log.lh = [] := by rw [hlog]; rfl
  have hs' : Sound k' D dirty := by
    refine hs.restart (hc.dirty_mono (Set.empty_subset _)) hlh hboot (fun i => by rw [hin]; rfl) ?_
    intro b hb _
    rw [reboot_view, hc.view_eq_disk (by simp) (by simp)]
    exact hd.home b (not_inArea g hb)
  exact lasting_of_settled hs' hlh (c := c) (by rw [hlog]; exact ⟨hd.head, hd.home⟩)

theorem Sound.image_installed (h : Sound k D dirty) : Image k (installed k.log.lh k.view k.disk) := by
  refine h.image fun b _ hb => ?_
  rw [installed]
  split
  · rfl
  · exact (h.inv.cache.view_eq_disk ‹_› hb).symm

theorem Sound.ready (h : Sound k D dirty) (hclean : headN (k.disk k.log.start) = 0)
    (hword : ∀ b ∈ k.log.lh, b < 2 ^ 32) (hne : k.log.lh ≠ []) (hfull : k.log.lh.length < NBUF) :
    CommitReady k dirty ⟨k.log.lh, hfull.le, hword⟩ where
  header := rfl
  pos := List.length_pos_iff.mpr hne
  room := by have := h.inv.room; simp only; omega
  home b hb := not_inArea h.inv.geo (h.inv.home b hb)
  dev := h.inv.dev
  cache := h.inv.cache
  clean := hclean

/-- A commit with nothing to write, or with every buffer pinned, writes nothing. -/
theorem Sound.commit_nothing (h : Sound k D dirty) (hn : k.log.lh = [] ∨ NBUF ≤ k.log.lh.length) :
    wp commit (fun _ k' => k' = k) (fun _ k' => k'.writes = k.writes) k := by
  have hi := h.inv
  rcases hn with hn | hn
  · rw [commit, wp_bind, wp_get, if_neg (by simp [hn])]
    rfl
  · refine wp_mono (commit_dry hi.cache hi.dev hn fun hm => ?_) (fun _ _ hf => hf.elim)
      fun _ _ q => q.2.writes
    have := hi.room
    exact not_inArea hi.geo (hi.home _ hm) ⟨by omega, by simp only [NBUF, MAXOPBLOCKS] at hn; omega⟩

/-- Cut short anywhere, the block writes `ws` leave the image on the disk or, if `new` holds, the
one that a commit installs. -/
def Safe (k : Kernel) (new : Prop) (ws : List (Nat × Block)) : Prop :=
  ∀ n, ∃ c, (c = k.disk ∨ new ∧ c = installed k.log.lh k.view k.disk) ∧ Image k c ∧
    Pending k c (applyWrites (ws.take n) k.disk)

/-- A call can be cut short anywhere, and if it returns all is well. -/
def CanCrash (k : Kernel) (new : Prop) (f : K Unit) : Prop :=
  wp f (fun _ k' => Lasting k' ∧ Safe k new (k'.writes.drop k.writes.length))
    (fun _ k' => Safe k new (k'.writes.drop k.writes.length)) k

theorem canCrash_iff {new : Prop} {f : K Unit} : CanCrash k new f ↔
    Safe k new (ranWrites f k) ∧ wp f (fun _ k' => Lasting k') (fun _ _ => True) k := by
  unfold CanCrash wp ranWrites
  cases f k
  · exact and_comm
  · exact (and_iff_left trivial).symm

theorem Lasting.safe_nil (h : Lasting k) {new : Prop} (he : k'.writes = k.writes) :
    Safe k new (k'.writes.drop k.writes.length) := by
  intro n
  rw [he, List.drop_length, List.take_nil]
  exact ⟨k.disk, Or.inl rfl, h.image, Or.inl ⟨h.clean, fun _ _ => rfl⟩⟩

theorem Lasting.commit (h : Lasting k) (hs : Sound k D dirty)
    (hword : ∀ b ∈ k.log.lh, b < 2 ^ 32) : CanCrash k True commit := by
  by_cases hn : k.log.lh = [] ∨ NBUF ≤ k.log.lh.length
  · refine wp_mono (hs.commit_nothing hn) ?_ fun _ _ he => h.safe_nil he
    rintro _ _ rfl
    exact ⟨h, h.safe_nil rfl⟩
  obtain ⟨hne, hfull⟩ := not_or.mp hn
  have hr := hs.ready h.clean hword hne (Nat.not_le.mp hfull)
  refine canCrash_iff.mpr ⟨fun n => ?_, wp_mono (wp_and (commit_undisturbed (R := False) hs False.elim)
    (commit_spec hr.cache hr.dev hr.pos (Nat.not_le.mp hfull) hs.inv.room hr.home)) ?_ fun _ _ _ => trivial⟩
  · rw [List.take_eq_take_min]
    rcases hr.crashAfter (Nat.min_le_right n _) with ⟨-, hd⟩ | ⟨hlt, hd⟩ | hd
    · exact ⟨_, Or.inl rfl, h.image, Or.inl hd⟩
    · exact ⟨_, Or.inr ⟨trivial, rfl⟩, hs.image_installed,
        Or.inr ⟨_, _, _, hlt, hs.inv.room, hr.home, hd, rfl⟩⟩
    · exact ⟨_, Or.inr ⟨trivial, rfl⟩, hs.image_installed, Or.inl hd⟩
  · rintro _ k1 ⟨hu, d, d', -, hcom⟩
    have hd := (hr.logged d).install hs.inv.room d'
    rw [← applyWrites_append, ← List.append_assoc] at hd
    refine lasting_of_settled hu.sound (by rw [hcom.log]) (c := installed k.log.lh k.view k.disk) ?_
    rw [hcom.log, hcom.disk]
    exact ⟨hd.head, hd.home⟩

theorem Lasting.setCounts (h : Lasting k) (n : Nat) (b : Bool) :
    Lasting { k with log := { k.log with outstanding := n, committing := b } } := by
  obtain ⟨D, dirty, hs⟩ := h.sound
  exact h.idle ⟨D, dirty, hs.setLog rfl rfl rfl rfl⟩ ⟨rfl, rfl, rfl⟩

theorem Safe.of_counts {n : Nat} {b : Bool} {new : Prop} {ws : List (Nat × Block)}
    (h : Safe { k with log := { k.log with outstanding := n, committing := b } } new ws) :
    Safe k new ws := by
  intro m
  obtain ⟨c, hc, hi, hp⟩ := h m
  refine ⟨c, hc, hi, ?_⟩
  rcases hp with hp | ⟨lh, v, c₀, hlen, hroom, hhome, hp, rfl⟩
  · exact Or.inl ⟨hp.head, hp.home⟩
  · exact Or.inr ⟨lh, v, c₀, hlen, hroom, hhome, ⟨hp.head, hp.body, hp.home⟩, rfl⟩

/-- One call: only `end_op` can leave a new image. -/
theorem Lasting.canCrash (h : Lasting k) (ha : Allowed k op) : CanCrash k (op = .endOp) op.run := by
  obtain ⟨D, dirty, hs⟩ := h.sound
  by_cases hop : op = .endOp
  · subst hop
    rw [CanCrash, FsOp.run, endOp, wp_bind, wp_get]
    rcases GroupCommit.endOpSection_cases k.log with ⟨he, -⟩ | ⟨he, -, -⟩ | ⟨he, -, -⟩ <;> rw [he]
    · exact h.safe_nil rfl
    · have hc := (h.setCounts (k.log.outstanding - 1) true).commit
        (hs.setLog rfl rfl rfl rfl) ha.word
      simp only [setLog, wp_bind, wp_modify, wp_when]
      refine ⟨fun _ => wp_mono hc ?_ fun _ _ hf => hf.of_counts, fun hf => by cases hf⟩
      exact fun _ k1 h1 => ⟨h1.1.setCounts _ _, h1.2.of_counts⟩
    · exact ⟨h.setCounts _ _, h.safe_nil rfl⟩
  · refine wp_mono (wp_and (op.sound hs ha.on) (op.idles hop k ⟨rfl, rfl, rfl⟩)) ?_ ?_
    · exact fun _ k1 h1 => ⟨h.idle h1.1 h1.2, h.safe_nil h1.2.2.1⟩
    · exact fun _ k1 h1 => h.safe_nil h1.2.2.1

/-- A power failure in the middle of a call, and recovery. -/
theorem Lasting.crash (h : Lasting k) (ha : Allowed k op) (n : Nat) (ns : List Nat) :
    ∃ k', restart k op n ns = .ok () k' ∧ Lasting k' ∧
      (Shows k' k.disk ∨ op = .endOp ∧ Shows k' (installed k.log.lh k.view k.disk)) := by
  obtain ⟨D, dirty, hs⟩ := h.sound
  obtain ⟨c, hc, hi, hp⟩ := (canCrash_iff.mp (h.canCrash ha)).1 n
  obtain ⟨k', hr, hd⟩ := hp.recover hs.inv.dev (Nat.zero_lt_of_lt hs.inv.room) ns
  have hsb : k'.sb = k.sb := ((wp_of_ok hr).mp (recover_mounted (k := powerOff k) hs.inv.dev)).2.1
  have hshows : Shows k' c := fun b hb => hd.home b (not_inArea hs.inv.geo (hsb ▸ hb))
  refine ⟨k', hr, hi.lasting hs.inv.dev hs.inv.geo hr hd, ?_⟩
  rcases hc with rfl | ⟨hop, rfl⟩
  · exact Or.inl hshows
  · exact Or.inr ⟨hop, hshows⟩

theorem Lasting.fsck (h : Lasting k) : Fsck k := by
  obtain ⟨D, dirty, hs⟩ := h.sound
  exact hs.fsck

theorem Lasting.call (h : Lasting k) (hl : Life k (some (.call op)) k') : Lasting k' :=
  ((wp_of_ok hl.2).mp (h.canCrash hl.1)).1

theorem Lasting.open_run {ops : List FsOp} (h : Lasting k) (hr : Run OpenStep k ops k') :
    Lasting k' ∧ k'.disk = k.disk := by
  refine hr.invariant (I := fun _ k' => Lasting k' ∧ k'.disk = k.disk) ⟨h, rfl⟩
    (fun _ _ _ _ _ hs => hs.elim) ?_
  rintro _ k1 k2 op - ⟨h1, hd⟩ ⟨hop, hl⟩
  exact ⟨h1.call hl, ((wp_of_ok hl.2).mp (op.idles hop k1 ⟨rfl, rfl, rfl⟩)).1.trans hd⟩

end Steps

/-- From a consistent image, after any calls and power failures, a check finds nothing wrong. If
the power fails after further calls that did not commit, and in the middle of one more, recovery
completes: nothing of these calls is left or, in `end_op`, all of them are. -/
theorem crash_consistency {k₀ k : Kernel} {es : List Event} (hm : Mounted k₀) (hf : Fsck k₀)
    (hclean : headN (k₀.disk k₀.log.start) = 0) (hr : Run Life k₀ es k) :
    Fsck k ∧ ∀ ops k₁, Run OpenStep k ops k₁ → ∀ op, Allowed k₁ op → ∀ n ns,
      ∃ k', restart k₁ op n ns = .ok () k' ∧ Fsck k' ∧
        (Shows k' k.disk ∨ op = .endOp ∧ Shows k' (installed k₁.log.lh k₁.view k₁.disk)) := by
  have hl : Lasting k := by
    refine hr.invariant (I := fun _ k => Lasting k) ?_ (fun _ _ _ _ _ hs => hs.elim) ?_
    · exact lasting_of_settled (hm.sound hf) hm.lh ⟨hclean, fun _ _ => rfl⟩
    · rintro _ k1 k2 (op | ⟨op, n, ns⟩) - h1 hlife
      · exact h1.call hlife
      · obtain ⟨k', hr', h', -⟩ := h1.crash hlife.1 n ns
        cases hlife.2.symm.trans hr'
        exact h'
  refine ⟨hl.fsck, fun ops k₁ hr₁ op ha n ns => ?_⟩
  obtain ⟨hl₁, hdisk⟩ := hl.open_run hr₁
  obtain ⟨k', hrec, h', himg⟩ := hl₁.crash ha n ns
  rw [hdisk] at himg
  exact ⟨k', hrec, h'.fsck, by rwa [hdisk]⟩

theorem life_after {k : Kernel} {op : FsOp} (ha : Allowed k op) (hr : op.returns k = true) :
    Life k (some (.call op)) (op.after k) := ⟨ha, (FsOp.step_after ha.on hr).2⟩

/-- A new inode is logged, and the power fails after the second block write of the commit and
again in the recovery. -/
theorem crash_consistency_small : ∃ k k', Run OpenStep smallMounted [.ialloc 2, .beginOp] k ∧
    restart k .endOp 2 [0] = .ok () k' ∧ Fsck k' := by
  have h1 : Life smallMounted (some (.call .beginOp)) (FsOp.beginOp.after smallMounted) :=
    life_after ⟨trivial, by simp, by decide⟩ (by decide +kernel)
  set k1 := FsOp.beginOp.after smallMounted
  have h2 : Life k1 (some (.call (.ialloc 2))) ((FsOp.ialloc 2).after k1) :=
    life_after ⟨(by decide : 2 < 2 ^ 16), by simp, by decide +kernel⟩ (by decide +kernel)
  have hrun : Run OpenStep smallMounted [.ialloc 2, .beginOp] ((FsOp.ialloc 2).after k1) :=
    (Run.refl.event ⟨by simp, h1⟩).event ⟨by simp, h2⟩
  obtain ⟨k', hr, hf, -⟩ := (crash_consistency smallMounted_mounted smallMounted_fsck
    (by decide +kernel) .refl).2 _ _ hrun .endOp
      ⟨trivial, fun _ => by decide +kernel, by decide +kernel⟩ 2 [0]
  exact ⟨_, k', hrun, hr, hf⟩

end Xv6.Fs
