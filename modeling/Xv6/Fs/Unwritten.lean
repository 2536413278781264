import Xv6.Disk.Crash
import Xv6.Fs.Consistency

/-!
# Calls that do not write the disk

Blocks reach the disk in `commit` and nowhere else: every other call of the file system leaves
the disk as it was, whether it returns or panics.
-/

namespace Xv6.Fs

open Xv6.Foundation Xv6.Disk

set_option autoImplicit false

/-- The machine without power: `iinit` will find an empty inode table. -/
def powerOff (k : Kernel) : Kernel :=
  { k with inode := fun _ => ⟨0, 0, 0, false, false, freshDInode 0⟩ }

/-- Nothing was written since `k₀`, and a reboot would find the same layout. -/
def Idle (k₀ k : Kernel) : Prop :=
  k.disk = k₀.disk ∧ k.writes = k₀.writes ∧ (powerOff k).reboot = (powerOff k₀).reboot

/-- A call that leaves the disk alone. -/
def Idles {α : Type} (k₀ : Kernel) (f : K α) : Prop :=
  ∀ k, Idle k₀ k → wp f (fun _ k' => Idle k₀ k') (fun _ k' => Idle k₀ k') k

theorem boot_eq {k k' : Kernel} (h : (powerOff k').reboot = (powerOff k).reboot) : k'.sb = k.sb ∧
    k'.log.start = k.log.start ∧ k'.log.size = k.log.size ∧ k'.log.dev = k.log.dev := by
  have hk := congrFun h k.disk
  have hl := congrArg Kernel.log hk
  exact ⟨(congrArg Kernel.sb hk :), (congrArg Log.start hl :), (congrArg Log.size hl :),
    (congrArg Log.dev hl :)⟩

theorem Idles.sb {α : Type} {k : Kernel} {f : K α} (hf : Idles k f) :
    wp f (fun _ k' => k'.sb = k.sb) (fun _ _ => True) k :=
  wp_mono (hf k ⟨rfl, rfl, rfl⟩) (fun _ _ h => (boot_eq h.2.2).1) fun _ _ _ => trivial

/-! ## Rules -/

section Rules
variable {α β : Type} {k₀ k : Kernel} {f : K α} {i dev b : Nat}

theorem Idles.bind {g : α → K β} (hf : Idles k₀ f) (hg : ∀ a, Idles k₀ (g a)) :
    Idles k₀ (f >>= g) := fun k h => wp_then (hf k h) fun a k' h' => hg a k' h'

theorem Idles.pure {a : α} : Idles k₀ (pure a : K α) := fun _ h => h

theorem Idles.throw {e : Panic} : Idles k₀ (throw e : K α) := fun _ h => h

theorem Idles.get {g : Kernel → K β} (hg : ∀ k, Idle k₀ k → Idles k₀ (g k)) :
    Idles k₀ (get >>= g) := fun k h => hg k h k h

theorem Idles.check {c : Bool} {e : Panic} : Idles k₀ (check c e) :=
  fun _ h => (wp_check _ _ _ _ _).mpr ⟨fun _ => h, fun _ => h⟩

theorem Idles.when {c : Bool} {f : K Unit} (hf : Idles k₀ f) : Idles k₀ (when c f) :=
  fun k h => (wp_when _ _ _ _ _).mpr ⟨fun _ => hf k h, fun _ => h⟩

theorem Idles.ite {c : Prop} [Decidable c] {g : K α} (hf : Idles k₀ f) (hg : Idles k₀ g) :
    Idles k₀ (if c then f else g) := fun k h => wp_ite (fun _ => hf k h) fun _ => hg k h

theorem Idles.setBuf {B : Buf} (h : Idle k₀ k) : Idles k₀ (set (k.setBuf i B) : K PUnit) :=
  fun _ _ => h

theorem Idles.setInode {x : Inode} (h : Idle k₀ k) : Idles k₀ (set (k.setInode i x) : K PUnit) :=
  fun _ _ => h

theorem Idles.modifyInode {x : Kernel → Inode} :
    Idles k₀ (modify fun k => k.setInode i (x k) : K PUnit) := fun _ h => h

theorem idles_bread : Idles k₀ (bread dev b) := by
  have hlock : ∀ i, Idles k₀ (bufAcquiresleep i) := fun _ =>
    .get fun _ h => Idles.check.bind fun _ => .setBuf h
  refine Idles.bind (.get fun k h => ?_) fun i => .get fun k h => ?_
  · split
    · exact (Idles.setBuf h).bind fun _ => (hlock _).bind fun _ => .pure
    split
    · exact (Idles.setBuf h).bind fun _ => (hlock _).bind fun _ => .pure
    · exact .throw
  · exact .ite .pure ((Idles.setBuf h).bind fun _ => .pure)

theorem idles_bufData : Idles k₀ (bufData i) := .get fun _ _ => .pure

theorem idles_setBufData {d : Block} : Idles k₀ (setBufData i d) :=
  fun _ h => h

theorem idles_brelse : Idles k₀ (brelse i) :=
  .get fun _ h => Idles.check.bind fun _ _ _ => h

theorem idles_logWrite : Idles k₀ (logWrite i) :=
  .get fun _ _ => Idles.check.bind fun _ => Idles.check.bind fun _ => .ite .pure
    fun _ h => h

theorem idles_store {d : Block} {g : Unit → K β} (hg : Idles k₀ (g ())) :
    Idles k₀ (setBufData i d >>= fun _ => logWrite i >>= g) :=
  idles_setBufData.bind fun _ => idles_logWrite.bind fun _ => hg

end Rules

/-! ## The functions of `fs.c` -/

section Functions
variable {k₀ : Kernel} {dev b ip inum type : Nat} {name : Bytes}

theorem idles_bzero : Idles k₀ (bzero dev b) := idles_bread.bind fun _ => idles_store idles_brelse

theorem idles_ballocFrom (fuel b : Nat) : Idles k₀ (ballocFrom dev fuel b) := by
  induction fuel generalizing b with
  | zero => exact .throw
  | succ fuel ih =>
    refine .get fun k _ => .ite (idles_bread.bind fun bp => idles_bufData.bind fun d => ?_) .throw
    split
    · exact idles_store (idles_brelse.bind fun _ => idles_bzero.bind fun _ => .pure)
    · exact idles_brelse.bind fun _ => ih _

theorem idles_balloc : Idles k₀ (balloc dev) := .get fun _ _ => idles_ballocFrom _ _

theorem idles_bfree : Idles k₀ (bfree dev b) :=
  .get fun _ _ => idles_bread.bind fun _ => idles_bufData.bind fun _ => Idles.check.bind fun _ =>
    idles_store idles_brelse

theorem idles_setDin {f : DInode → DInode} : Idles k₀ (setDin ip f) := .modifyInode

theorem idles_iupdate : Idles k₀ (iupdate ip) :=
  .get fun _ _ => idles_bread.bind fun _ => idles_bufData.bind fun _ => idles_store idles_brelse

theorem idles_iget : Idles k₀ (iget dev inum) := by
  refine .get fun k h => ?_
  split
  · exact (Idles.setInode h).bind fun _ => .pure
  split
  · exact (Idles.setInode h).bind fun _ => .pure
  · exact .throw

theorem idles_iallocFrom (fuel inum : Nat) : Idles k₀ (iallocFrom dev type fuel inum) := by
  induction fuel generalizing inum with
  | zero => exact .throw
  | succ fuel ih =>
    exact .get fun _ _ => .ite (idles_bread.bind fun _ => idles_bufData.bind fun _ =>
      .ite (idles_store (idles_brelse.bind fun _ => idles_iget))
        (idles_brelse.bind fun _ => ih _)) .throw

theorem idles_ialloc : Idles k₀ (ialloc dev type) := .get fun _ _ => idles_iallocFrom _ _

theorem idles_ilock : Idles k₀ (ilock ip) :=
  .get fun _ h => Idles.check.bind fun _ => Idles.check.bind fun _ => (Idles.setInode h).bind fun _ =>
    .when (idles_bread.bind fun _ => idles_bufData.bind fun _ => idles_brelse.bind fun _ =>
      Idles.modifyInode.bind fun _ => .check)

theorem idles_iunlock : Idles k₀ (iunlock ip) :=
  .get fun _ h => Idles.check.bind fun _ => .setInode h

theorem idles_bmap (bn : Nat) : Idles k₀ (bmap ip bn) := by
  refine .get fun k _ => .ite (.ite ?_ .pure) (.ite ((Idles.when ?_).bind fun _ => ?_) .throw)
  · exact idles_balloc.bind fun _ => idles_setDin.bind fun _ => .pure
  · exact idles_balloc.bind fun _ => idles_setDin
  · exact .get fun k _ => idles_bread.bind fun _ => idles_bufData.bind fun _ =>
      .ite (idles_balloc.bind fun _ => idles_bufData.bind fun _ => idles_store
        (idles_brelse.bind fun _ => .pure)) (idles_brelse.bind fun _ => .pure)

theorem idles_itruncDirect (is : List Nat) : Idles k₀ (itruncDirect ip is) := by
  induction is with
  | nil => exact .pure
  | cons i is ih =>
    exact .get fun _ _ => (Idles.when (idles_bfree.bind fun _ => idles_setDin)).bind fun _ => ih

theorem idles_itruncIndirect (bp : Nat) (js : List Nat) : Idles k₀ (itruncIndirect dev bp js) := by
  induction js with
  | nil => exact .pure
  | cons j js ih => exact idles_bufData.bind fun _ => (Idles.when idles_bfree).bind fun _ => ih

theorem idles_itrunc : Idles k₀ (itrunc ip) :=
  (idles_itruncDirect _).bind fun _ => .get fun _ _ => (Idles.when (idles_bread.bind fun _ =>
    (idles_itruncIndirect _ _).bind fun _ => idles_brelse.bind fun _ => idles_bfree.bind fun _ =>
      idles_setDin)).bind fun _ => idles_setDin.bind fun _ => idles_iupdate

theorem idles_iput : Idles k₀ (iput ip) :=
  .get fun _ h => (Idles.when (Idles.check.bind fun _ => (Idles.setInode h).bind fun _ =>
    idles_itrunc.bind fun _ => idles_setDin.bind fun _ => idles_iupdate.bind fun _ =>
      .modifyInode)).bind fun _ => .modifyInode

theorem idles_iunlockput : Idles k₀ (iunlockput ip) := idles_iunlock.bind fun _ => idles_iput

theorem idles_readiLoop (fuel : Nat) (m : Mem) (dst off tot n : Nat) :
    Idles k₀ (readiLoop ip fuel m dst off tot n) := by
  induction fuel generalizing m dst off tot with
  | zero => exact .pure
  | succ fuel ih =>
    refine .ite ((idles_bmap _).bind fun _ => .get fun _ _ => idles_bread.bind fun _ =>
      idles_bufData.bind fun d => idles_brelse.bind fun _ => ?_) .pure
    split
    · exact .pure
    · exact ih _ _ _ _

theorem idles_readDirent (off : Nat) (e : Panic) : Idles k₀ (readDirent ip off e) :=
  Idles.bind (.get fun _ _ => .ite .pure (idles_readiLoop _ _ _ _ _ _)) fun _ =>
    Idles.check.bind fun _ => .pure

theorem idles_writeiLoop (m : Mem) (fuel src off tot n : Nat) :
    Idles k₀ (writeiLoop ip m fuel src off tot n) := by
  induction fuel generalizing src off tot with
  | zero => exact .pure
  | succ fuel ih =>
    refine .ite ((idles_bmap _).bind fun _ => .get fun _ _ => idles_bread.bind fun _ =>
      idles_bufData.bind fun d => ?_) .pure
    dsimp only
    split
    · exact idles_setBufData.bind fun _ => idles_brelse.bind fun _ => .pure
    · exact idles_store (idles_brelse.bind fun _ => ih _ _ _)

theorem idles_writei (m : Mem) (src off n : Nat) : Idles k₀ (writei ip m src off n) :=
  .get fun _ _ => .ite .pure (.ite .pure ((idles_writeiLoop _ _ _ _ _ _).bind fun _ => .get fun _ _ =>
    (Idles.when idles_setDin).bind fun _ => idles_iupdate.bind fun _ => .pure))

theorem idles_dirlookupFrom (fuel off : Nat) : Idles k₀ (dirlookupFrom ip name fuel off) := by
  induction fuel generalizing off with
  | zero => exact .pure
  | succ fuel ih =>
    exact .get fun _ _ => .ite ((idles_readDirent _ _).bind fun _ =>
      .ite (idles_iget.bind fun _ => .pure) (ih _)) .pure

theorem idles_dirlookup : Idles k₀ (dirlookup ip name) :=
  .get fun _ _ => Idles.check.bind fun _ => idles_dirlookupFrom _ _

theorem idles_emptyDirent (fuel off : Nat) : Idles k₀ (emptyDirent ip fuel off) := by
  induction fuel generalizing off with
  | zero => exact .pure
  | succ fuel ih =>
    exact .get fun _ _ => .ite ((idles_readDirent _ _).bind fun _ => .ite .pure (ih _)) .pure

theorem idles_dirlink : Idles k₀ (dirlink ip name inum) := by
  refine idles_dirlookup.bind fun found => ?_
  split
  · exact idles_iput.bind fun _ => .pure
  · exact .get fun _ _ => (idles_emptyDirent _ _).bind fun _ => (idles_writei _ _ _ _).bind fun _ =>
      Idles.check.bind fun _ => .pure

theorem idles_isdiremptyFrom (fuel off : Nat) : Idles k₀ (isdiremptyFrom ip fuel off) := by
  induction fuel generalizing off with
  | zero => exact .pure
  | succ fuel ih =>
    exact .get fun _ _ => .ite ((idles_readDirent _ _).bind fun _ => .ite .pure (ih _)) .pure

theorem idles_unlink : Idles k₀ (unlink ip name) := by
  refine idles_ilock.bind fun _ => .ite (idles_iunlockput.bind fun _ => .pure)
    (idles_dirlookup.bind fun found => ?_)
  split
  · exact idles_iunlockput.bind fun _ => .pure
  refine idles_ilock.bind fun _ => .get fun k _ => Idles.check.bind fun _ => ?_
  extract_lets rest
  have hrest : ∀ empty, Idles k₀ (rest empty) := by
    refine fun empty => .ite ?_ (idles_iunlockput.bind fun _ => idles_iunlockput.bind fun _ => .pure)
    exact (idles_writei _ _ _ _).bind fun _ => Idles.check.bind fun _ =>
      (Idles.when (idles_setDin.bind fun _ => idles_iupdate)).bind fun _ => idles_iunlockput.bind fun _ =>
        idles_setDin.bind fun _ => idles_iupdate.bind fun _ => idles_iunlockput.bind fun _ => .pure
  exact .ite (Idles.bind (.get fun _ _ => idles_isdiremptyFrom _ _) hrest) (Idles.pure.bind hrest)

theorem idles_beginOp : Idles k₀ beginOp := by
  intro k h
  rw [beginOp, wp_bind, wp_get]
  rcases GroupCommit.beginOpPass_cases k.log with ⟨he, -⟩ | ⟨he, -, -⟩ <;> rw [he]
  · exact h
  · exact h

theorem FsOp.idles (op : FsOp) (hop : op ≠ .endOp) : Idles k₀ op.run := by
  cases op with
  | beginOp => exact idles_beginOp
  | endOp => exact absurd rfl hop
  | iget inum => exact idles_iget.bind fun _ => .pure
  | ialloc type => exact idles_ialloc.bind fun _ => .pure
  | writei ip m src off n =>
    exact idles_ilock.bind fun _ => (idles_writei _ _ _ _).bind fun _ => idles_iunlock
  | itrunc ip => exact idles_ilock.bind fun _ => idles_itrunc.bind fun _ => idles_iunlock
  | iput ip => exact idles_iput
  | dirlink dp name inum => exact idles_ilock.bind fun _ => idles_dirlink.bind fun _ => idles_iunlock
  | unlink dp name => exact idles_unlink.bind fun _ => .pure

end Functions

/-- In any state, a call other than `end_op` leaves the disk alone, also when it panics. -/
theorem only_endOp_writes (op : FsOp) (k : Kernel) : op = .endOp ∨
    wp op.run (fun _ k' => k'.disk = k.disk ∧ k'.writes = k.writes)
      (fun _ k' => k'.disk = k.disk ∧ k'.writes = k.writes) k :=
  or_iff_not_imp_left.mpr fun hop => wp_mono (op.idles hop k ⟨rfl, rfl, rfl⟩)
    (fun _ _ h => ⟨h.1, h.2.1⟩) fun _ _ h => ⟨h.1, h.2.1⟩

end Xv6.Fs
