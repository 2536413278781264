import Mathlib.Data.List.FinRange
import Mathlib.Tactic.Simps.Basic
import Xv6.Disk.Machine
import Xv6.Foundation.Threads

/-!
# Inodes, directories, open files and processes

The state that the system calls of `sysfile.c` share, and the sections of `fs.c`, `file.c`,
`pipe.c`, `proc.c` and `sysfile.c` that other processes see as one step. The contents of an inode
are the records of `sizeof(struct dirent)` bytes that `dirlookup` and `dirlink` read and write.
`disk` is what `bread` shows, and `committed` what a crash would leave of it. There is one device.
`P` is the type of processes.
-/

namespace Xv6.Namespace

open Xv6.Foundation
open Xv6.Disk (ROOTINO NINODE BSIZE MAXFILE)

set_option autoImplicit false

def NFILE : Nat := 100
def NOFILE : Nat := 16
def NDEV : Int := 10
def DIRSIZ : Nat := 14

def direntSize : Nat := 16

abbrev Slot := Fin NINODE

abbrev FileId := Fin NFILE

abbrev Fd := Fin NOFILE

abbrev Table := Fd → Option FileId

/-! ## On disk -/

abbrev Name := List Char

def dot : Name := ['.']
def dotdot : Name := ['.', '.']

structure Dirent where
  inum : Nat
  name : Name
  deriving DecidableEq

/-- What `memset(&de, 0, sizeof(de))` leaves. -/
def zeroDirent : Dirent := ⟨0, []⟩

/-- `T_DIR`, `T_FILE` and `T_DEVICE`; the type 0 of a free inode is `none`. -/
inductive FileType where
  | dir
  | file
  | device
  deriving DecidableEq

/-- `struct dinode`. `nlink` is the bit pattern of a `short`. -/
structure DInode where
  type : Option FileType
  major : Int
  nlink : Nat
  size : Nat
  ents : Nat → Dirent

/-- The value of a `short` with bit pattern `n`. -/
def short (n : Nat) : Int := if n < 2 ^ 15 then n else (n : Int) - 2 ^ 16

/-- `memset(dip, 0, sizeof(*dip)); dip->type = type` -/
def freshDInode (type : FileType) : DInode := ⟨some type, 0, 0, 0, fun _ => zeroDirent⟩

namespace DInode
variable (x : DInode)

def slots : Nat := x.size / direntSize

def IsDir : Prop := x.type = some .dir

instance : Decidable x.IsDir := inferInstanceAs (Decidable (x.type = some .dir))

def touches (off n slot : Nat) : Bool :=
  decide (off < (slot + 1) * direntSize ∧ slot * direntSize < off + n)

/-- The contents after `n` bytes from `off` on were written. -/
def overwrite (off n : Nat) (records : Nat → Dirent) : DInode :=
  { x with
    size := max x.size (off + n)
    ents := fun slot => if touches off n slot then records slot else x.ents slot }

/-- The contents after one whole record was written. -/
def writeSlot (slot : Nat) (de : Dirent) : DInode :=
  { x with
    size := max x.size ((slot + 1) * direntSize)
    ents := Function.update x.ents slot de }

end DInode

/-! ## In memory -/

/-- `struct inode`; `lock` is the owner of its sleep lock. -/
structure Inode (P : Type) where
  ref : Nat
  inum : Nat
  valid : Bool
  lock : Option P
  din : DInode

inductive FdType where
  | none
  | pipe
  | inode
  | device
  deriving DecidableEq

/-- `struct file`; `pipe` is the page of the pipe. -/
structure File where
  ref : Nat
  type : FdType
  readable : Bool
  writable : Bool
  pipe : Nat
  ip : Slot
  off : Nat

/-- A page as far as `pipealloc` and `pipeclose` use it. -/
structure PipePage where
  live : Bool
  readopen : Bool
  writeopen : Bool

/-- `p->state`. A process in `USED` is being made by the `fork` of another one. -/
inductive ProcState (P : Type) where
  | unused
  | used (parent : P)
  | running
  | zombie
  deriving DecidableEq

inductive Panic where
  | igetNoInodes
  | ilock
  | ilockNoType
  | iunlock
  | iallocNoInodes
  | dirlookupNotDir
  | dirlookupRead
  | dirlinkRead
  | dirlink
  | isdiremptyReadi
  | unlinkNlink
  | unlinkWritei
  | createDots
  | createDirlink
  | filedup
  | fileclose
  | fileread
  | filewrite
  | initExiting
  deriving DecidableEq

structure Kernel (P : Type) where
  disk : Nat → DInode
  committed : Nat → DInode
  outstanding : Nat
  inode : Slot → Inode P
  file : FileId → File
  pipe : Nat → PipePage
  initproc : P
  state : P → ProcState P
  cwd : P → Option Slot
  ofile : P → Table

/-! ## Actions -/

def O_RDONLY : Nat := 0x000
def O_WRONLY : Nat := 0x001
def O_RDWR : Nat := 0x002
def O_CREATE : Nat := 0x200
def O_TRUNC : Nat := 0x400

/-- `omode & flag` -/
def flagged (omode flag : Nat) : Bool := decide (omode &&& flag ≠ 0)

/-- One `writei` of `filewrite`: the bytes asked for, how many of them could be copied in, and the
records that they make. -/
structure Chunk where
  count : Nat
  copied : Nat
  records : Nat → Dirent

/-- The sections that other processes see as one step. -/
inductive Act (P : Type) where
  | panic (e : Panic)
  | beginOp
  | endOp
  | iget (inum : Nat)
  | idupCwd
  | takeCwd
  | setCwd (ip : Slot)
  | acquiresleep (ip : Slot)
  | iload (ip : Slot)
  | iunlock (ip : Slot)
  | read (ip : Slot)
  | iputTest (ip : Slot)
  | itrunc (ip : Slot)
  | clearType (ip : Slot)
  | invalidate (ip : Slot)
  | unref (ip : Slot)
  | tryAlloc (inum : Nat) (type : FileType)
  | initInode (ip : Slot) (major : Int)
  | incNlink (ip : Slot)
  | decNlink (ip : Slot)
  | writei (dp : Slot) (slot : Nat) (de : Dirent)
  | filealloc
  | fdalloc (f : FileId)
  | filedup (f : FileId)
  | argfd (fd : Nat)
  | clearFd (fd : Fd)
  | dropFile (f : FileId)
  | setFile (f : FileId) (ip : Slot) (omode : Nat)
  | readFile (f : FileId) (ip : Slot) (n : Nat) (fault : Bool)
  | writeFile (f : FileId) (ip : Slot) (c : Chunk)
  | pipeInit (rf wf : FileId) (page : Nat)
  | pipeClose (page : Nat) (writable : Bool)
  | kfree (page : Nat)
  | isInit
  | allocproc (q : P)
  | freeproc (q : P)
  | forkFd (q : P) (fd : Fd)
  | forkCwd (q : P)
  | forkRun (q : P)
  | exitProc
  | reap (q : P)

def Act.Resp {P : Type} : Act P → Type
  | .panic _ => Empty
  | .iget _ | .idupCwd | .takeCwd => Slot
  | .read _ => Nat × DInode
  | .iputTest _ | .tryAlloc _ _ | .writei _ _ _ | .pipeClose _ _ | .isInit => Bool
  | .filealloc => Option FileId
  | .fdalloc _ => Option Fd
  | .argfd _ => Option (Fd × FileId × File)
  | .dropFile _ => Option File
  | .readFile _ _ _ _ | .writeFile _ _ _ => Int
  | _ => Unit

abbrev K (P : Type) := Prog (Act P) Act.Resp

namespace Kernel
variable {P : Type} (k : Kernel P)

@[simps] def setInode (s : Slot) (x : Inode P) : Kernel P :=
  { k with inode := Function.update k.inode s x }

@[simps] def setFile (f : FileId) (x : File) : Kernel P :=
  { k with file := Function.update k.file f x }

@[simps] def setPipe (page : Nat) (x : PipePage) : Kernel P :=
  { k with pipe := Function.update k.pipe page x }

/-- Changes the in-memory copy of a locked inode and calls `iupdate`. -/
@[simps] def store (s : Slot) (x : DInode) : Kernel P :=
  { k with
    inode := Function.update k.inode s { k.inode s with din := x }
    disk := Function.update k.disk (k.inode s).inum x }

/-- The table entry that caches inode `i`. -/
def cached (i : Nat) : Option Slot :=
  (List.finRange NINODE).find? fun s => decide (0 < (k.inode s).ref ∧ (k.inode s).inum = i)

def emptyEntry : Option Slot := (List.finRange NINODE).find? fun s => decide ((k.inode s).ref = 0)

def freeFile : Option FileId := (List.finRange NFILE).find? fun f => decide ((k.file f).ref = 0)

def addRef (s : Slot) : Kernel P := k.setInode s { k.inode s with ref := (k.inode s).ref + 1 }

def dropRef (s : Slot) : Kernel P := k.setInode s { k.inode s with ref := (k.inode s).ref - 1 }

section
variable [DecidableEq P]

@[simps] def setCwd (p : P) (s : Option Slot) : Kernel P :=
  { k with cwd := Function.update k.cwd p s }

@[simps] def setState (p : P) (x : ProcState P) : Kernel P :=
  { k with state := Function.update k.state p x }

@[simps] def setFd (p : P) (fd : Fd) (f : Option FileId) : Kernel P :=
  { k with ofile := Function.update k.ofile p (Function.update (k.ofile p) fd f) }

end

end Kernel

def Table.free (t : Table) : Option Fd := (List.finRange NOFILE).find? fun fd => (t fd).isNone

/-- What `sys_open` stores in the file it allocated. -/
def File.opened (f : File) (ip : Slot) (omode : Nat) (x : DInode) : File :=
  { f with
    type := if x.type = some .device then .device else .inode
    ip := ip
    readable := !flagged omode O_WRONLY
    writable := flagged omode O_WRONLY || flagged omode O_RDWR
    off := if x.type = some .device then f.off else 0 }

/-- What `pipealloc` stores in one of its two files. -/
def File.pipeEnd (f : File) (page : Nat) (writable : Bool) : File :=
  { f with type := .pipe, readable := !writable, writable := writable, pipe := page }

variable {P : Type} [DecidableEq P]

/-- `argfd`: the descriptor and its file. -/
def Kernel.argfd (k : Kernel P) (p : P) (fd : Nat) : Option (Fd × FileId × File) :=
  if h : fd < NOFILE then (k.ofile p ⟨fd, h⟩).map fun f => (⟨fd, h⟩, f, k.file f) else none

/-- `readi` of `fileread`, with the update of `f->off`; `fault` if `copyout` fails. -/
def Kernel.readFile (k : Kernel P) (f : FileId) (ip : Slot) (n : Nat) (fault : Bool) :
    Int × Kernel P :=
  let off := (k.file f).off
  let r := min n ((k.inode ip).din.size - off)
  if fault then (-1, k) else (r, k.setFile f { k.file f with off := off + r })

/-- `writei` of `filewrite`, with the update of `f->off`. -/
def Kernel.writeFile (k : Kernel P) (f : FileId) (ip : Slot) (c : Chunk) : Int × Kernel P :=
  let x := (k.inode ip).din
  let off := (k.file f).off
  if off ≤ x.size ∧ off + c.count ≤ MAXFILE * BSIZE then
    let r := min c.copied c.count
    (r, (k.store ip (x.overwrite off r c.records)).setFile f { k.file f with off := off + r })
  else (-1, k)

/-- The locked section of `fileclose`: the file, if it was closed for the last time. -/
def Kernel.dropFile (k : Kernel P) (f : FileId) : Outcome (Kernel P) Panic (Option File) :=
  let ff := k.file f
  if ff.ref < 1 then .panic .fileclose
  else if 1 < ff.ref then .ok none (k.setFile f { ff with ref := ff.ref - 1 })
  else .ok (some ff) (k.setFile f { ff with ref := 0, type := .none })

/-- The effect of one action of process `p`. -/
def Kernel.exec (p : P) : (a : Act P) → Kernel P → Outcome (Kernel P) Panic a.Resp
  | .panic e, _ => .panic e
  | .beginOp, k => .ok () { k with outstanding := k.outstanding + 1 }
  -- the last operation commits, and meanwhile none begins
  | .endOp, k =>
    .ok () { k with
      outstanding := k.outstanding - 1
      committed := if k.outstanding = 1 then k.disk else k.committed }
  | .iget i, k =>
    match k.cached i with
    | some s => .ok s (k.addRef s)
    | none =>
      match k.emptyEntry with
      | some s => .ok s (k.setInode s { k.inode s with inum := i, ref := 1, valid := false })
      | none => .panic .igetNoInodes
  | .idupCwd, k =>
    match k.cwd p with
    | some s => .ok s (k.addRef s)
    | none => .blocked
  -- the pointer that `iput(p->cwd)` gets; `p->cwd` is not read again before it is set
  | .takeCwd, k =>
    match k.cwd p with
    | some s => .ok s (k.setCwd p none)
    | none => .blocked
  | .setCwd s, k => .ok () (k.setCwd p (some s))
  | .acquiresleep s, k =>
    if (k.inode s).ref < 1 then .panic .ilock
    else
      match (k.inode s).lock with
      | some _ => .blocked
      | none => .ok () (k.setInode s { k.inode s with lock := some p })
  | .iload s, k =>
    if (k.inode s).valid then .ok () k
    else if (k.disk (k.inode s).inum).type = none then .panic .ilockNoType
    else .ok () (k.setInode s { k.inode s with valid := true, din := k.disk (k.inode s).inum })
  | .iunlock s, k =>
    if (k.inode s).lock = some p ∧ 0 < (k.inode s).ref then
      .ok () (k.setInode s { k.inode s with lock := none })
    else .panic .iunlock
  | .read s, k => .ok ((k.inode s).inum, (k.inode s).din) k
  | .iputTest s, k =>
    if (k.inode s).ref = 1 ∧ (k.inode s).valid ∧ (k.inode s).din.nlink = 0 then
      match (k.inode s).lock with
      | some _ => .blocked
      | none => .ok true (k.setInode s { k.inode s with lock := some p })
    else .ok false (k.dropRef s)
  | .itrunc s, k => .ok () (k.store s { (k.inode s).din with size := 0 })
  | .clearType s, k => .ok () (k.store s { (k.inode s).din with type := none })
  | .invalidate s, k => .ok () (k.setInode s { k.inode s with valid := false, lock := none })
  | .unref s, k => .ok () (k.dropRef s)
  | .tryAlloc i type, k =>
    if (k.disk i).type = none then
      .ok true { k with disk := Function.update k.disk i (freshDInode type) }
    else .ok false k
  | .initInode s major, k => .ok () (k.store s { (k.inode s).din with major := major, nlink := 1 })
  | .incNlink s, k =>
    .ok () (k.store s { (k.inode s).din with nlink := ((k.inode s).din.nlink + 1) % 2 ^ 16 })
  | .decNlink s, k =>
    .ok () (k.store s { (k.inode s).din with
      nlink := ((k.inode s).din.nlink + (2 ^ 16 - 1)) % 2 ^ 16 })
  | .writei s slot de, k =>
    if slot * direntSize ≤ (k.inode s).din.size ∧ (slot + 1) * direntSize ≤ MAXFILE * BSIZE then
      .ok true (k.store s ((k.inode s).din.writeSlot slot de))
    else .ok false k
  | .filealloc, k =>
    match k.freeFile with
    | some f => .ok (some f) (k.setFile f { k.file f with ref := 1 })
    | none => .ok none k
  | .fdalloc f, k =>
    match (k.ofile p).free with
    | some fd => .ok (some fd) (k.setFd p fd (some f))
    | none => .ok none k
  | .filedup f, k =>
    if (k.file f).ref < 1 then .panic .filedup
    else .ok () (k.setFile f { k.file f with ref := (k.file f).ref + 1 })
  | .argfd fd, k => .ok (k.argfd p fd) k
  | .clearFd fd, k => .ok () (k.setFd p fd none)
  | .dropFile f, k => k.dropFile f
  | .setFile f s omode, k => .ok () (k.setFile f ((k.file f).opened s omode (k.inode s).din))
  | .readFile f s n fault, k => .ok (k.readFile f s n fault).1 (k.readFile f s n fault).2
  | .writeFile f s c, k => .ok (k.writeFile f s c).1 (k.writeFile f s c).2
  -- `kalloc` returns a page that is free
  | .pipeInit rf wf page, k =>
    if (k.pipe page).live then .blocked
    else
      .ok () (((k.setPipe page ⟨true, true, true⟩).setFile rf ((k.file rf).pipeEnd page false)).setFile
        wf ((k.file wf).pipeEnd page true))
  | .pipeClose page writable, k =>
    let pi := k.pipe page
    let pi := if writable then { pi with writeopen := false } else { pi with readopen := false }
    .ok (!pi.readopen && !pi.writeopen) (k.setPipe page pi)
  | .kfree page, k => .ok () (k.setPipe page { k.pipe page with live := false })
  | .isInit, k => .ok (decide (p = k.initproc)) k
  | .allocproc q, k => if k.state q = .unused then .ok () (k.setState q (.used p)) else .blocked
  | .freeproc q, k => .ok () (k.setState q .unused)
  | .forkFd q fd, k =>
    match k.ofile p fd with
    | none => .ok () k
    | some f =>
      if (k.file f).ref < 1 then .panic .filedup
      else .ok () ((k.setFile f { k.file f with ref := (k.file f).ref + 1 }).setFd q fd (some f))
  | .forkCwd q, k =>
    match k.cwd p with
    | some s => .ok () ((k.addRef s).setCwd q (some s))
    | none => .blocked
  | .forkRun q, k => .ok () (k.setState q .running)
  | .exitProc, k => .ok () (k.setState p .zombie)
  | .reap q, k => if k.state q = .zombie then .ok () (k.setState q .unused) else .blocked

end Xv6.Namespace
