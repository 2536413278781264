import Xv6.Foundation.Bytes
import Xv6.Foundation.Wp

/-!
# The file system's machine

The kernel variables that the buffer cache, the log and the inode layer share, and the
disk behind them. A run ends with a value or with the panic it reached; the state is
kept in both cases, and `writes` records the block writes in the order they were made.
-/

namespace Xv6.Disk

open Xv6.Foundation

set_option autoImplicit false

/-! ## `param.h`, `fs.h` -/

def ROOTDEV : Nat := 1
def ROOTINO : Nat := 1
def NINODE : Nat := 50
def MAXOPBLOCKS : Nat := 10
def LOGSIZE : Nat := MAXOPBLOCKS * 3
def NBUF : Nat := MAXOPBLOCKS * 3
def BSIZE : Nat := 1024
def FSMAGIC : Nat := 0x10203040
def NDIRECT : Nat := 12
def NINDIRECT : Nat := BSIZE / 4
def MAXFILE : Nat := NDIRECT + NINDIRECT
def IPB : Nat := BSIZE / 64
def BPB : Nat := BSIZE * 8
def DIRSIZ : Nat := 14

/-- A disk block; only the offsets below `BSIZE` are ever used. -/
abbrev Block := Bytes

structure Superblock where
  magic : Nat
  size : Nat
  nblocks : Nat
  ninodes : Nat
  nlog : Nat
  logstart : Nat
  inodestart : Nat
  bmapstart : Nat

/-- `struct buf`, without the list links: the order of the list is `Kernel.lru`. -/
structure Buf where
  valid : Bool
  dev : Nat
  blockno : Nat
  locked : Bool
  refcnt : Nat
  data : Block

/-- `struct log`; the list `lh` is `lh.block[0..lh.n)`. -/
structure Log where
  start : Nat
  size : Nat
  outstanding : Nat
  committing : Bool
  dev : Nat
  lh : List Nat

/-- The fields that a `struct dinode` and a `struct inode` share. The four shorts are
kept as their 16-bit patterns. -/
@[ext] structure DInode where
  type : Nat
  major : Nat
  minor : Nat
  nlink : Nat
  size : Nat
  addrs : Nat → Nat

structure Inode where
  dev : Nat
  inum : Nat
  ref : Nat
  locked : Bool
  valid : Bool
  din : DInode

structure DInode.Fits (x : DInode) : Prop where
  type : x.type < 2 ^ 16
  major : x.major < 2 ^ 16
  minor : x.minor < 2 ^ 16
  nlink : x.nlink < 2 ^ 16
  size : x.size < 2 ^ 32
  addrs : ∀ j, x.addrs j < 2 ^ 32
  rest : ∀ j, NDIRECT < j → x.addrs j = 0

def DInode.withAddr (x : DInode) (j a : Nat) : DInode :=
  { x with addrs := Function.update x.addrs j a }

def DInode.withSize (x : DInode) (n : Nat) : DInode := { x with size := n }

def DInode.withNlink (x : DInode) (n : Nat) : DInode := { x with nlink := n }

def DInode.withType (x : DInode) (t : Nat) : DInode := { x with type := t }

def Inode.withDin (ip : Inode) (x : DInode) : Inode := { ip with din := x }

def Inode.withRef (ip : Inode) (n : Nat) : Inode := { ip with ref := n }

def Inode.withLocked (ip : Inode) (l : Bool) : Inode := { ip with locked := l }

/-- `ip` as `ilock` fills it from its dinode. -/
def Inode.filled (ip : Inode) (x : DInode) : Inode :=
  { ip with locked := true, valid := true, din := x }

/-- A table entry as `iget` recycles it. -/
def Inode.recycled (ip : Inode) (dev inum : Nat) : Inode :=
  { ip with dev := dev, inum := inum, ref := 1, valid := false }

/-- An entry as `iput` leaves it when it frees the inode. -/
def Inode.freed (ip : Inode) : Inode := { ip with valid := false, locked := false }

section Fields
variable (ip : Inode) (x : DInode)

@[simp] theorem Inode.withDin_dev : (ip.withDin x).dev = ip.dev := rfl
@[simp] theorem Inode.withDin_inum : (ip.withDin x).inum = ip.inum := rfl
@[simp] theorem Inode.withDin_ref : (ip.withDin x).ref = ip.ref := rfl
@[simp] theorem Inode.withDin_locked : (ip.withDin x).locked = ip.locked := rfl
@[simp] theorem Inode.withDin_valid : (ip.withDin x).valid = ip.valid := rfl
@[simp] theorem Inode.withDin_din : (ip.withDin x).din = x := rfl

end Fields

inductive Panic where
  | bgetNoBuffers
  | bwrite
  | brelse
  | tooBigTransaction
  | logWriteOutsideOfTrans
  | logCommitting
  | ballocOutOfBlocks
  | freeingFreeBlock
  | iallocNoInodes
  | igetNoInodes
  | ilock
  | ilockNoType
  | iunlock
  | bmapOutOfRange
  | dirlookupNotDir
  | dirlookupRead
  | dirlinkRead
  | dirlink
  | isdiremptyReadi
  | unlinkNlink
  | unlinkWritei
  /-- Not a panic of the code: a sleep-lock taken again by its own holder. -/
  | selfDeadlock
  deriving DecidableEq, Repr

structure Kernel where
  disk : Nat → Block
  writes : List (Nat × Block)
  buf : Nat → Buf
  lru : List Nat
  log : Log
  sb : Superblock
  inode : Nat → Inode

abbrev K := EStateM Panic Kernel

/-! ## Updates of one table entry -/

def Kernel.setBuf (k : Kernel) (i : Nat) (b : Buf) : Kernel :=
  { k with buf := Function.update k.buf i b }

def Kernel.setInode (k : Kernel) (i : Nat) (ip : Inode) : Kernel :=
  { k with inode := Function.update k.inode i ip }

/-- One block write: atomic, and in program order. -/
def Kernel.diskWrite (k : Kernel) (b : Nat) (d : Block) : Kernel :=
  { k with disk := Function.update k.disk b d, writes := k.writes ++ [(b, d)] }

section Fields
variable (k : Kernel) (i : Nat) (b : Buf) (ip : Inode) (d : Block)

@[simp] theorem setBuf_disk : (k.setBuf i b).disk = k.disk := rfl
@[simp] theorem setBuf_writes : (k.setBuf i b).writes = k.writes := rfl
@[simp] theorem setBuf_lru : (k.setBuf i b).lru = k.lru := rfl
@[simp] theorem setBuf_log : (k.setBuf i b).log = k.log := rfl
@[simp] theorem setBuf_sb : (k.setBuf i b).sb = k.sb := rfl
@[simp] theorem setBuf_inode : (k.setBuf i b).inode = k.inode := rfl
@[simp] theorem setBuf_buf : (k.setBuf i b).buf = Function.update k.buf i b := rfl

@[simp] theorem setBuf_setBuf (b' : Buf) : (k.setBuf i b).setBuf i b' = k.setBuf i b' := by
  simp [Kernel.setBuf]

@[simp] theorem setInode_disk : (k.setInode i ip).disk = k.disk := rfl
@[simp] theorem setInode_writes : (k.setInode i ip).writes = k.writes := rfl
@[simp] theorem setInode_lru : (k.setInode i ip).lru = k.lru := rfl
@[simp] theorem setInode_log : (k.setInode i ip).log = k.log := rfl
@[simp] theorem setInode_sb : (k.setInode i ip).sb = k.sb := rfl
@[simp] theorem setInode_buf : (k.setInode i ip).buf = k.buf := rfl
@[simp] theorem setInode_inode : (k.setInode i ip).inode = Function.update k.inode i ip := rfl

@[simp] theorem diskWrite_disk : (k.diskWrite i d).disk = Function.update k.disk i d := rfl
@[simp] theorem diskWrite_writes : (k.diskWrite i d).writes = k.writes ++ [(i, d)] := rfl
@[simp] theorem diskWrite_lru : (k.diskWrite i d).lru = k.lru := rfl
@[simp] theorem diskWrite_log : (k.diskWrite i d).log = k.log := rfl
@[simp] theorem diskWrite_sb : (k.diskWrite i d).sb = k.sb := rfl
@[simp] theorem diskWrite_inode : (k.diskWrite i d).inode = k.inode := rfl
@[simp] theorem diskWrite_buf : (k.diskWrite i d).buf = k.buf := rfl

end Fields

end Xv6.Disk
