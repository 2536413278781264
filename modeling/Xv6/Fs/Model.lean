import Xv6.Disk.Commit
import Xv6.Fs.Layout
import Xv6.GroupCommit.Model

/-!
# `fs.c`: blocks, inodes and directories

The functions of `fs.c`, and the part of `sys_unlink` that follows the path lookup, as they run
on the buffer cache. An inode is named by its index in `itable.inode`. The loops carry a bound on
their rounds that their tests never let them reach.
-/

namespace Xv6.Fs

open Xv6.Foundation Xv6.Disk

set_option autoImplicit false

/-! ## Copies from and to memory -/

def PGSIZE : Nat := 4096

/-- The memory that `either_copyin` and `either_copyout` are given an address of. User memory is
mapped page by page: `mapped` says for which page numbers `walkaddr` finds a frame. -/
structure Mem where
  user : Bool
  mapped : Nat → Bool
  byte : Bytes

/-- `copyin(pagetable, dst, srcva, len)` into offset `dst` of a block. -/
def copyin (m : Mem) : Nat → Block → Nat → Nat → Nat → Block × Bool
  | 0, d, _, _, _ => (d, true)
  | fuel + 1, d, dst, srcva, len =>
    if len = 0 then (d, true)
    else if m.mapped (srcva / PGSIZE) then
      let n := min (PGSIZE - srcva % PGSIZE) len
      copyin m fuel (blit d dst (fun o => m.byte (srcva + o)) n) (dst + n)
        (srcva - srcva % PGSIZE + PGSIZE) (len - n)
    else (d, false)

/-- `copyout(pagetable, dstva, src, len)` -/
def copyout (src : Bytes) : Nat → Mem → Nat → Nat → Nat → Mem × Bool
  | 0, m, _, _, _ => (m, true)
  | fuel + 1, m, dstva, so, len =>
    if len = 0 then (m, true)
    else if m.mapped (dstva / PGSIZE) then
      let n := min (PGSIZE - dstva % PGSIZE) len
      copyout src fuel { m with byte := blit m.byte dstva (fun o => src (so + o)) n }
        (dstva - dstva % PGSIZE + PGSIZE) (so + n) (len - n)
    else (m, false)

def eitherCopyin (m : Mem) (d : Block) (dst src len : Nat) : Block × Bool :=
  if m.user then copyin m len d dst src len
  else (blit d dst (fun o => m.byte (src + o)) len, true)

def eitherCopyout (m : Mem) (dst : Nat) (src : Bytes) (len : Nat) : Mem × Bool :=
  if m.user then copyout src len m dst 0 len
  else ({ m with byte := blit m.byte dst src len }, true)

/-- Kernel memory that holds `b` at address zero. -/
def Mem.kernel (b : Bytes) : Mem := ⟨false, fun _ => true, b⟩

/-! ## Blocks -/

def bzero (dev bno : Nat) : K Unit := do
  let bp ← bread dev bno
  setBufData bp (fun _ => 0)
  logWrite bp
  brelse bp

/-- The first clear bit that the inner loop of `balloc` sees. -/
def firstFree (d : Block) (n : Nat) : Option Nat := (List.range n).find? fun bi => !getBit d bi

/-- The outer loop of `balloc` from block `b` on. -/
def ballocFrom (dev : Nat) : Nat → Nat → K Nat
  | 0, _ => throw .ballocOutOfBlocks
  | fuel + 1, b => do
    let k ← get
    if b < k.sb.size then do
      let bp ← bread dev (bblock k.sb b)
      let d ← bufData bp
      match firstFree d (min BPB (k.sb.size - b)) with
      | some bi => do
        setBufData bp (setBit d bi)
        logWrite bp
        brelse bp
        bzero dev (b + bi)
        pure (b + bi)
      | none => do
        brelse bp
        ballocFrom dev fuel (b + BPB)
    else throw .ballocOutOfBlocks

def balloc (dev : Nat) : K Nat := do
  let k ← get
  ballocFrom dev (k.sb.size / BPB + 1) 0

def bfree (dev b : Nat) : K Unit := do
  let k ← get
  let bp ← bread dev (bblock k.sb b)
  let d ← bufData bp
  check (!getBit d (b % BPB)) .freeingFreeBlock
  setBufData bp (clearBit d (b % BPB))
  logWrite bp
  brelse bp

/-! ## Inodes -/

/-- A dinode after `memset` and the store of its type. -/
def freshDInode (type : Nat) : DInode := ⟨type, 0, 0, 0, 0, fun _ => 0⟩

/-- An assignment to fields of `ip` that live on disk. -/
def setDin (ip : Nat) (f : DInode → DInode) : K Unit :=
  modify fun k => k.setInode ip ((k.inode ip).withDin (f (k.inode ip).din))

def iupdate (ip : Nat) : K Unit := do
  let k ← get
  let bp ← bread (k.inode ip).dev (iblock k.sb (k.inode ip).inum)
  let d ← bufData bp
  setBufData bp (putDInode d ((k.inode ip).inum % IPB) (k.inode ip).din)
  logWrite bp
  brelse bp

/-- The entry at which the loop of `iget` stops. -/
def findInode (inode : Nat → Inode) (dev inum : Nat) : Option Nat :=
  (List.range NINODE).find? fun i =>
    decide (0 < (inode i).ref) && ((inode i).dev == dev && (inode i).inum == inum)

/-- `empty` after the loop of `iget`. -/
def emptyInode (inode : Nat → Inode) : Option Nat :=
  (List.range NINODE).find? fun i => (inode i).ref == 0

def iget (dev inum : Nat) : K Nat := do
  let k ← get
  match findInode k.inode dev inum with
  | some ip => do
    set (k.setInode ip ((k.inode ip).withRef ((k.inode ip).ref + 1)))
    pure ip
  | none =>
    match emptyInode k.inode with
    | some ip => do
      set (k.setInode ip ((k.inode ip).recycled dev inum))
      pure ip
    | none => throw .igetNoInodes

def iallocFrom (dev type : Nat) : Nat → Nat → K Nat
  | 0, _ => throw .iallocNoInodes
  | fuel + 1, inum => do
    let k ← get
    if inum < k.sb.ninodes then do
      let bp ← bread dev (iblock k.sb inum)
      let d ← bufData bp
      if (getDInode d (inum % IPB)).type = 0 then do
        setBufData bp (putDInode d (inum % IPB) (freshDInode type))
        logWrite bp
        brelse bp
        iget dev inum
      else do
        brelse bp
        iallocFrom dev type fuel (inum + 1)
    else throw .iallocNoInodes

def ialloc (dev type : Nat) : K Nat := do
  let k ← get
  iallocFrom dev type k.sb.ninodes 1

def ilock (ip : Nat) : K Unit := do
  let k ← get
  check (decide ((k.inode ip).ref < 1)) .ilock
  check (k.inode ip).locked .selfDeadlock
  set (k.setInode ip ((k.inode ip).withLocked true))
  when (!(k.inode ip).valid) do
    let bp ← bread (k.inode ip).dev (iblock k.sb (k.inode ip).inum)
    let d ← bufData bp
    brelse bp
    modify fun k => k.setInode ip ((k.inode ip).filled (getDInode d ((k.inode ip).inum % IPB)))
    check (decide ((getDInode d ((k.inode ip).inum % IPB)).type = 0)) .ilockNoType

def iunlock (ip : Nat) : K Unit := do
  let k ← get
  check (!(k.inode ip).locked || decide ((k.inode ip).ref < 1)) .iunlock
  set (k.setInode ip ((k.inode ip).withLocked false))

/-! ## Inode content -/

/-- `bmap` for entry `j` of the indirect block, once there is one. -/
def bmapEntry (ip j : Nat) : K Nat := do
  let k ← get
  let bp ← bread (k.inode ip).dev ((k.inode ip).din.addrs NDIRECT)
  let d ← bufData bp
  if getEntry d j = 0 then do
    let addr ← balloc (k.inode ip).dev
    let d ← bufData bp
    setBufData bp (putEntry d j addr)
    logWrite bp
    brelse bp
    pure addr
  else do
    brelse bp
    pure (getEntry d j)

def bmap (ip bn : Nat) : K Nat := do
  let k ← get
  if bn < NDIRECT then
    if (k.inode ip).din.addrs bn = 0 then do
      let addr ← balloc (k.inode ip).dev
      setDin ip (·.withAddr bn addr)
      pure addr
    else pure ((k.inode ip).din.addrs bn)
  else if bn - NDIRECT < NINDIRECT then do
    when ((k.inode ip).din.addrs NDIRECT == 0) do
      let addr ← balloc (k.inode ip).dev
      setDin ip (·.withAddr NDIRECT addr)
    bmapEntry ip (bn - NDIRECT)
  else throw .bmapOutOfRange

/-- The loop of `itrunc` over the direct slots listed. -/
def itruncDirect (ip : Nat) : List Nat → K Unit
  | [] => pure ()
  | i :: is => do
    let k ← get
    when ((k.inode ip).din.addrs i != 0) do
      bfree (k.inode ip).dev ((k.inode ip).din.addrs i)
      setDin ip (·.withAddr i 0)
    itruncDirect ip is

/-- The loop of `itrunc` over the entries listed of the indirect block in buffer `bp`. -/
def itruncIndirect (dev bp : Nat) : List Nat → K Unit
  | [] => pure ()
  | j :: js => do
    let d ← bufData bp
    when (getEntry d j != 0) (bfree dev (getEntry d j))
    itruncIndirect dev bp js

def itrunc (ip : Nat) : K Unit := do
  itruncDirect ip (List.range NDIRECT)
  let k ← get
  when ((k.inode ip).din.addrs NDIRECT != 0) do
    let bp ← bread (k.inode ip).dev ((k.inode ip).din.addrs NDIRECT)
    itruncIndirect (k.inode ip).dev bp (List.range NINDIRECT)
    brelse bp
    bfree (k.inode ip).dev ((k.inode ip).din.addrs NDIRECT)
    setDin ip (·.withAddr NDIRECT 0)
  setDin ip (·.withSize 0)
  iupdate ip

def iput (ip : Nat) : K Unit := do
  let k ← get
  when (decide ((k.inode ip).ref = 1) && (k.inode ip).valid && decide ((k.inode ip).din.nlink = 0)) do
    check (k.inode ip).locked .selfDeadlock
    set (k.setInode ip ((k.inode ip).withLocked true))
    itrunc ip
    setDin ip (·.withType 0)
    iupdate ip
    modify fun k => k.setInode ip (k.inode ip).freed
  modify fun k => k.setInode ip ((k.inode ip).withRef ((k.inode ip).ref - 1))

def iunlockput (ip : Nat) : K Unit := do
  iunlock ip
  iput ip

def readiLoop (ip : Nat) : Nat → Mem → Nat → Nat → Nat → Nat → K (Mem × Int)
  | 0, m, _, _, tot, _ => pure (m, tot)
  | fuel + 1, m, dst, off, tot, n =>
    if tot < n then do
      let addr ← bmap ip (off / BSIZE)
      let k ← get
      let bp ← bread (k.inode ip).dev addr
      let d ← bufData bp
      let len := min (n - tot) (BSIZE - off % BSIZE)
      brelse bp
      match eitherCopyout m dst (fun o => d (off % BSIZE + o)) len with
      | (m', false) => pure (m', -1)
      | (m', true) => readiLoop ip fuel m' (dst + len) (off + len) (tot + len) n
    else pure (m, tot)

def readi (ip : Nat) (m : Mem) (dst off n : Nat) : K (Mem × Int) := do
  let k ← get
  if (k.inode ip).din.size < off ∨ (off + n) % 2 ^ 32 < off then pure (m, 0)
  else
    let n := if (k.inode ip).din.size < (off + n) % 2 ^ 32 then (k.inode ip).din.size - off else n
    readiLoop ip n m dst off 0 n

/-- The loop of `writei`, with the values of `tot` and `off` after it. -/
def writeiLoop (ip : Nat) (m : Mem) : Nat → Nat → Nat → Nat → Nat → K (Nat × Nat)
  | 0, _, off, tot, _ => pure (tot, off)
  | fuel + 1, src, off, tot, n =>
    if tot < n then do
      let addr ← bmap ip (off / BSIZE)
      let k ← get
      let bp ← bread (k.inode ip).dev addr
      let d ← bufData bp
      let len := min (n - tot) (BSIZE - off % BSIZE)
      match eitherCopyin m d (off % BSIZE) src len with
      | (d', false) => do
        setBufData bp d'
        brelse bp
        pure (tot, off)
      | (d', true) => do
        setBufData bp d'
        logWrite bp
        brelse bp
        writeiLoop ip m fuel (src + len) (off + len) (tot + len) n
    else pure (tot, off)

def writei (ip : Nat) (m : Mem) (src off n : Nat) : K Int := do
  let k ← get
  if (k.inode ip).din.size < off ∨ (off + n) % 2 ^ 32 < off then pure (-1)
  else if MAXFILE * BSIZE < (off + n) % 2 ^ 32 then pure (-1)
  else do
    let r ← writeiLoop ip m n src off 0 n
    let k ← get
    when (decide ((k.inode ip).din.size < r.2)) (setDin ip (·.withSize r.2))
    iupdate ip
    pure r.1

/-! ## Directories -/

def direntSize : Nat := 16

/-- `readi(dp, 0, (uint64)&de, off, sizeof(de))`, with the panic of a short read. -/
def readDirent (dp off : Nat) (e : Panic) : K Bytes := do
  let r ← readi dp (.kernel fun _ => 0) 0 off direntSize
  check (r.2 != direntSize) e
  pure r.1.byte

def dirlookupFrom (dp : Nat) (name : Bytes) : Nat → Nat → K (Option (Nat × Nat))
  | 0, _ => pure none
  | fuel + 1, off => do
    let k ← get
    if off < (k.inode dp).din.size then do
      let de ← readDirent dp off .dirlookupRead
      if direntInum de ≠ 0 ∧ namecmp name (direntName de) = true then do
        let ip ← iget (k.inode dp).dev (direntInum de)
        pure (some (ip, off))
      else dirlookupFrom dp name fuel (off + direntSize)
    else pure none

/-- `dirlookup(dp, name, &off)`: the inode and the offset of its entry. -/
def dirlookup (dp : Nat) (name : Bytes) : K (Option (Nat × Nat)) := do
  let k ← get
  check (decide ((k.inode dp).din.type ≠ T_DIR)) .dirlookupNotDir
  dirlookupFrom dp name ((k.inode dp).din.size / direntSize + 1) 0

/-- The loop of `dirlink` that looks for an empty entry. -/
def emptyDirent (dp : Nat) : Nat → Nat → K Nat
  | 0, off => pure off
  | fuel + 1, off => do
    let k ← get
    if off < (k.inode dp).din.size then do
      let de ← readDirent dp off .dirlinkRead
      if direntInum de = 0 then pure off
      else emptyDirent dp fuel (off + direntSize)
    else pure off

def dirlink (dp : Nat) (name : Bytes) (inum : Nat) : K Int := do
  let found ← dirlookup dp name
  match found with
  | some (ip, _) => do
    iput ip
    pure (-1)
  | none => do
    let k ← get
    let off ← emptyDirent dp ((k.inode dp).din.size / direntSize + 1) 0
    let w ← writei dp (.kernel (dirent inum (strncpy name))) 0 off direntSize
    check (w != direntSize) .dirlink
    pure 0

def isdiremptyFrom (dp : Nat) : Nat → Nat → K Bool
  | 0, _ => pure true
  | fuel + 1, off => do
    let k ← get
    if off < (k.inode dp).din.size then do
      let de ← readDirent dp off .isdiremptyReadi
      if direntInum de ≠ 0 then pure false
      else isdiremptyFrom dp fuel (off + direntSize)
    else pure true

def isdirempty (dp : Nat) : K Bool := do
  let k ← get
  isdiremptyFrom dp ((k.inode dp).din.size / direntSize + 1) (2 * direntSize)

/-- `nlink--` on a `short`, as its 16-bit pattern. -/
def decNlink (x : DInode) : DInode := x.withNlink ((x.nlink + (2 ^ 16 - 1)) % 2 ^ 16)

/-- `nlink < 1` for the `short` with this pattern. -/
def nlinkBelowOne (n : Nat) : Bool := decide (n = 0) || decide (2 ^ 15 ≤ n)

/-- `sys_unlink` once `nameiparent` has returned `dp` and the last element `name`. -/
def unlink (dp : Nat) (name : Bytes) : K Int := do
  ilock dp
  if namecmp name dotName || namecmp name dotdotName then do
    iunlockput dp
    pure (-1)
  else do
    let found ← dirlookup dp name
    match found with
    | none => do
      iunlockput dp
      pure (-1)
    | some (ip, off) => do
      ilock ip
      let k ← get
      check (nlinkBelowOne (k.inode ip).din.nlink) .unlinkNlink
      let empty ← if (k.inode ip).din.type = T_DIR then isdirempty ip else pure true
      if empty then do
        let w ← writei dp (.kernel fun _ => 0) 0 off direntSize
        check (w != direntSize) .unlinkWritei
        when (decide ((k.inode ip).din.type = T_DIR)) do
          setDin dp decNlink
          iupdate dp
        iunlockput dp
        setDin ip decNlink
        iupdate ip
        iunlockput ip
        pure 0
      else do
        iunlockput ip
        iunlockput dp
        pure (-1)

/-! ## Transactions, with nobody else running -/

def setLog (l : Log) : K Unit := modify fun k => { k with log := l }

/-- `begin_op`, where there is nobody to wait for. -/
def beginOp : K Unit := do
  let k ← get
  match GroupCommit.beginOpPass k.log with
  | some l => setLog l
  | none => throw .selfDeadlock

def endOp : K Unit := do
  let k ← get
  match GroupCommit.endOpSection k.log with
  | .error e => throw e
  | .ok (l, doCommit) => do
    setLog l
    when doCommit do
      commit
      modify fun k => { k with log := GroupCommit.endOpFinish k.log }

end Xv6.Fs
