import Xv6.Namespace.Model

/-!
# The system calls on names, files and processes

`namex`, `create`, `fileclose` and the calls of `sysfile.c`, with `fork`, `exit`, `wait` and `exec`
as far as they touch inodes and files, as programs of atomic sections. What depends on user memory
(a bad pointer, the contents of a program, free pages) is a parameter of the call.
-/

namespace Xv6.Namespace

open Xv6.Foundation
open Xv6.Disk (ROOTINO)

set_option autoImplicit false

variable {P : Type}

/-! ## Atomic sections -/

def act (a : Act P) : K P a.Resp := .lift a

def panicWith {α : Type} (e : Panic) : K P α := .act (.panic e) Empty.elim
def beginOp : K P Unit := act .beginOp
def endOp : K P Unit := act .endOp
def iget (inum : Nat) : K P Slot := act (.iget inum)
def idupCwd : K P Slot := act .idupCwd
def takeCwd : K P Slot := act .takeCwd
def setCwd (ip : Slot) : K P Unit := act (.setCwd ip)
def acquiresleep (ip : Slot) : K P Unit := act (.acquiresleep ip)
def iload (ip : Slot) : K P Unit := act (.iload ip)
def iunlock (ip : Slot) : K P Unit := act (.iunlock ip)
def readInode (ip : Slot) : K P (Nat × DInode) := act (.read ip)
def iputTest (ip : Slot) : K P Bool := act (.iputTest ip)
def itrunc (ip : Slot) : K P Unit := act (.itrunc ip)
def clearType (ip : Slot) : K P Unit := act (.clearType ip)
def invalidate (ip : Slot) : K P Unit := act (.invalidate ip)
def unref (ip : Slot) : K P Unit := act (.unref ip)
def tryAlloc (inum : Nat) (type : FileType) : K P Bool := act (.tryAlloc inum type)
def initInode (ip : Slot) (major : Int) : K P Unit := act (.initInode ip major)
def incNlink (ip : Slot) : K P Unit := act (.incNlink ip)
def decNlink (ip : Slot) : K P Unit := act (.decNlink ip)
def writei (dp : Slot) (slot : Nat) (de : Dirent) : K P Bool := act (.writei dp slot de)
def filealloc : K P (Option FileId) := act .filealloc
def fdalloc (f : FileId) : K P (Option Fd) := act (.fdalloc f)
def filedup (f : FileId) : K P Unit := act (.filedup f)
def argfd (fd : Nat) : K P (Option (Fd × FileId × File)) := act (.argfd fd)
def clearFd (fd : Fd) : K P Unit := act (.clearFd fd)
def dropFile (f : FileId) : K P (Option File) := act (.dropFile f)
def setFile (f : FileId) (ip : Slot) (omode : Nat) : K P Unit := act (.setFile f ip omode)
def readFile (f : FileId) (ip : Slot) (n : Nat) (fault : Bool) : K P Int :=
  act (.readFile f ip n fault)
def writeFile (f : FileId) (ip : Slot) (c : Chunk) : K P Int := act (.writeFile f ip c)
def pipeInit (rf wf : FileId) (page : Nat) : K P Unit := act (.pipeInit rf wf page)
def pipeCloseEnd (page : Nat) (writable : Bool) : K P Bool := act (.pipeClose page writable)
def kfree (page : Nat) : K P Unit := act (.kfree page)
def isInit : K P Bool := act .isInit
def allocproc (q : P) : K P Unit := act (.allocproc q)
def freeproc (q : P) : K P Unit := act (.freeproc q)
def forkFd (q : P) (fd : Fd) : K P Unit := act (.forkFd q fd)
def forkCwd (q : P) : K P Unit := act (.forkCwd q)
def forkRun (q : P) : K P Unit := act (.forkRun q)
def exitProc : K P Unit := act .exitProc
def reap (q : P) : K P Unit := act (.reap q)

/-! ## Inodes -/

def ilock (ip : Slot) : K P Unit := do
  acquiresleep ip
  iload ip

def iput (ip : Slot) : K P Unit := do
  let last ← iputTest ip
  if last then do
    itrunc ip
    clearType ip
    invalidate ip
    unref ip
  else pure ()

def iunlockput (ip : Slot) : K P Unit := do
  iunlock ip
  iput ip

/-- `ialloc`, with the inode numbers it has still to look at. -/
def iallocFrom (type : FileType) : List Nat → K P Slot
  | [] => panicWith .iallocNoInodes
  | inum :: rest => do
    let free ← tryAlloc inum type
    if free then iget inum else iallocFrom type rest

def ialloc (ninodes : Nat) (type : FileType) : K P Slot :=
  iallocFrom type (List.range' 1 (ninodes - 1))

/-! ## Directories -/

/-- The slot of the first entry in use with the given name. -/
def DInode.lookup (x : DInode) (name : Name) : Option Nat :=
  (List.range x.slots).find? fun slot =>
    decide ((x.ents slot).inum ≠ 0 ∧ (x.ents slot).name = name)

/-- The slot of the first entry that is not in use; one past the end if there is none. -/
def DInode.emptySlot (x : DInode) : Nat :=
  ((List.range x.slots).find? fun slot => decide ((x.ents slot).inum = 0)).getD x.slots

/-- A `readi` at the end of the contents comes back short. -/
def DInode.ragged (x : DInode) : Bool := decide (x.size % direntSize ≠ 0)

def dirlookup (dp : Slot) (name : Name) : K P (Option (Nat × Slot)) := do
  let (_, x) ← readInode dp
  if ¬ x.IsDir then panicWith .dirlookupNotDir
  else
    match x.lookup name with
    | some slot => do
      let ip ← iget (x.ents slot).inum
      pure (some (slot, ip))
    | none => if x.ragged then panicWith .dirlookupRead else pure none

def dirlink (dp : Slot) (name : Name) (inum : Nat) : K P Bool := do
  match ← dirlookup dp name with
  | some (_, ip) => do
    iput ip
    pure false
  | none => do
    let (_, x) ← readInode dp
    if x.emptySlot = x.slots ∧ x.ragged then panicWith .dirlinkRead
    else do
      let done ← writei dp x.emptySlot ⟨inum % 2 ^ 16, name⟩
      if done then pure true else panicWith .dirlink

/-- `isdirempty`, on the contents of the locked directory. -/
def isdirempty (x : DInode) : K P Bool :=
  if (List.range' 2 (x.slots - 2)).all fun slot => decide ((x.ents slot).inum = 0) then
    if x.ragged ∧ 2 * direntSize < x.size then panicWith .isdiremptyReadi else pure true
  else pure false

/-! ## Paths -/

def skipelem (path : List Char) : Option (Name × List Char) :=
  let s := path.dropWhile (· == '/')
  if s = [] then none
  else
    some ((s.takeWhile (· != '/')).take DIRSIZ, (s.dropWhile (· != '/')).dropWhile (· == '/'))

def elementsFrom : Nat → List Char → List Name
  | 0, _ => []
  | n + 1, path =>
    match skipelem path with
    | none => []
    | some (name, rest) => name :: elementsFrom n rest

/-- The names that the loop of `namex` gets from `skipelem`, one after the other. -/
def elements (path : List Char) : List Name := elementsFrom path.length path

/-- The loop of `namex`: the inode it stops at, and the last name if it stops at the parent. -/
def namexFrom (nameiparent : Bool) : List Name → Slot → K P (Option (Slot × Name))
  | [], ip =>
    if nameiparent then do
      iput ip
      pure none
    else pure (some (ip, []))
  | name :: rest, ip => do
    ilock ip
    let (_, x) ← readInode ip
    if ¬ x.IsDir then do
      iunlockput ip
      pure none
    else if nameiparent ∧ rest = [] then do
      iunlock ip
      pure (some (ip, name))
    else do
      match ← dirlookup ip name with
      | none => do
        iunlockput ip
        pure none
      | some (_, next) => do
        iunlockput ip
        namexFrom nameiparent rest next

/-- Where `namex` starts. -/
def namexStart (path : List Char) : K P Slot :=
  if path.head? = some '/' then iget ROOTINO else idupCwd

def namex (path : List Char) (nameiparent : Bool) : K P (Option (Slot × Name)) := do
  let ip ← namexStart path
  namexFrom nameiparent (elements path) ip

def namei (path : List Char) : K P (Option (Slot × Name)) := namex path false

def nameiparent (path : List Char) : K P (Option (Slot × Name)) := namex path true

/-! ## Files -/

def pipeclose (page : Nat) (writable : Bool) : K P Unit := do
  let both ← pipeCloseEnd page writable
  .when both (kfree page)

def fileclose (f : FileId) : K P Unit := do
  match ← dropFile f with
  | none => pure ()
  | some ff =>
    match ff.type with
    | .none => pure ()
    | .pipe => pipeclose ff.pipe ff.writable
    | .inode | .device => do
      beginOp
      iput ff.ip
      endOp

/-- `pipealloc`; `page` is what `kalloc` returns. -/
def pipealloc (page : Option Nat) : K P (Option (FileId × FileId)) := do
  match ← filealloc with
  | none => pure none
  | some rf => do
    match ← filealloc with
    | none => do
      fileclose rf
      pure none
    | some wf =>
      match page with
      | none => do
        fileclose rf
        fileclose wf
        pure none
      | some page => do
        pipeInit rf wf page
        pure (some (rf, wf))

/-! ## System calls -/

def linkBad (ip : Slot) : K P Int := do
  ilock ip
  decNlink ip
  iunlockput ip
  endOp
  pure (-1)

/-- `sys_link`, once the link is counted. -/
def linkCounted (ip : Slot) (inum : Nat) (new : List Char) : K P Int := do
  match ← nameiparent new with
  | none => linkBad ip
  | some (dp, name) => do
    ilock dp
    let linked ← dirlink dp name inum
    iunlockput dp
    if linked then do
      iput ip
      endOp
      pure 0
    else linkBad ip

def sysLink (old new : List Char) : K P Int := do
  beginOp
  match ← namei old with
  | none => do
    endOp
    pure (-1)
  | some (ip, _) => do
    ilock ip
    let (inum, x) ← readInode ip
    if x.IsDir then do
      iunlockput ip
      endOp
      pure (-1)
    else do
      incNlink ip
      iunlock ip
      linkCounted ip inum new

/-- `sys_unlink`, once the entry is to be removed. -/
def unlinkEntry (dp : Slot) (slot : Nat) (ip : Slot) (isDir : Bool) : K P Int := do
  let done ← writei dp slot zeroDirent
  if done then do
    .when isDir (decNlink dp)
    iunlockput dp
    decNlink ip
    iunlockput ip
    endOp
    pure 0
  else panicWith .unlinkWritei

def unlinkBad (dp : Slot) : K P Int := do
  iunlockput dp
  endOp
  pure (-1)

/-- `sys_unlink`, in the locked parent directory. -/
def unlinkIn (dp : Slot) (name : Name) : K P Int := do
  match ← dirlookup dp name with
  | none => unlinkBad dp
  | some (slot, ip) => do
    ilock ip
    let (_, y) ← readInode ip
    if short y.nlink < 1 then panicWith .unlinkNlink
    else do
      let removable ← if y.IsDir then isdirempty y else pure true
      if removable then unlinkEntry dp slot ip (decide y.IsDir)
      else do
        iunlockput ip
        unlinkBad dp

def sysUnlink (path : List Char) : K P Int := do
  beginOp
  match ← nameiparent path with
  | none => do
    endOp
    pure (-1)
  | some (dp, name) => do
    ilock dp
    if name = dot ∨ name = dotdot then unlinkBad dp else unlinkIn dp name

/-- The `.` and `..` entries of a new directory. -/
def createDots (dp ip : Slot) (dinum inum : Nat) : K P Unit := do
  incNlink dp
  let self ← dirlink ip dot inum
  if self then do
    let parent ← dirlink ip dotdot dinum
    if parent then pure () else panicWith .createDots
  else panicWith .createDots

/-- `create`, for a name that is not in `dp`. -/
def createNew (ninodes : Nat) (dp : Slot) (name : Name) (type : FileType) (major : Int) :
    K P Slot := do
  let ip ← ialloc ninodes type
  ilock ip
  initInode ip major
  let (dinum, _) ← readInode dp
  let (inum, _) ← readInode ip
  .when (decide (type = .dir)) (createDots dp ip dinum inum)
  let linked ← dirlink dp name inum
  if linked then do
    iunlockput dp
    pure ip
  else panicWith .createDirlink

def create (ninodes : Nat) (path : List Char) (type : FileType) (major : Int) :
    K P (Option Slot) := do
  match ← nameiparent path with
  | none => pure none
  | some (dp, name) => do
    ilock dp
    match ← dirlookup dp name with
    | some (_, ip) => do
      iunlockput dp
      ilock ip
      let (_, y) ← readInode ip
      if type = .file ∧ (y.type = some .file ∨ y.type = some .device) then pure (some ip)
      else do
        iunlockput ip
        pure none
    | none => do
      let ip ← createNew ninodes dp name type major
      pure (some ip)

/-- `sys_open`, once the inode is locked. -/
def openLocked (ip : Slot) (omode : Nat) : K P Int := do
  let (_, x) ← readInode ip
  if x.type = some .device ∧ (x.major < 0 ∨ NDEV ≤ x.major) then do
    iunlockput ip
    endOp
    pure (-1)
  else do
    match ← filealloc with
    | none => do
      iunlockput ip
      endOp
      pure (-1)
    | some f => do
      match ← fdalloc f with
      | none => do
        fileclose f
        iunlockput ip
        endOp
        pure (-1)
      | some fd => do
        setFile f ip omode
        .when (flagged omode O_TRUNC && decide (x.type = some .file)) (itrunc ip)
        iunlock ip
        endOp
        pure fd.val

def sysOpen (ninodes : Nat) (path : List Char) (omode : Nat) : K P Int := do
  beginOp
  if flagged omode O_CREATE then do
    match ← create ninodes path .file 0 with
    | none => do
      endOp
      pure (-1)
    | some ip => openLocked ip omode
  else do
    match ← namei path with
    | none => do
      endOp
      pure (-1)
    | some (ip, _) => do
      ilock ip
      let (_, x) ← readInode ip
      if x.IsDir ∧ omode ≠ O_RDONLY then do
        iunlockput ip
        endOp
        pure (-1)
      else openLocked ip omode

/-- `sys_mkdir` and `sys_mknod`, with the type and the device they pass to `create`. -/
def makeNode (ninodes : Nat) (path : Option (List Char)) (type : FileType) (major : Int) :
    K P Int := do
  beginOp
  match path with
  | none => do
    endOp
    pure (-1)
  | some path => do
    match ← create ninodes path type major with
    | none => do
      endOp
      pure (-1)
    | some ip => do
      iunlockput ip
      endOp
      pure 0

def sysMkdir (ninodes : Nat) (path : Option (List Char)) : K P Int := makeNode ninodes path .dir 0

def sysMknod (ninodes : Nat) (path : Option (List Char)) (major : Int) : K P Int :=
  makeNode ninodes path .device major

/-- `sys_chdir`, once the path is copied in. -/
def chdirTo (path : List Char) : K P Int := do
  match ← namei path with
  | none => do
    endOp
    pure (-1)
  | some (ip, _) => do
    ilock ip
    let (_, x) ← readInode ip
    if ¬ x.IsDir then do
      iunlockput ip
      endOp
      pure (-1)
    else do
      iunlock ip
      let old ← takeCwd
      iput old
      endOp
      setCwd ip
      pure 0

def sysChdir (path : Option (List Char)) : K P Int := do
  beginOp
  match path with
  | none => do
    endOp
    pure (-1)
  | some path => chdirTo path

def sysClose (fd : Nat) : K P Int := do
  match ← argfd fd with
  | none => pure (-1)
  | some (fd, f, _) => do
    clearFd fd
    fileclose f
    pure 0

def sysDup (fd : Nat) : K P Int := do
  match ← argfd fd with
  | none => pure (-1)
  | some (_, f, _) => do
    match ← fdalloc f with
    | none => pure (-1)
    | some fd => do
      filedup f
      pure fd.val

/-- The loop of `filewrite` over the pieces of the user's data. -/
def filewriteFrom (f : FileId) (ip : Slot) : List Chunk → K P Int
  | [] => pure 0
  | c :: rest => do
    beginOp
    ilock ip
    let r ← writeFile f ip c
    iunlock ip
    endOp
    if r = c.count then filewriteFrom f ip rest else pure (-1)

/-- `sys_write`. What a pipe or a device does with the bytes touches no inode and no file. -/
def sysWrite (fd : Nat) (chunks : List Chunk) : K P Int := do
  match ← argfd fd with
  | none => pure (-1)
  | some (_, f, ff) =>
    if ff.writable = false then pure (-1)
    else
      match ff.type with
      | .inode => filewriteFrom f ff.ip chunks
      | .pipe | .device => pure 0
      | .none => panicWith .filewrite

def readFrom (f : FileId) (ip : Slot) (n : Nat) (fault : Bool) : K P Int := do
  ilock ip
  let r ← readFile f ip n fault
  iunlock ip
  pure r

def sysRead (fd n : Nat) (fault : Bool) : K P Int := do
  match ← argfd fd with
  | none => pure (-1)
  | some (_, f, ff) =>
    if ff.readable = false then pure (-1)
    else
      match ff.type with
      | .inode => readFrom f ff.ip n fault
      | .pipe | .device => pure 0
      | .none => panicWith .fileread

def statInode (ip : Slot) (fault : Bool) : K P Int := do
  ilock ip
  let _ ← readInode ip
  iunlock ip
  pure (if fault then -1 else 0)

def sysFstat (fd : Nat) (fault : Bool) : K P Int := do
  match ← argfd fd with
  | none => pure (-1)
  | some (_, _, ff) =>
    match ff.type with
    | .inode | .device => statInode ff.ip fault
    | .pipe | .none => pure (-1)

/-- `sys_pipe`, when the second descriptor or a `copyout` fails: the files are closed. -/
def pipeBad (rf wf : FileId) : K P Int := do
  fileclose rf
  fileclose wf
  pure (-1)

/-- `sys_pipe`; `copied` says whether both descriptors can be copied out. -/
def sysPipe (page : Option Nat) (copied : Bool) : K P Int := do
  match ← pipealloc page with
  | none => pure (-1)
  | some (rf, wf) => do
    match ← fdalloc rf with
    | none => pipeBad rf wf
    | some fd0 => do
      match ← fdalloc wf with
      | none => do
        clearFd fd0
        pipeBad rf wf
      | some fd1 =>
        if copied then pure 0
        else do
          clearFd fd0
          clearFd fd1
          pipeBad rf wf

/-! ## Processes -/

def forkFds (q : P) : List Fd → K P Unit
  | [] => pure ()
  | fd :: rest => do
    forkFd q fd
    forkFds q rest

/-- `fork`, with the process that `allocproc` finds and whether there is memory for it. -/
def sysFork (child : Option P) (memory : Bool) : K P Int := do
  match child with
  | none => pure (-1)
  | some q => do
    allocproc q
    if memory then do
      forkFds q (List.finRange NOFILE)
      forkCwd q
      forkRun q
      pure 1
    else do
      freeproc q
      pure (-1)

def exitFds : List Fd → K P Unit
  | [] => pure ()
  | fd :: rest => do
    match ← argfd fd.val with
    | none => exitFds rest
    | some (fd, f, _) => do
      fileclose f
      clearFd fd
      exitFds rest

def sysExit : K P Int := do
  let init ← isInit
  if init then panicWith .initExiting
  else do
    exitFds (List.finRange NOFILE)
    beginOp
    let cwd ← takeCwd
    iput cwd
    endOp
    exitProc
    pure 0

/-- `wait`, with the child that has exited. -/
def sysWait (q : P) : K P Int := do
  reap q
  pure 1

/-- `exec`; `loaded` and `started` say whether the program can be read, and whether its stack can
be made. -/
def sysExec (path : List Char) (loaded started : Bool) : K P Int := do
  beginOp
  match ← namei path with
  | none => do
    endOp
    pure (-1)
  | some (ip, _) => do
    ilock ip
    iunlockput ip
    endOp
    pure (if loaded && started then 0 else -1)

/-! ## The machine -/

/-- The system calls. A path is `none` where `argstr` fails after `begin_op`. -/
inductive Call (P : Type) where
  | mkdir (path : Option (List Char))
  | mknod (path : Option (List Char)) (major : Int)
  | open (path : List Char) (omode : Nat)
  | link (old new : List Char)
  | unlink (path : List Char)
  | chdir (path : Option (List Char))
  | close (fd : Nat)
  | dup (fd : Nat)
  | read (fd n : Nat) (fault : Bool)
  | write (fd : Nat) (chunks : List Chunk)
  | fstat (fd : Nat) (fault : Bool)
  | pipe (page : Option Nat) (copied : Bool)
  | fork (child : Option P) (memory : Bool)
  | exit
  | wait (child : P)
  | exec (path : List Char) (loaded started : Bool)

def Call.prog (ninodes : Nat) : Call P → K P Int
  | .mkdir path => sysMkdir ninodes path
  | .mknod path major => sysMknod ninodes path major
  | .open path omode => sysOpen ninodes path omode
  | .link old new => sysLink old new
  | .unlink path => sysUnlink path
  | .chdir path => sysChdir path
  | .close fd => sysClose fd
  | .dup fd => sysDup fd
  | .read fd n fault => sysRead fd n fault
  | .write fd chunks => sysWrite fd chunks
  | .fstat fd fault => sysFstat fd fault
  | .pipe page copied => sysPipe page copied
  | .fork child memory => sysFork child memory
  | .exit => sysExit
  | .wait child => sysWait child
  | .exec path loaded started => sysExec path loaded started

end Xv6.Namespace
