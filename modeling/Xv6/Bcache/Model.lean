import Xv6.Foundation.Holdings
import Xv6.GroupCommit.Model

/-!
# The buffer cache under many processes

`bio.c` with the log on top of it, run by any number of processes at once. A critical section of
`bcache.lock` or `log.lock` is one action, and so is one sleep-lock operation or one transfer of the
disk. What a buffer contains does not matter here, only who uses it.

A file-system call is the sequence of buffers it visits: `bmap` and `itrunc` keep the indirect block
while they visit others, everything else holds one buffer at a time.
-/

namespace Xv6.Bcache

open Xv6.Foundation Xv6.Disk Xv6.GroupCommit

set_option autoImplicit false

def NPROC : Nat := 64

/-- `struct buf`; `block` is `none` for the buffers that `binit` leaves with device 0. -/
structure Slot (P : Type) where
  block : Option Nat
  refcnt : Nat
  holder : Option P
  valid : Bool

/-- `bcache` and `log`. `refs p` notes the buffers that `p` has got from `bget`, whether or not it
already has their lock, and has not given back. -/
structure Cache (P : Type) where
  buf : Nat → Slot P
  lru : List Nat
  log : Log
  refs : P → Multiset Nat

namespace Cache
variable {P : Type} (s : Cache P)

/-- The buffer that `bget`'s first loop stops at. -/
def cached (b : Nat) : Option Nat := s.lru.find? fun i => (s.buf i).block == some b

/-- The buffer that `bget`'s second loop stops at. -/
def unused : Option Nat := s.lru.reverse.find? fun i => (s.buf i).refcnt == 0

def setBuf (i : Nat) (x : Slot P) : Cache P := { s with buf := Function.update s.buf i x }

def setRefs [DecidableEq P] (p : P) (X : Multiset Nat) : Cache P :=
  { s with refs := Function.update s.refs p X }

def setLog (l : Log) : Cache P := { s with log := l }

end Cache

inductive Act where
  | bget (b : Nat)
  | acquiresleep (i : Nat)
  | diskRead (i : Nat)
  | bwrite (i : Nat)
  | releasesleep (i : Nat)
  | put (i : Nat)
  | logWrite (i : Nat)
  | bunpin (i : Nat)
  | beginOp
  | endOp
  | logLength
  | logBlock (tail : Nat)
  | clear
  | finish
deriving DecidableEq

def Act.Answer : Act → Type
  | .bget _ => Nat
  | .endOp => Bool
  | .logLength => Nat
  | .logBlock _ => Nat
  | _ => Unit

section
variable {P : Type} [DecidableEq P]

def bgetSection (p : P) (b : Nat) (s : Cache P) : Outcome (Cache P) Panic Nat :=
  match s.cached b with
  | some i =>
    .ok i ((s.setBuf i { s.buf i with refcnt := (s.buf i).refcnt + 1 }).setRefs p
      (i ::ₘ s.refs p))
  | none =>
    match s.unused with
    | some i =>
      .ok i ((s.setBuf i { s.buf i with block := some b, valid := false, refcnt := 1 }).setRefs p
        (i ::ₘ s.refs p))
    | none => .panic .bgetNoBuffers

/-- The section at the end of `brelse`. -/
def putSection (p : P) (i : Nat) (s : Cache P) : Cache P :=
  { (s.setBuf i { s.buf i with refcnt := (s.buf i).refcnt - 1 }).setRefs p
      ((s.refs p).erase i) with
    lru := if (s.buf i).refcnt - 1 = 0 then i :: s.lru.erase i else s.lru }

/-- `log_write`, with the `bpin` in it. -/
def logWriteAct (i : Nat) (s : Cache P) : Outcome (Cache P) Panic Unit :=
  let b := (s.buf i).block.getD 0
  match logWriteSection s.log b with
  | .error e => .panic e
  | .ok l =>
    .ok () (if b ∈ s.log.lh then s.setLog l
      else (s.setBuf i { s.buf i with refcnt := (s.buf i).refcnt + 1 }).setLog l)

def exec (p : P) : (a : Act) → Cache P → Outcome (Cache P) Panic a.Answer
  | .bget b, s => bgetSection p b s
  | .acquiresleep i, s =>
    if (s.buf i).holder = none then .ok () (s.setBuf i { s.buf i with holder := some p })
    else .blocked
  | .diskRead i, s => .ok () (s.setBuf i { s.buf i with valid := true })
  | .bwrite i, s => if (s.buf i).holder = some p then .ok () s else .panic .bwrite
  | .releasesleep i, s =>
    if (s.buf i).holder = some p then .ok () (s.setBuf i { s.buf i with holder := none })
    else .panic .brelse
  | .put i, s => .ok () (putSection p i s)
  | .logWrite i, s => logWriteAct i s
  | .bunpin i, s => .ok () (s.setBuf i { s.buf i with refcnt := (s.buf i).refcnt - 1 })
  | .beginOp, s =>
    match beginOpPass s.log with
    | none => .blocked
    | some l => .ok () (s.setLog l)
  | .endOp, s =>
    match endOpSection s.log with
    | .error e => .panic e
    | .ok (l, commit) => .ok commit (s.setLog l)
  | .logLength, s => .ok s.log.lh.length s
  | .logBlock tail, s => .ok (s.log.lh.getD tail 0) s
  | .clear, s => .ok () (s.setLog (commitSection s.log))
  | .finish, s => .ok () (s.setLog (endOpFinish s.log))

abbrev FS := Prog Act Act.Answer

def act (a : Act) : FS a.Answer := .lift a

def bread (b : Nat) : FS Nat := do
  let i ← act (.bget b)
  act (.acquiresleep i)
  act (.diskRead i)
  pure i

def brelse (i : Nat) : FS Unit := do
  act (.releasesleep i)
  act (.put i)

/-! ## `log.c` -/

def writeLogBlock (start tail : Nat) : FS Unit := do
  let toBuf ← bread (start + tail + 1)
  let b ← act (.logBlock tail)
  let fromBuf ← bread b
  act (.bwrite toBuf)
  brelse fromBuf
  brelse toBuf

/-- The loop of `write_log` with `n` rounds to go. -/
def writeLog (start : Nat) : Nat → Nat → FS Unit
  | 0, _ => pure ()
  | n + 1, tail => do
    writeLogBlock start tail
    writeLog start n (tail + 1)

def writeHead (start : Nat) : FS Unit := do
  let i ← bread start
  act (.bwrite i)
  brelse i

def installBlock (start tail : Nat) : FS Unit := do
  let lbuf ← bread (start + tail + 1)
  let b ← act (.logBlock tail)
  let dbuf ← bread b
  act (.bwrite dbuf)
  act (.bunpin dbuf)
  brelse lbuf
  brelse dbuf

def installTrans (start : Nat) : Nat → Nat → FS Unit
  | 0, _ => pure ()
  | n + 1, tail => do
    installBlock start tail
    installTrans start n (tail + 1)

def commit (start : Nat) : FS Unit := do
  let n : Nat ← act .logLength
  if 0 < n then do
    writeLog start n 0
    writeHead start
    installTrans start n 0
    act .clear
    writeHead start
  else pure ()

def endOp (start : Nat) : FS Unit := do
  let doCommit ← act .endOp
  .when doCommit (do
    commit start
    act .finish)

/-! ## File-system calls -/

/-- A block that is read, and written with `log_write` if `log` is set. -/
structure Touch where
  block : Nat
  log : Bool

/-- A visit of a buffer, with the buffers visited while it is held. -/
structure Visit where
  outer : Touch
  inner : List Touch

def touch (x : Touch) : FS Unit := do
  let i ← bread x.block
  .when x.log (act (.logWrite i))
  brelse i

def touchAll : List Touch → FS Unit
  | [] => pure ()
  | x :: xs => do
    touch x
    touchAll xs

def visit (v : Visit) : FS Unit := do
  let i ← bread v.outer.block
  touchAll v.inner
  .when v.outer.log (act (.logWrite i))
  brelse i

def visitAll : List Visit → FS Unit
  | [] => pure ()
  | v :: vs => do
    visit v
    visitAll vs

/-- The parts of system calls: inside a transaction, or outside of one, as in `fileread`. -/
inductive Call where
  | read (vs : List Visit)
  | op (vs : List Visit)

def prog (start : Nat) : Call → FS Unit
  | .read vs => visitAll vs
  | .op vs => do
    act .beginOp
    visitAll vs
    endOp start

def machine (P : Type) [DecidableEq P] (start : Nat) :
    Machine P Act Act.Answer (Cache P) Panic Call Unit where
  exec := exec
  enter := fun _ s => some s
  prog := prog start

/-- After `binit` and `initlog`. -/
def boot (P : Type) (l : Log) : Cache P where
  buf := fun _ => ⟨none, 0, none, false⟩
  lru := (List.range NBUF).reverse
  log := { l with outstanding := 0, committing := false, lh := [] }
  refs := fun _ => 0

def init (P : Type) (l : Log) : Sys P Act Act.Answer (Cache P) Panic Unit :=
  ⟨boot P l, fun _ => .ret (), none⟩

end

end Xv6.Bcache
