import Mathlib.Data.Fintype.Basic
import Mathlib.Logic.Function.Basic
import Xv6.Foundation.Run

/-!
# The virtio disk driver

`virtio_disk_rw` and `virtio_disk_intr` of `virtio_disk.c`, run by any number of processes and by the
interrupt handler, with a device that takes chain heads from the avail ring and puts them into the used
ring in any order. The device runs at any moment, so a section under `vdisk_lock` is cut wherever it
touches what the device touches: the rings, their indices and the status bytes.
-/

namespace Xv6.Virtio

open Xv6.Foundation

set_option autoImplicit false

def NUM : Nat := 8

def VRING_DESC_F_NEXT : Nat := 1
def VRING_DESC_F_WRITE : Nat := 2

/-- `struct virtq_desc`, as far as the driver reads it. -/
structure Desc where
  flags : Nat
  next : Nat
  deriving DecidableEq

/-- `disk.info[i]`; `none` is a null pointer. -/
structure Info (B : Type) where
  b : Option B
  status : Nat

inductive Panic where
  | freeDesc1
  | freeDesc2
  | status
  /-- Not a panic of the code: `b->disk = 0` through a null pointer. -/
  | nullBuf
  deriving DecidableEq

/-- `disk`. The indices of the rings are `uint16`. -/
structure Disk (B : Type) where
  desc : Nat → Desc
  free : Nat → Bool
  info : Nat → Info B
  availRing : Nat → Nat
  availIdx : Nat
  usedRing : Nat → Nat
  usedIdx : Nat
  /-- `disk.used_idx`, how far the driver has looked -/
  seen : Nat

/-- The three descriptors of a request, `idx[0..2]`. -/
structure Chain where
  i0 : Nat
  i1 : Nat
  i2 : Nat
  deriving DecidableEq

def Chain.list (c : Chain) : List Nat := [c.i0, c.i1, c.i2]

section Descriptors
variable {B : Type} (d : Disk B)

def allocDesc : Option (Nat × Disk B) :=
  ((List.range NUM).find? d.free).map fun i => (i, { d with free := Function.update d.free i false })

/-- Without the `wakeup(&disk.free[0])`, which the callers make. -/
def freeDesc (i : Nat) : Except Panic (Disk B) :=
  if NUM ≤ i then .error .freeDesc1
  else if d.free i then .error .freeDesc2
  else .ok { d with
    desc := Function.update d.desc i ⟨0, 0⟩
    free := Function.update d.free i true }

/-- The loop of `free_chain`. It frees another descriptor each time round, so it ends, or `free_desc`
panics, within `NUM` turns. -/
def freeChain : Nat → Nat → Disk B → Except Panic (Disk B)
  | 0, _, _ => .error .freeDesc2
  | turns + 1, i, d =>
    let x := d.desc i
    match freeDesc d i with
    | .error e => .error e
    | .ok d => if x.flags &&& VRING_DESC_F_NEXT ≠ 0 then freeChain turns x.next d else .ok d

/-- `alloc3_desc`, with the chain if it succeeds. -/
def alloc3Desc : Except Panic (Option Chain × Disk B) :=
  match allocDesc d with
  | none => .ok (none, d)
  | some (i, d) =>
    match allocDesc d with
    | none => do
      let d ← freeDesc d i
      .ok (none, d)
    | some (j, d) =>
      match allocDesc d with
      | none => do
        let d ← freeDesc d i
        let d ← freeDesc d j
        .ok (none, d)
      | some (k, d) => .ok (some ⟨i, j, k⟩, d)

structure Request (B : Type) where
  b : B
  write : Bool

/-- The descriptors and `disk.info` of a request. -/
def format (r : Request B) (c : Chain) : Disk B :=
  let first : Desc := ⟨VRING_DESC_F_NEXT, c.i1⟩
  let second : Desc := ⟨(if r.write then 0 else VRING_DESC_F_WRITE) ||| VRING_DESC_F_NEXT, c.i2⟩
  let third : Desc := ⟨VRING_DESC_F_WRITE, 0⟩
  { d with
    desc := Function.update (Function.update (Function.update d.desc c.i0 first) c.i1 second)
      c.i2 third
    info := Function.update d.info c.i0 ⟨some r.b, 0xff⟩ }

/-- `disk.avail->ring[disk.avail->idx % NUM] = idx[0]` -/
def storeHead (c : Chain) : Disk B :=
  { d with availRing := Function.update d.availRing (d.availIdx % NUM) c.i0 }

/-- `disk.avail->idx += 1` -/
def bumpAvail : Disk B := { d with availIdx := (d.availIdx + 1) % 2 ^ 16 }

/-- `disk.info[i].b = 0` -/
def clearInfo (i : Nat) : Disk B :=
  { d with info := Function.update d.info i { d.info i with b := none } }

/-- The device writes the status and an entry of the used ring. -/
def pushUsed (h : Nat) : Disk B :=
  { d with
    info := Function.update d.info h { d.info h with status := 0 }
    usedRing := Function.update d.usedRing (d.usedIdx % NUM) h
    usedIdx := (d.usedIdx + 1) % 2 ^ 16 }

end Descriptors

inductive PC (B : Type) where
  | idle
  /-- before `acquire`, at the start or in `sleep(&disk.free[0])` -/
  | acquire (r : Request B)
  | alloc (r : Request B)
  | asleepFree (r : Request B)
  | store (r : Request B) (c : Chain)
  | bump (r : Request B) (c : Chain)
  /-- at `while(b->disk == 1)` -/
  | test (r : Request B) (c : Chain)
  | asleep (r : Request B) (c : Chain)
  | reacquire (r : Request B) (c : Chain)

namespace PC
variable {B : Type}

def request : PC B → Option (Request B)
  | .idle => none
  | .acquire r | .alloc r | .asleepFree r => some r
  | .store r _ | .bump r _ | .test r _ | .asleep r _ | .reacquire r _ => some r

def chain : PC B → Option Chain
  | .store _ c | .bump _ c | .test _ c | .asleep _ c | .reacquire _ c => some c
  | _ => none

def told : PC B → Bool
  | .test _ _ | .asleep _ _ | .reacquire _ _ => true
  | _ => false

def holds : PC B → Bool
  | .alloc _ | .store _ _ | .bump _ _ | .test _ _ => true
  | _ => false

/-- `wakeup(&disk.free[0])` -/
def wakeFree : PC B → PC B
  | .asleepFree r => .acquire r
  | c => c

/-- `wakeup(b)` -/
def wakeBuf [DecidableEq B] (b : B) : PC B → PC B
  | .asleep r c => if r.b = b then .reacquire r c else .asleep r c
  | c => c

end PC

inductive Holder (P : Type) where
  | proc (p : P)
  | intr
  deriving DecidableEq

/-- `fetched` is the device's place in the avail ring, `inFlight` the heads it works on, and `busy` is
`b->disk`. -/
structure State (P B : Type) where
  disk : Disk B
  fetched : Nat
  inFlight : List Nat
  busy : B → Bool
  lock : Option (Holder P)
  pc : P → PC B
  panicked : Option Panic

inductive Label (P B : Type) where
  | call (p : P) (r : Request B)
  | acquire (p : P)
  | alloc (p : P)
  | store (p : P)
  | bump (p : P)
  | test (p : P)
  | intr
  | turn
  | fetch
  | complete (h : Nat)

section
variable {P B : Type} [Fintype P] [DecidableEq P] [DecidableEq B]

namespace State
variable (s : State P B)

def goto (p : P) (c : PC B) : State P B := { s with pc := Function.update s.pc p c }

end State

/-- One turn of `while(1)`: three descriptors, or `sleep(&disk.free[0], &disk.vdisk_lock)`. A failed
`alloc3_desc` that gave descriptors back has called `wakeup` for them. -/
def allocTurn (p : P) (r : Request B) (s : State P B) : State P B :=
  match alloc3Desc s.disk with
  | .error e => { s with panicked := some e }
  | .ok (some c, d) =>
    { s with disk := format d r c, busy := Function.update s.busy r.b true }.goto p (.store r c)
  | .ok (none, d) =>
    { s with
      disk := d
      lock := none
      pc := if (allocDesc s.disk).isSome then fun q => (s.pc q).wakeFree else s.pc }.goto p
        (.asleepFree r)

/-- One turn of `while(b->disk == 1)`, or the end of the call. -/
def testTurn (p : P) (r : Request B) (c : Chain) (s : State P B) : State P B :=
  if s.busy r.b then { s with lock := none }.goto p (.asleep r c)
  else
    match freeChain NUM c.i0 (clearInfo s.disk c.i0) with
    | .error e => { s with panicked := some e }
    | .ok d =>
      { s with disk := d, lock := none, pc := fun q => (s.pc q).wakeFree }.goto p .idle

/-- One turn of the loop of `virtio_disk_intr`, or its end. -/
def intrTurn (s : State P B) : State P B :=
  if s.disk.seen = s.disk.usedIdx then { s with lock := none }
  else
    let id := s.disk.usedRing (s.disk.seen % NUM)
    if (s.disk.info id).status ≠ 0 then { s with panicked := some .status }
    else
      match (s.disk.info id).b with
      | none => { s with panicked := some .nullBuf }
      | some b =>
        { s with
          disk := { s.disk with seen := (s.disk.seen + 1) % 2 ^ 16 }
          busy := Function.update s.busy b false
          pc := fun q => (s.pc q).wakeBuf b }

/-- A buffer that is given to `virtio_disk_rw` is locked, so no other call has it. -/
def exec (s : State P B) : Label P B → Option (State P B)
  | .call p r =>
    match s.pc p with
    | .idle => if ∀ q, ((s.pc q).request.map Request.b) ≠ some r.b then some (s.goto p (.acquire r))
      else none
    | _ => none
  | .acquire p =>
    if s.lock = none then
      match s.pc p with
      | .acquire r => some ({ s with lock := some (.proc p) }.goto p (.alloc r))
      | .reacquire r c => some ({ s with lock := some (.proc p) }.goto p (.test r c))
      | _ => none
    else none
  | .alloc p =>
    match s.pc p with
    | .alloc r => some (allocTurn p r s)
    | _ => none
  | .store p =>
    match s.pc p with
    | .store r c => some ({ s with disk := storeHead s.disk c }.goto p (.bump r c))
    | _ => none
  | .bump p =>
    match s.pc p with
    | .bump r c => some ({ s with disk := bumpAvail s.disk }.goto p (.test r c))
    | _ => none
  | .test p =>
    match s.pc p with
    | .test r c => some (testTurn p r c s)
    | _ => none
  | .intr => if s.lock = none then some { s with lock := some .intr } else none
  | .turn => if s.lock = some .intr then some (intrTurn s) else none
  | .fetch =>
    if s.fetched = s.disk.availIdx then none
    else some { s with
      fetched := (s.fetched + 1) % 2 ^ 16
      inFlight := s.inFlight ++ [s.disk.availRing (s.fetched % NUM)] }
  | .complete h =>
    if h ∈ s.inFlight then
      some { s with disk := pushUsed s.disk h, inFlight := s.inFlight.erase h }
    else none

def Step (s : State P B) (l : Option (Label P B)) (s' : State P B) : Prop :=
  ∃ l', l = some l' ∧ s.panicked = none ∧ exec s l' = some s'

/-- After `virtio_disk_init`, which leaves every descriptor free and both rings empty. -/
def init (P B : Type) : State P B where
  disk :=
    { desc := fun _ => ⟨0, 0⟩, free := fun i => decide (i < NUM), info := fun _ => ⟨none, 0⟩,
      availRing := fun _ => 0, availIdx := 0, usedRing := fun _ => 0, usedIdx := 0, seen := 0 }
  fetched := 0
  inFlight := []
  busy := fun _ => false
  lock := none
  pc := fun _ => .idle
  panicked := none

end

end Xv6.Virtio
