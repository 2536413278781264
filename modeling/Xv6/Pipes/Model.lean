import Mathlib.Data.List.FinRange
import Mathlib.Logic.Function.Basic
import Mathlib.Tactic.Simps.Basic
import Xv6.Foundation.Run

/-!
# Pipes

`pipewrite`, `piperead` and `pipeclose` of `pipe.c`, with the steps of `sleep` and `wakeup` that
other processes can see and with `kill` at any moment. A section under `pi->lock` is one step for
each turn of a loop, since `pr->killed` is read there without a lock; a section under the `p->lock`
of the process it looks at is one step.
-/

namespace Xv6.Pipes

open Xv6.Foundation

set_option autoImplicit false

def PIPESIZE : Nat := 512

/-- `nread` and `nwrite` are `uint`. -/
structure Pipe where
  data : Nat → UInt8
  nread : Nat
  nwrite : Nat
  readopen : Bool
  writeopen : Bool

namespace Pipe
variable (pi : Pipe)

/-- `pi->nread == pi->nwrite` -/
def Empty : Prop := pi.nread = pi.nwrite

/-- `pi->nwrite == pi->nread + PIPESIZE` -/
def Full : Prop := pi.nwrite = (pi.nread + PIPESIZE) % 2 ^ 32

instance : Decidable pi.Empty := inferInstanceAs (Decidable (pi.nread = pi.nwrite))
instance : Decidable pi.Full := inferInstanceAs (Decidable (pi.nwrite = _))

/-- `pi->data[pi->nwrite++ % PIPESIZE] = ch` -/
@[simps] def put (ch : UInt8) : Pipe :=
  { pi with
    data := Function.update pi.data (pi.nwrite % PIPESIZE) ch
    nwrite := (pi.nwrite + 1) % 2 ^ 32 }

/-- `pi->data[pi->nread % PIPESIZE]` -/
def front : UInt8 := pi.data (pi.nread % PIPESIZE)

/-- `pi->nread++` -/
@[simps] def take : Pipe := { pi with nread := (pi.nread + 1) % 2 ^ 32 }

/-- `writeopen = 0` or `readopen = 0` -/
@[simps] def close (writable : Bool) : Pipe :=
  { pi with
    writeopen := pi.writeopen && !writable
    readopen := pi.readopen && writable }

end Pipe

/-- `&pi->nread` and `&pi->nwrite` -/
inductive Chan where
  | nread
  | nwrite
  deriving DecidableEq

/-- A call, with the bytes that `copyin` finds (`none` where the page is not mapped), or with what
`copyout` can store. -/
inductive Call where
  | write (n : Int) (src : Nat → Option UInt8)
  | read (n : Int) (dst : Nat → Bool)
  | close (writable : Bool)

/-- The loop that goes on after a `sleep`. -/
inductive Loop where
  | write (n : Int) (src : Nat → Option UInt8) (i : Nat)
  | read (n : Int) (dst : Nat → Bool)

inductive Result where
  | wrote (r : Int)
  | read (n : Int) (dst : Nat → Bool) (r : Int)
  | closed

/-- Where a process is in `sleep`: before `acquire(&p->lock)`, before `release(lk)`, before it sets
`SLEEPING`, before the scheduler releases `p->lock`, switched away, before `acquire(lk)`. -/
inductive Stage where
  | entering
  | locked
  | released
  | set
  | parked
  | reacquire
  deriving DecidableEq

inductive After where
  | sleep (k : Loop)
  | release (r : Result)

inductive PC (n : Nat) where
  | idle
  | enter (k : Call)
  | loop (k : Loop)
  | copy (n : Int) (dst : Nat → Bool) (i : Nat)
  | waking (chan : Chan) (todo : List (Fin n)) (k : After)
  | sleep (chan : Chan) (stage : Stage) (k : Loop)
  | release (r : Result)

structure State (n : Nat) where
  pipe : Pipe
  lock : Option (Fin n)
  pc : Fin n → PC n
  sleeping : Fin n → Bool
  killed : Fin n → Bool

inductive Event (n : Nat) where
  | put (p : Fin n) (ch : UInt8)
  | took (p : Fin n) (ch : UInt8)
  | woke (p : Fin n) (chan : Chan)
  | returned (p : Fin n) (r : Result)

variable {n : Nat}

namespace State
variable (s : State n)

@[simps] def setPc (p : Fin n) (pc : PC n) : State n := { s with pc := Function.update s.pc p pc }

@[simps] def setPipe (pi : Pipe) : State n := { s with pipe := pi }

@[simps] def setLock (o : Option (Fin n)) : State n := { s with lock := o }

@[simps] def setSleeping (p : Fin n) (b : Bool) : State n :=
  { s with sleeping := Function.update s.sleeping p b }

@[simps] def setKilled (p : Fin n) : State n :=
  { s with killed := Function.update s.killed p true }

end State

/-- The process holds its own `p->lock`, in `sleep`. -/
def PC.ownLocked : PC n → Bool
  | .sleep _ .locked _ | .sleep _ .released _ | .sleep _ .set _ => true
  | _ => false

def PC.sleepsOn (chan : Chan) : PC n → Bool
  | .sleep chan' _ _ => decide (chan' = chan)
  | _ => false

/-- What follows a `wakeup`: only `pipewrite` goes to sleep after one, on `&pi->nwrite`. -/
def After.pc : After → PC n
  | .sleep k => .sleep .nwrite .entering k
  | .release r => .release r

/-- What a turn under `pi->lock` leaves: the pipe, the point at which the process goes on, and what
is seen of it. -/
structure Turn (n : Nat) where
  pipe : Pipe
  pc : PC n
  event : Option (Event n)

/-- What follows the `acquire(&pi->lock)` of a call. -/
def begin (pi : Pipe) : Call → Turn n
  | .write m src => ⟨pi, .loop (.write m src 0), none⟩
  | .read m dst => ⟨pi, .loop (.read m dst), none⟩
  | .close writable => ⟨pi.close writable,
      .waking (if writable then .nread else .nwrite) (List.finRange n) (.release .closed), none⟩

/-- One turn of the loop of `pipewrite`, or of the waiting loop of `piperead`; `killed` is
`pr->killed`. -/
def stepLoop (p : Fin n) (killed : Bool) (pi : Pipe) : Loop → Turn n
  | .write m src i =>
    if (i : Int) < m then
      if pi.readopen = false ∨ killed then ⟨pi, .release (.wrote (-1)), none⟩
      else if pi.Full then ⟨pi, .waking .nread (List.finRange n) (.sleep (.write m src i)), none⟩
      else
        match src i with
        | none => ⟨pi, .waking .nread (List.finRange n) (.release (.wrote i)), none⟩
        | some ch => ⟨pi.put ch, .loop (.write m src (i + 1)), some (.put p ch)⟩
    else ⟨pi, .waking .nread (List.finRange n) (.release (.wrote i)), none⟩
  | .read m dst =>
    if pi.Empty ∧ pi.writeopen then
      if killed then ⟨pi, .release (.read m dst (-1)), none⟩
      else ⟨pi, .sleep .nread .entering (.read m dst), none⟩
    else ⟨pi, .copy m dst 0, none⟩

/-- One turn of the copying loop of `piperead`. -/
def stepCopy (p : Fin n) (pi : Pipe) (m : Int) (dst : Nat → Bool) (i : Nat) : Turn n :=
  if (i : Int) < m ∧ ¬ pi.Empty then
    ⟨pi.take,
      if dst i then .copy m dst (i + 1)
      else .waking .nwrite (List.finRange n) (.release (.read m dst i)),
      some (.took p pi.front)⟩
  else ⟨pi, .waking .nwrite (List.finRange n) (.release (.read m dst i)), none⟩

def State.turn (s : State n) (p : Fin n) (r : Turn n) : State n × Option (Event n) :=
  ((s.setPipe r.pipe).setPc p r.pc, r.event)

/-- `wakeup(chan)` looks at `q`, under `q->lock`. -/
def wake (s : State n) (chan : Chan) (q : Fin n) : State n :=
  if s.sleeping q ∧ (s.pc q).sleepsOn chan then s.setSleeping q false else s

def stepSleep (p : Fin n) (s : State n) (chan : Chan) (k : Loop) : Stage → Option (State n)
  | .entering => some (s.setPc p (.sleep chan .locked k))
  | .locked => some ((s.setLock none).setPc p (.sleep chan .released k))
  | .released => some ((s.setSleeping p true).setPc p (.sleep chan .set k))
  | .set => some (s.setPc p (.sleep chan .parked k))
  | .parked => if s.sleeping p then none else some (s.setPc p (.sleep chan .reacquire k))
  | .reacquire =>
    if s.lock = none then some ((s.setLock (some p)).setPc p (.loop k)) else none

/-- One step of process `p`; `call` is what it calls next if it is idle. -/
def step (p : Fin n) (call : Call) (s : State n) : Option (State n × Option (Event n)) :=
  match s.pc p with
  | .idle => some (s.setPc p (.enter call), none)
  | .enter k =>
    if s.lock = none then some ((s.setLock (some p)).turn p (begin s.pipe k)) else none
  | .loop k => some (s.turn p (stepLoop p (s.killed p) s.pipe k))
  | .copy m dst i => some (s.turn p (stepCopy p s.pipe m dst i))
  | .waking chan [] k => some (s.setPc p k.pc, some (.woke p chan))
  | .waking chan (q :: todo) k =>
    if q = p then some (s.setPc p (.waking chan todo k), none)
    else if (s.pc q).ownLocked then none
    else some ((wake s chan q).setPc p (.waking chan todo k), none)
  | .sleep chan stage k => (stepSleep p s chan k stage).map fun s' => (s', none)
  | .release r => some ((s.setLock none).setPc p .idle, some (.returned p r))

/-- `kill` of process `q`, under `q->lock`. -/
def kill (q : Fin n) (s : State n) : Option (State n) :=
  if (s.pc q).ownLocked then none else some ((s.setKilled q).setSleeping q false)

/-- A pipe as `pipealloc` leaves it, on a page with arbitrary bytes. -/
def boot (n : Nat) (data : Nat → UInt8) : State n where
  pipe := ⟨data, 0, 0, true, true⟩
  lock := none
  pc := fun _ => .idle
  sleeping := fun _ => false
  killed := fun _ => false

inductive Step (s : State n) : Option (Event n) → State n → Prop where
  | proc {p call s' e} : step p call s = some (s', e) → Step s e s'
  | kill {q s'} : kill q s = some s' → Step s none s'

inductive Label (n : Nat) where
  | proc (p : Fin n) (call : Call)
  | kill (q : Fin n)

def exec : Label n → State n → Option (State n × Option (Event n))
  | .proc p call, s => step p call s
  | .kill q, s => (Pipes.kill q s).map fun s' => (s', none)

theorem Step.of_exec {l : Label n} {s s' : State n} {e : Option (Event n)}
    (h : exec l s = some (s', e)) : Step s e s' := by
  cases l with
  | proc p call => exact .proc h
  | kill q =>
    simp only [exec, Option.map_eq_some_iff, Prod.mk.injEq] at h
    obtain ⟨_, hk, rfl, rfl⟩ := h
    exact .kill hk

/-- `s` is reached from a new pipe with history `t`, the newest event first. -/
def Reaches (data : Nat → UInt8) (t : List (Event n)) (s : State n) : Prop :=
  Run Step (boot n data) t s

end Xv6.Pipes
