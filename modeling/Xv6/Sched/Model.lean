import Mathlib.Logic.Function.Basic
import Mathlib.Data.List.FinRange
import Mathlib.Tactic.Simps.Basic
import Xv6.Foundation.Run

/-!
# Sleep, wakeup and the scheduler

The steps of `sleep`, `wakeup`, `kill`, `yield`, `sched` and `scheduler` in `proc.c`, one atomic
step for each lock operation and each store under a lock. A spinlock is held by a CPU, as
`lk->cpu` says: the `p->lock` that a process takes in `sleep` is released by the scheduler of the
same CPU after the switch. Between these calls a process is free to take and release locks.
-/

namespace Xv6.Sched

open Xv6.Foundation

set_option autoImplicit false

inductive ProcState where
  | sleeping
  | runnable
  | running
  deriving DecidableEq

/-- Where the code of a process stands. `L` are the locks handed to `sleep`, `X` the channels. -/
inductive PC (P L X : Type) where
  | run
  | sleepEnter (chan : X) (lk : L)
  | sleepRelease (chan : X) (lk : L)
  | sleepSet (chan : X) (lk : L)
  | sleepSched (chan : X) (lk : L)
  | sleepTidy (chan : X) (lk : L)
  | sleepUnlock (lk : L)
  | sleepReacquire (lk : L)
  | wakeup (chan : X) (rest : List P)
  | wakeupTest (chan : X) (q : P) (rest : List P)
  | wakeupRelease (chan : X) (q : P) (rest : List P)
  | killEnter (q : P)
  | killSet (q : P)
  | killRelease (q : P)
  | yieldEnter
  | yieldSet
  | yieldSched
  | unlockSelf

/-- What a CPU does: `scheduler` between two processes, with the lock of a process it looks at,
running a process, or back in `scheduler` from one. -/
inductive Cpu (P : Type) where
  | scan
  | picked (p : P)
  | running (p : P)
  | back (p : P)

/-- `held` are the locks, apart from those of processes, that a process has taken and not
released; `mycpu()->noff` counts them. -/
structure State (P C L X : Type) where
  cpu : C → Cpu P
  pc : P → PC P L X
  state : P → ProcState
  chan : P → Option X
  plock : P → Option C
  lock : L → Option C
  held : P → List L

inductive Event (P L X : Type) where
  | acquired (p : P) (lk : L)
  | released (p : P) (lk : L)
  | slept (p : P) (chan : X) (lk : L)
  | woke (p : P) (chan : X)

/-- What is left open: the process a scheduler looks at next, and what a process does next. -/
inductive Choice (P L X : Type) where
  | go
  | pick (p : P)
  | acquire (lk : L)
  | release (lk : L)
  | sleep (chan : X) (lk : L)
  | wakeup (chan : X)
  | kill (q : P)
  | yield

section Step
variable {n : Nat} {C L X : Type} [DecidableEq C] [DecidableEq L] [DecidableEq X]

namespace State
variable (s : State (Fin n) C L X)

@[simps] def setPc (p : Fin n) (pc : PC (Fin n) L X) : State (Fin n) C L X :=
  { s with pc := Function.update s.pc p pc }

@[simps] def setCpu (c : C) (k : Cpu (Fin n)) : State (Fin n) C L X :=
  { s with cpu := Function.update s.cpu c k }

@[simps] def setState (p : Fin n) (st : ProcState) : State (Fin n) C L X :=
  { s with state := Function.update s.state p st }

@[simps] def setChan (p : Fin n) (x : Option X) : State (Fin n) C L X :=
  { s with chan := Function.update s.chan p x }

@[simps] def setPlock (p : Fin n) (o : Option C) : State (Fin n) C L X :=
  { s with plock := Function.update s.plock p o }

/-- `acquire(lk)` by process `p` on CPU `c`. -/
@[simps] def take (c : C) (p : Fin n) (lk : L) : State (Fin n) C L X :=
  { s with
    lock := Function.update s.lock lk (some c)
    held := Function.update s.held p (lk :: s.held p) }

/-- `release(lk)` by process `p`. -/
@[simps] def drop (p : Fin n) (lk : L) : State (Fin n) C L X :=
  { s with
    lock := Function.update s.lock lk none
    held := Function.update s.held p ((s.held p).erase lk) }

end State

/-- A process that is not in one of the modelled functions takes its next decision. -/
def choose (c : C) (p : Fin n) (s : State (Fin n) C L X) :
    Choice (Fin n) L X → Option (State (Fin n) C L X × Option (Event (Fin n) L X))
  | .acquire lk => if s.lock lk = none then some (s.take c p lk, some (.acquired p lk)) else none
  | .release lk => if s.lock lk = some c then some (s.drop p lk, some (.released p lk)) else none
  | .sleep x lk =>
    if s.lock lk = some c then some (s.setPc p (.sleepEnter x lk), some (.slept p x lk)) else none
  | .wakeup x => some (s.setPc p (.wakeup x (List.finRange n)), none)
  | .kill q => some (s.setPc p (.killEnter q), none)
  | .yield => some (s.setPc p .yieldEnter, none)
  | _ => none

/-- One step of process `p` on CPU `c`. `sched` panics, and nothing follows, if a lock other than
`p->lock` is held. -/
def stepProc (c : C) (p : Fin n) (ch : Choice (Fin n) L X) (s : State (Fin n) C L X) :
    Option (State (Fin n) C L X × Option (Event (Fin n) L X)) :=
  match s.pc p with
  | .run => choose c p s ch
  | .sleepEnter x lk =>
    if s.plock p = none then some ((s.setPlock p (some c)).setPc p (.sleepRelease x lk), none)
    else none
  | .sleepRelease x lk => some ((s.drop p lk).setPc p (.sleepSet x lk), none)
  | .sleepSet x lk =>
    some (((s.setChan p (some x)).setState p .sleeping).setPc p (.sleepSched x lk), none)
  | .sleepSched x lk =>
    if s.held p = [] then some ((s.setCpu c (.back p)).setPc p (.sleepTidy x lk), none) else none
  | .sleepTidy _ lk => some ((s.setChan p none).setPc p (.sleepUnlock lk), none)
  | .sleepUnlock lk => some ((s.setPlock p none).setPc p (.sleepReacquire lk), none)
  | .sleepReacquire lk =>
    if s.lock lk = none then some ((s.take c p lk).setPc p .run, some (.acquired p lk))
    else none
  | .wakeup x [] => some (s.setPc p .run, some (.woke p x))
  | .wakeup x (q :: rest) =>
    if q = p then some (s.setPc p (.wakeup x rest), none)
    else if s.plock q = none then
      some ((s.setPlock q (some c)).setPc p (.wakeupTest x q rest), none)
    else none
  | .wakeupTest x q rest =>
    some ((if s.state q = .sleeping ∧ s.chan q = some x then s.setState q .runnable else s).setPc p
      (.wakeupRelease x q rest), none)
  | .wakeupRelease x q rest => some ((s.setPlock q none).setPc p (.wakeup x rest), none)
  | .killEnter q =>
    if s.plock q = none then some ((s.setPlock q (some c)).setPc p (.killSet q), none) else none
  | .killSet q =>
    some ((if s.state q = .sleeping then s.setState q .runnable else s).setPc p (.killRelease q),
      none)
  | .killRelease q => some ((s.setPlock q none).setPc p .run, none)
  | .yieldEnter =>
    if s.plock p = none then some ((s.setPlock p (some c)).setPc p .yieldSet, none) else none
  | .yieldSet => some ((s.setState p .runnable).setPc p .yieldSched, none)
  | .yieldSched =>
    if s.held p = [] then some ((s.setCpu c (.back p)).setPc p .unlockSelf, none) else none
  | .unlockSelf => some ((s.setPlock p none).setPc p .run, none)

/-- One step of CPU `c`. -/
def step (c : C) (ch : Choice (Fin n) L X) (s : State (Fin n) C L X) :
    Option (State (Fin n) C L X × Option (Event (Fin n) L X)) :=
  match s.cpu c with
  | .scan =>
    match ch with
    | .pick p =>
      if s.plock p = none then some ((s.setPlock p (some c)).setCpu c (.picked p), none) else none
    | _ => none
  | .picked p =>
    if s.state p = .runnable then some ((s.setState p .running).setCpu c (.running p), none)
    else some ((s.setPlock p none).setCpu c .scan, none)
  | .running p => stepProc c p ch s
  | .back p => some ((s.setPlock p none).setCpu c .scan, none)

/-- All CPUs in `scheduler`, every process new: `forkret` starts by releasing `p->lock`. -/
def boot (n : Nat) (C L X : Type) : State (Fin n) C L X where
  cpu := fun _ => .scan
  pc := fun _ => .unlockSelf
  state := fun _ => .runnable
  chan := fun _ => none
  plock := fun _ => none
  lock := fun _ => none
  held := fun _ => []

def Step (s : State (Fin n) C L X) (e : Option (Event (Fin n) L X)) (s' : State (Fin n) C L X) :
    Prop :=
  ∃ c ch, step c ch s = some (s', e)

def Reaches (t : List (Event (Fin n) L X)) (s : State (Fin n) C L X) : Prop :=
  Run Step (boot n C L X) t s

end Step

end Xv6.Sched
