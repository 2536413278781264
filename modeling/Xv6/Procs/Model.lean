import Mathlib.Algebra.Ring.Int.Defs
import Mathlib.Data.List.FinRange
import Mathlib.Tactic.Simps.Basic
import Xv6.Foundation.Threads

/-!
# The process table

`fork`, `exit`, `wait`, `reparent`, `kill`, `sleep`, `wakeup` and `yield` of `proc.c`, and the loops
that test `killed`, as programs of the processes. An action is one lock operation, or what is done to
one slot of the table while its lock, or `wait_lock`, is held. `sched` is two actions: the process
gives up the CPU, with which the scheduler releases `p->lock`, and it gets a CPU back when it is
RUNNABLE, with `p->lock` held. `yield` is a call of its own: where a timer interrupt in the middle of a
call makes a process RUNNABLE for a while, no action of another process can tell it from RUNNING.

The slots are numbered, slot by slot as the code scans them; process `p` is the thread of slot `p`.
-/

namespace Xv6.Procs

open Xv6.Foundation

set_option autoImplicit false

inductive ProcState where
  | unused
  | used
  | sleeping
  | runnable
  | running
  | zombie
  deriving DecidableEq

/-- A channel: a process, or some other address. -/
inductive Chan (n : Nat) where
  | proc (p : Fin n)
  | other (i : Nat)
  deriving DecidableEq

/-- `wait_lock`, `p->lock`, and locks such as `pi->lock`, `cons.lock` and `tickslock`. -/
inductive Lock (n : Nat) where
  | wait
  | proc (p : Fin n)
  | other (i : Nat)
  deriving DecidableEq

structure Proc (n : Nat) where
  state : ProcState
  pid : Int
  killed : Bool
  parent : Option (Fin n)
  xstate : Int
  chan : Option (Chan n)
  deriving DecidableEq

/-- How a `wait` returns. -/
inductive WaitResult (n : Nat) where
  | reaped (q : Fin n) (pid : Int) (status : Option Int)
  | badAddress
  | childless
  | killed
  deriving DecidableEq

inductive Event (n : Nat) where
  | allocated (q : Fin n) (pid : Int)
  | forked (p q : Fin n)
  | exited (q : Fin n) (pid status : Int)
  | waited (p : Fin n) (r : WaitResult n)
  | struck (q : Fin n)
  deriving DecidableEq

/-- The table and the locks, with notes on the run: its events, newest first; who is on the way from
a test of `killed` to the `sleep` after it; and who went to sleep in a loop that tests `killed`. -/
structure Kernel (n : Nat) where
  proc : Fin n → Proc n
  holder : Lock n → Option (Fin n)
  nextpid : Int
  log : List (Event n)
  testing : Fin n → Bool
  loop : Fin n → Bool

inductive Panic where
  | initExiting
  | acquire
  | release
  deriving DecidableEq

inductive Act (n : Nat) where
  | myproc
  | acquire (l : Lock n)
  | release (l : Lock n)
  /-- `p->state == UNUSED`, and then `p->pid = allocpid()` and `p->state = USED` -/
  | take (q : Fin n)
  | freeproc (q : Fin n)
  | getPid (q : Fin n)
  | setParent (q : Fin n)
  | setRunnable (q : Fin n)
  | notInit
  | isChild (q : Fin n)
  | giveInit (q : Fin n)
  | getParent
  | setZombie (status : Int)
  | isZombie (q : Fin n)
  | getXstate (q : Fin n)
  | reap (q : Fin n) (pid : Int) (status : Option Int)
  | report (r : WaitResult n)
  | wakeSlot (q : Fin n) (c : Option (Chan n))
  | killSlot (q : Fin n) (pid : Int)
  /-- the test of `p->killed`; `sleeps` says that a `sleep` follows if it is 0 -/
  | getKilled (sleeps : Bool)
  | setSleeping (c : Chan n) (loop : Bool)
  | clearChan
  | setYield
  | schedOut
  | schedIn
  | trap
  | stuck

def Act.Answer {n : Nat} : Act n → Type
  | .myproc => Fin n
  | .take _ => Bool
  | .getPid _ => Int
  | .isChild _ => Bool
  | .getParent => Option (Fin n)
  | .isZombie _ => Bool
  | .getXstate _ => Int
  | .killSlot _ _ => Bool
  | .getKilled _ => Bool
  | _ => Unit

/-- `int` arithmetic wraps around. -/
def int32 (x : Int) : Int := (x + 2 ^ 31) % 2 ^ 32 - 2 ^ 31

variable {n : Nat}

namespace Kernel
variable (k : Kernel n)

@[simps -fullyApplied] def setProc (q : Fin n) (x : Proc n) : Kernel n :=
  { k with proc := Function.update k.proc q x }

@[simps -fullyApplied] def setHolder (l : Lock n) (o : Option (Fin n)) : Kernel n :=
  { k with holder := Function.update k.holder l o }

@[simps -fullyApplied] def note (e : Event n) : Kernel n := { k with log := e :: k.log }

@[simps -fullyApplied] def setTesting (p : Fin n) (b : Bool) : Kernel n :=
  { k with testing := Function.update k.testing p b }

@[simps -fullyApplied] def setLoop (p : Fin n) (b : Bool) : Kernel n :=
  { k with loop := Function.update k.loop p b }

end Kernel

/-- What `freeproc` leaves. -/
@[simps] def Proc.empty : Proc n := ⟨.unused, 0, false, none, 0, none⟩

def takeAct (q : Fin n) (k : Kernel n) : Kernel n × Bool :=
  if (k.proc q).state = .unused then
    ({ k.setProc q { k.proc q with pid := k.nextpid, state := .used } with
        nextpid := int32 (k.nextpid + 1) }.note (.allocated q k.nextpid), true)
  else
    (k, false)

def wakeSlotAct (q : Fin n) (c : Option (Chan n)) (k : Kernel n) : Kernel n :=
  if (k.proc q).state = .sleeping ∧ (k.proc q).chan = c then
    k.setProc q { k.proc q with state := .runnable }
  else
    k

def killSlotAct (q : Fin n) (pid : Int) (k : Kernel n) : Kernel n × Bool :=
  if (k.proc q).pid = pid then
    ((k.setProc q { k.proc q with
      killed := true
      state := if (k.proc q).state = .sleeping then .runnable else (k.proc q).state }).note
        (.struck q), true)
  else
    (k, false)

/-- The action of process `p`; `ini` is `initproc`. -/
def exec (ini p : Fin n) : (a : Act n) → Kernel n → Outcome (Kernel n) Panic a.Answer
  | .myproc, k => .ok p k
  | .acquire l, k =>
    if k.holder l = none then .ok () (k.setHolder l (some p))
    else if k.holder l = some p then .panic .acquire
    else .blocked
  | .release l, k =>
    if k.holder l = some p then .ok () (k.setHolder l none) else .panic .release
  | .take q, k => .ok (takeAct q k).2 (takeAct q k).1
  | .freeproc q, k => .ok () (k.setProc q .empty)
  | .getPid q, k => .ok (k.proc q).pid k
  | .setParent q, k =>
    .ok () ((k.setProc q { k.proc q with parent := some p }).note (.forked p q))
  | .setRunnable q, k => .ok () (k.setProc q { k.proc q with state := .runnable })
  | .notInit, k => if p = ini then .panic .initExiting else .ok () k
  | .isChild q, k => .ok (decide ((k.proc q).parent = some p)) k
  | .giveInit q, k => .ok () (k.setProc q { k.proc q with parent := some ini })
  | .getParent, k => .ok (k.proc p).parent k
  | .setZombie status, k =>
    .ok () ((k.setProc p { k.proc p with xstate := status, state := .zombie }).note
      (.exited p (k.proc p).pid status))
  | .isZombie q, k => .ok (decide ((k.proc q).state = .zombie)) k
  | .getXstate q, k => .ok (k.proc q).xstate k
  | .reap q pid status, k =>
    .ok () ((k.setProc q .empty).note (.waited p (.reaped q pid status)))
  | .report r, k => .ok () (k.note (.waited p r))
  | .wakeSlot q c, k => .ok () (wakeSlotAct q c k)
  | .killSlot q pid, k => .ok (killSlotAct q pid k).2 (killSlotAct q pid k).1
  | .getKilled sleeps, k => .ok (k.proc p).killed (k.setTesting p (sleeps && !(k.proc p).killed))
  | .setSleeping c loop, k =>
    .ok () (((k.setProc p { k.proc p with chan := some c, state := .sleeping }).setTesting p
      false).setLoop p loop)
  | .clearChan, k => .ok () (k.setProc p { k.proc p with chan := none })
  | .setYield, k => .ok () (k.setProc p { k.proc p with state := .runnable })
  | .schedOut, k =>
    if k.holder (.proc p) = some p then .ok () (k.setHolder (.proc p) none) else .panic .release
  | .schedIn, k =>
    if k.holder (.proc p) = none ∧ (k.proc p).state = .runnable then
      .ok () ((k.setProc p { k.proc p with state := .running }).setHolder (.proc p) (some p))
    else
      .blocked
  | .trap, k => .ok () ((k.setProc p { k.proc p with killed := true }).note (.struck p))
  | .stuck, _ => .blocked

abbrev PM (n : Nat) := Prog (Act n) Act.Answer

def act (a : Act n) : PM n a.Answer := .lift a

/-- `proc[0..NPROC)` -/
def slots (n : Nat) : List (Fin n) := List.finRange n

/-! ## `fork` -/

/-- What `allocproc` does with the slot it found, if its two allocations succeed or not. -/
def setupProc (q : Fin n) (trapframe pagetable : Bool) : PM n (Option (Fin n)) :=
  if trapframe && pagetable then pure (some q)
  else do
    act (.freeproc q)
    act (.release (.proc q))
    pure none

def allocproc (trapframe pagetable : Bool) : List (Fin n) → PM n (Option (Fin n))
  | [] => pure none
  | q :: qs => do
    act (.acquire (.proc q))
    let found : Bool ← act (.take q)
    if found then setupProc q trapframe pagetable
    else do
      act (.release (.proc q))
      allocproc trapframe pagetable qs

/-- `fork`, with the outcomes of its allocations and of `uvmcopy`. -/
def fork (trapframe pagetable copied : Bool) : PM n Int := do
  let np ← allocproc trapframe pagetable (slots n)
  match np with
  | none => pure (-1)
  | some q =>
    if copied then do
      let pid : Int ← act (.getPid q)
      act (.release (.proc q))
      act (.acquire .wait)
      act (.setParent q)
      act (.release .wait)
      act (.acquire (.proc q))
      act (.setRunnable q)
      act (.release (.proc q))
      pure pid
    else do
      act (.freeproc q)
      act (.release (.proc q))
      pure (-1)

/-! ## `sleep` and `wakeup` -/

def wakeupFrom (c : Option (Chan n)) : List (Fin n) → PM n Unit
  | [] => pure ()
  | q :: qs => do
    let p : Fin n ← act .myproc
    if q = p then wakeupFrom c qs
    else do
      act (.acquire (.proc q))
      act (.wakeSlot q c)
      act (.release (.proc q))
      wakeupFrom c qs

def wakeup (c : Option (Chan n)) : PM n Unit := wakeupFrom c (slots n)

/-- `sleep`; `loop` says that the caller tests `killed` each time round. -/
def sleep (c : Chan n) (lk : Lock n) (loop : Bool) : PM n Unit := do
  let p : Fin n ← act .myproc
  act (.acquire (.proc p))
  act (.release lk)
  act (.setSleeping c loop)
  act .schedOut
  act .schedIn
  act .clearChan
  act (.release (.proc p))
  act (.acquire lk)

def yield : PM n Unit := do
  let p : Fin n ← act .myproc
  act (.acquire (.proc p))
  act .setYield
  act .schedOut
  act .schedIn
  act (.release (.proc p))

/-! ## `exit` and `wait` -/

def reparentFrom (ini : Fin n) : List (Fin n) → PM n Unit
  | [] => pure ()
  | q :: qs => do
    let child : Bool ← act (.isChild q)
    if child then do
      act (.giveInit q)
      wakeup (some (.proc ini))
      reparentFrom ini qs
    else reparentFrom ini qs

def exit (ini : Fin n) (status : Int) : PM n Int := do
  act .notInit
  act (.acquire .wait)
  reparentFrom ini (slots n)
  let parent : Option (Fin n) ← act .getParent
  wakeup (parent.map .proc)
  let p : Fin n ← act .myproc
  act (.acquire (.proc p))
  act (.setZombie status)
  act (.release .wait)
  act .schedOut
  pure 0

/-- A ZOMBIE child is found. `addr` says that `addr != 0`, `copied` that `copyout` succeeds. -/
def reapChild (addr copied : Bool) (q : Fin n) : PM n Int := do
  let pid : Int ← act (.getPid q)
  if addr then
    if copied then do
      let status : Int ← act (.getXstate q)
      act (.reap q pid (some status))
      act (.release (.proc q))
      act (.release .wait)
      pure pid
    else do
      act (.report .badAddress)
      act (.release (.proc q))
      act (.release .wait)
      pure (-1)
  else do
    act (.reap q pid none)
    act (.release (.proc q))
    act (.release .wait)
    pure pid

/-- The scan of `wait`: what it returns, or `havekids` at the end. -/
def waitScan (addr copied : Bool) : Bool → List (Fin n) → PM n (Int ⊕ Bool)
  | havekids, [] => pure (.inr havekids)
  | havekids, q :: qs => do
    let child : Bool ← act (.isChild q)
    if child then do
      act (.acquire (.proc q))
      let zombie : Bool ← act (.isZombie q)
      if zombie then do
        let r ← reapChild addr copied q
        pure (.inl r)
      else do
        act (.release (.proc q))
        waitScan addr copied true qs
    else waitScan addr copied havekids qs

/-- `for(;;)`, at most so many times round. -/
def waitRounds (addr copied : Bool) : Nat → PM n Int
  | 0 => do
    act .stuck
    pure (-1)
  | rounds + 1 => do
    let r ← waitScan addr copied false (slots n)
    match r with
    | .inl r => pure r
    | .inr havekids =>
      if havekids then do
        let killed : Bool ← act (.getKilled true)
        if killed then do
          act (.report .killed)
          act (.release .wait)
          pure (-1)
        else do
          let p : Fin n ← act .myproc
          sleep (.proc p) .wait true
          waitRounds addr copied rounds
      else do
        act (.report .childless)
        act (.release .wait)
        pure (-1)

def wait (addr copied : Bool) (rounds : Nat) : PM n Int := do
  act (.acquire .wait)
  waitRounds addr copied rounds

/-! ## `kill` -/

def killFrom (pid : Int) : List (Fin n) → PM n Int
  | [] => pure (-1)
  | q :: qs => do
    act (.acquire (.proc q))
    let found : Bool ← act (.killSlot q pid)
    act (.release (.proc q))
    if found then pure 0 else killFrom pid qs

def kill (pid : Int) : PM n Int := killFrom pid (slots n)

/-! ## Loops that sleep -/

/-- A turn of `piperead`, `pipewrite`, `consoleread` or `sys_sleep`: the condition to go on is not met
and it sleeps, it goes on (as `pipewrite` does with the next byte), or it is done. -/
inductive Turn where
  | sleep
  | go
  | done

def loopTurns (c : Chan n) (lk : Lock n) : List Turn → PM n Int
  | [] => do
    act .stuck
    pure (-1)
  | .done :: _ => do
    act (.release lk)
    pure 0
  | .go :: ts => do
    let killed : Bool ← act (.getKilled false)
    if killed then do
      act (.release lk)
      pure (-1)
    else loopTurns c lk ts
  | .sleep :: ts => do
    let killed : Bool ← act (.getKilled true)
    if killed then do
      act (.release lk)
      pure (-1)
    else do
      sleep c lk true
      loopTurns c lk ts

/-- A loop that does not look at `killed`, as in `acquiresleep` or `begin_op`. -/
def deafTurns (c : Chan n) (lk : Lock n) : Nat → PM n Int
  | 0 => do
    act (.release lk)
    pure 0
  | rounds + 1 => do
    sleep c lk false
    deafTurns c lk rounds

/-! ## The machine -/

inductive Call where
  | fork (trapframe pagetable copied : Bool)
  | exit (status : Int)
  | wait (addr copied : Bool) (rounds : Nat)
  | kill (pid : Int)
  | yield
  /-- an unexpected trap: `p->killed = 1; exit(-1)` -/
  | trap
  | loop (chan lock : Nat) (turns : List Turn)
  | deaf (chan lock : Nat) (rounds : Nat)
  /-- a `wakeup` of some other channel -/
  | wakeup (chan : Nat)

def prog (ini : Fin n) : Call → PM n Int
  | .fork trapframe pagetable copied => fork trapframe pagetable copied
  | .exit status => exit ini status
  | .wait addr copied rounds => wait addr copied rounds
  | .kill pid => kill pid
  | .yield => do
    yield
    pure 0
  | .trap => do
    act .trap
    exit ini (-1)
  | .loop c lk turns => do
    act (.acquire (.other lk))
    loopTurns (.other c) (.other lk) turns
  | .deaf c lk rounds => do
    act (.acquire (.other lk))
    deafTurns (.other c) (.other lk) rounds
  | .wakeup c => do
    wakeup (some (.other c))
    pure 0

/-- A process makes calls while it is RUNNING. A new one starts when the scheduler picks it and
`forkret` has released its lock. -/
def enter (p : Fin n) (k : Kernel n) : Option (Kernel n) :=
  if (k.proc p).state = .running then some k
  else if (k.proc p).state = .runnable ∧ k.holder (.proc p) = none then
    some (k.setProc p { k.proc p with state := .running })
  else none

def machine (ini : Fin n) : Machine (Fin n) (Act n) Act.Answer (Kernel n) Panic Call Int where
  exec := exec ini
  enter := enter
  prog := prog ini

/-- After `userinit`. -/
def boot (ini : Fin n) : Kernel n where
  proc := Function.update (fun _ => .empty) ini ⟨.runnable, 1, false, none, 0, none⟩
  holder := fun _ => none
  nextpid := 2
  log := [.allocated ini 1]
  testing := fun _ => false
  loop := fun _ => false

def init (ini : Fin n) : Sys (Fin n) (Act n) Act.Answer (Kernel n) Panic Int :=
  ⟨boot ini, fun _ => .ret 0, none⟩

end Xv6.Procs
