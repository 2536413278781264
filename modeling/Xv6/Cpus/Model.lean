import Mathlib.Tactic.Simps.Basic
import Xv6.Procs.Model

/-!
# CPUs, kernel threads and interrupts

`push_off`, `pop_off`, `acquire` and `release` of `spinlock.c`, and `scheduler`, `sched`, `swtch`,
`yield`, `sleep` and the end of `exit` of `proc.c`, on any number of CPUs. A kernel thread is the
thread of a process or the scheduler of a CPU, and takes steps while a CPU executes it. Its code is
a list of instructions; a spinlock is held by a CPU, as `lk->cpu` says; `swtch` saves the context of
the old thread in one step and goes on with the new thread in another.

Other kernel code is any sequence of the operations of `Op` that is nested as it should be, which
`Point.run` decides: `wakeup`, `kill`, `fork` and `wait` visit slots under their locks. Where the CPU
has interrupts on, an interrupt puts such a sequence in front of what the thread has left to do.
-/

namespace Xv6.Cpus

open Xv6.Foundation
open Xv6.Procs (ProcState)

set_option autoImplicit false

inductive Thread (T C : Type) where
  | proc (p : T)
  | sched (c : C)
  deriving DecidableEq

inductive Lock (T : Type) where
  | proc (p : T)
  | other (i : Nat)
  deriving DecidableEq

def Thread.lock {T C : Type} : Thread T C → Option (Lock T)
  | .proc p => some (.proc p)
  | .sched _ => none

/-- `p->context`: in use or being overwritten, as `allocproc` sets it, or as `swtch` saves it. -/
inductive Ctx where
  | torn
  | fresh
  | saved
  deriving DecidableEq

structure Slot where
  state : ProcState
  ctx : Ctx

/-- `proc` is `c->proc`; `running` is the process that the CPU executes, if it does not execute its
scheduler. -/
structure Cpu (T : Type) where
  proc : Option T
  noff : Nat
  intena : Bool
  intr : Bool
  running : Option T

/-- What is done to a slot under its lock: `wakeup` and `kill`, `allocproc`, the end of `fork`, and
`freeproc`. -/
inductive Visit where
  | wake
  | alloc
  | ready
  | free
  deriving DecidableEq

inductive Instr (T : Type) where
  /-- `intr_on` and `intr_off` -/
  | intr (b : Bool)
  /-- the return from an interrupt -/
  | sret
  /-- `old = intr_get()` in `push_off` -/
  | push
  /-- the rest of `push_off` -/
  | off (old : Bool)
  | pop
  /-- `acquire` after its `push_off` -/
  | take (l : Lock T)
  /-- `release` before its `pop_off` -/
  | drop (l : Lock T)
  | myproc
  | visit (q : T) (v : Visit)
  | setState (st : ProcState)
  /-- the tests of `sched`, and `intena = mycpu()->intena` -/
  | sched
  /-- the first half of `swtch(&p->context, &mycpu()->context)`, and its second half -/
  | save (intena : Bool)
  | jump (intena : Bool)
  /-- `mycpu()->intena = intena` -/
  | restore (intena : Bool)
  /-- `panic("zombie exit")` -/
  | dead
  /-- the loop of `scheduler`, with the slots that are left; nothing comes after it -/
  | scan (qs : List T)
  | pick (q : T) (qs : List T)
  /-- `swtch(&c->context, &p->context)` -/
  | load (q : T) (qs : List T)
  | clear (q : T) (qs : List T)

/-- What a thread does to its own `p->state` before `sched`: nothing yet, left as `RUNNABLE`,
`SLEEPING` or `ZOMBIE`, or gone for good. -/
inductive Mode where
  | run
  | left (st : ProcState)
  | gone
  deriving DecidableEq

/-- Where a thread is in its nesting: the locks it has taken, how many `push_off` are open, whether
it has interrupts on where none is open (`en`), and whether it is in an interrupt handler. -/
structure Point (T : Type) where
  held : List (Lock T)
  depth : Nat
  mode : Mode
  en : Bool
  irq : Bool

structure Local (T : Type) where
  code : List (Instr T)
  pt : Point T

structure State (T C : Type) where
  slot : T → Slot
  cpu : C → Cpu T
  holder : Lock T → Option C
  thread : Thread T C → Local T

inductive Panic where
  | acquire
  | release
  | popOffInterruptible
  | popOff
  | noProc
  | schedLock
  | schedLocks
  | schedRunning
  | schedInterruptible
  | zombieExit
  | badContext
  deriving DecidableEq

variable {T C : Type} [DecidableEq T] [DecidableEq C]

/-! ## Nesting -/

namespace Point

/-- Whether interrupts are on where no `push_off` is open. -/
def eff (x : Point T) : Bool := !x.irq && x.en

/-- At a switch, only `p->lock` is held. -/
def atSwitch (x : Point T) (p : T) : Bool := decide (x.held = [.proc p]) && decide (x.depth = 1)

/-- What an instruction does to the nesting, if it fits. -/
def effect (t : Thread T C) (x : Point T) : Instr T → Option (Point T)
  | .intr b =>
    if x.depth = 0 ∧ x.mode = .run ∧ x.irq = false then some { x with en := b } else none
  | .sret => if x.depth = 0 ∧ x.mode = .run ∧ x.irq then some { x with irq := false } else none
  | .push => some { x with depth := x.depth + 1 }
  | .off old => if x.depth = 0 → old = x.eff then some { x with depth := x.depth + 1 } else none
  | .pop => if x.held.length < x.depth then some { x with depth := x.depth - 1 } else none
  | .take l =>
    if x.mode = .run ∧ l ∉ x.held ∧ x.held.length < x.depth then
      some { x with held := l :: x.held }
    else none
  | .drop l =>
    if l ∈ x.held ∧ (x.mode = .run ∨ t.lock ≠ some l) then
      some { x with held := x.held.erase l }
    else none
  | .myproc => if t.lock.isSome ∧ 0 < x.depth then some x else none
  | .visit q _ => if x.mode = .run ∧ .proc q ∈ x.held then some x else none
  | .setState st =>
    match t with
    | .proc p =>
      if x.mode = .run ∧ .proc p ∈ x.held ∧ (st = .runnable ∨ st = .sleeping ∨ st = .zombie) then
        some { x with mode := .left st }
      else none
    | .sched _ => none
  | .sched =>
    match t, x.mode with
    | .proc p, .left st =>
      if x.atSwitch p then some { x with mode := if st = .zombie then .gone else .run } else none
    | _, _ => none
  | .save b | .jump b =>
    match t, x.mode with
    | .proc p, .left st =>
      if x.atSwitch p ∧ b = x.eff then
        some { x with mode := if st = .zombie then .gone else .run }
      else none
    | _, _ => none
  | .restore b =>
    match t with
    | .proc p => if x.mode = .run ∧ x.atSwitch p ∧ b = x.eff then some x else none
    | .sched _ => none
  | .dead => none
  | .scan _ =>
    match t with
    | .proc _ => none
    | .sched _ =>
      if x.mode = .run ∧ x.held = [] ∧ x.depth = 0 ∧ x.irq = false then some x else none
  | .pick q _ | .load q _ | .clear q _ =>
    match t with
    | .proc _ => none
    | .sched _ =>
      if x.mode = .run ∧ x.atSwitch q ∧ x.irq = false then some { x with held := [], depth := 0 }
      else none

/-- A thread that is gone has nothing left to fit. -/
def after (t : Thread T C) (x : Point T) (i : Instr T) : Option (Point T) :=
  if x.mode = .gone then some x else x.effect t i

def run (t : Thread T C) : List (Instr T) → Point T → Option (Point T)
  | [], x => some x
  | i :: r, x => (x.after t i).bind (run t r)

def idle (x : Point T) : Bool :=
  decide (x.mode = .gone) ||
    (decide (x.held = []) && decide (x.depth = 0) && decide (x.mode = .run) && !x.irq)

/-- The code is nested as it should be. -/
def fits (t : Thread T C) (x : Point T) (code : List (Instr T)) : Bool :=
  ((x.run t code).map idle).getD false

end Point

/-! ## The code -/

def acquire (l : Lock T) : List (Instr T) := [.push, .take l]

def release (l : Lock T) : List (Instr T) := [.drop l, .pop]

def myproc : List (Instr T) := [.push, .myproc, .pop]

def sched : List (Instr T) := myproc ++ [.sched]

def yield (p : T) : List (Instr T) :=
  myproc ++ acquire (.proc p) ++ [.setState .runnable] ++ sched ++ release (.proc p)

def sleep (p : T) (lk : Lock T) : List (Instr T) :=
  myproc ++ acquire (.proc p) ++ release lk ++ [.setState .sleeping] ++ sched ++
    release (.proc p) ++ acquire lk

/-- The end of `exit`, with `wait_lock` held. -/
def exit (p : T) (lk : Lock T) : List (Instr T) :=
  acquire (.proc p) ++ [.setState .zombie] ++ release lk ++ sched ++ [.dead]

/-- A new process releases the lock that the scheduler has taken. -/
def forkret (p : T) : List (Instr T) := myproc ++ release (.proc p)

inductive Op (T : Type) where
  | intr (b : Bool)
  | pushOff
  | popOff
  | acquire (l : Lock T)
  | release (l : Lock T)
  | visit (q : T) (v : Visit)
  | yield
  | sleep (l : Lock T)
  | exit (l : Lock T)

/-- A scheduler does not give up its CPU. -/
def Op.code (t : Thread T C) : Op T → List (Instr T)
  | .intr b => [.intr b]
  | .pushOff => [.push]
  | .popOff => [.pop]
  | .acquire l => Cpus.acquire l
  | .release l => Cpus.release l
  | .visit q v => [.visit q v]
  | .yield =>
    match t with
    | .proc p => Cpus.yield p
    | .sched _ => [.dead]
  | .sleep l =>
    match t with
    | .proc p => Cpus.sleep p l
    | .sched _ => [.dead]
  | .exit l =>
    match t with
    | .proc p => Cpus.exit p l
    | .sched _ => [.dead]

/-! ## Steps -/

namespace State
variable (s : State T C)

@[simps] def setSlot (p : T) (x : Slot) : State T C := { s with slot := Function.update s.slot p x }

@[simps] def setCpu (c : C) (x : Cpu T) : State T C := { s with cpu := Function.update s.cpu c x }

@[simps] def setHolder (l : Lock T) (o : Option C) : State T C :=
  { s with holder := Function.update s.holder l o }

@[simps] def setThread (t : Thread T C) (x : Local T) : State T C :=
  { s with thread := Function.update s.thread t x }

def cur (c : C) : Thread T C :=
  match (s.cpu c).running with
  | some p => .proc p
  | none => .sched c

def advance (t : Thread T C) (i : Instr T) (r : List (Instr T)) : State T C :=
  s.setThread t ⟨r, ((s.thread t).pt.after t i).getD (s.thread t).pt⟩

def setCode (t : Thread T C) (code : List (Instr T)) : State T C :=
  s.setThread t ⟨code, (s.thread t).pt⟩

end State

def parked (p : T) (en irq : Bool) : Point T := ⟨[.proc p], 1, .run, en, irq⟩

def visitSlot (q : T) (v : Visit) (s : State T C) : State T C :=
  match v, (s.slot q).state with
  | .wake, .sleeping => s.setSlot q { s.slot q with state := .runnable }
  | .alloc, .unused =>
    (s.setSlot q ⟨.used, .fresh⟩).setThread (.proc q) ⟨forkret q, parked q false false⟩
  | .ready, .used => s.setSlot q { s.slot q with state := .runnable }
  | .free, .zombie | .free, .used => s.setSlot q { s.slot q with state := .unused }
  | _, _ => s

def popOff (c : C) (s : State T C) : Outcome (State T C) Panic Unit :=
  if (s.cpu c).intr then .panic .popOffInterruptible
  else if (s.cpu c).noff < 1 then .panic .popOff
  else .ok () (s.setCpu c { s.cpu c with
    noff := (s.cpu c).noff - 1
    intr := decide ((s.cpu c).noff - 1 = 0) && (s.cpu c).intena })

/-- The tests of `sched`. -/
def schedTests (c : C) (p : T) (s : State T C) : Option Panic :=
  if s.holder (.proc p) ≠ some c then some .schedLock
  else if (s.cpu c).noff ≠ 1 then some .schedLocks
  else if (s.slot p).state = .running then some .schedRunning
  else if (s.cpu c).intr then some .schedInterruptible
  else none

/-- CPU `c` goes on with its scheduler, which finds `intena` as the process leaves it. -/
def toScheduler (c : C) (s : State T C) : State T C :=
  (s.setCpu c { s.cpu c with running := none }).setThread (.sched c)
    { s.thread (.sched c) with
      pt := { (s.thread (.sched c)).pt with en := (s.cpu c).intena } }

/-- CPU `c` goes on with process `q`. A new one finds `intena` as the scheduler leaves it. -/
def toProcess (c : C) (q : T) (s : State T C) : State T C :=
  let s' := (s.setCpu c { s.cpu c with running := some q }).setSlot q { s.slot q with ctx := .torn }
  s'.setThread (.proc q) { s.thread (.proc q) with
    pt := { (s.thread (.proc q)).pt with
      en := if (s.slot q).ctx = .fresh then (s.cpu c).intena else (s.thread (.proc q)).pt.en } }

/-- Thread `t` on CPU `c` does instruction `i`, and `r` is left. -/
def exec (c : C) (t : Thread T C) (r : List (Instr T)) (s : State T C) :
    Instr T → Outcome (State T C) Panic Unit
  | .intr b => .ok () ((s.setCpu c { s.cpu c with intr := b }).advance t (.intr b) r)
  | .sret => .ok () ((s.setCpu c { s.cpu c with intr := true }).advance t .sret r)
  | .push => .ok () (s.setCode t (.off (s.cpu c).intr :: r))
  | .off old =>
    .ok () ((s.setCpu c { s.cpu c with
      intr := false
      intena := if (s.cpu c).noff = 0 then old else (s.cpu c).intena
      noff := (s.cpu c).noff + 1 }).advance t (.off old) r)
  | .pop =>
    match popOff c s with
    | .ok _ s' => .ok () (s'.advance t .pop r)
    | .panic e => .panic e
    | .blocked => .blocked
  | .take l =>
    match s.holder l with
    | none => .ok () ((s.setHolder l (some c)).advance t (.take l) r)
    | some c' => if c' = c then .panic .acquire else .blocked
  | .drop l =>
    if s.holder l = some c then .ok () ((s.setHolder l none).advance t (.drop l) r)
    else .panic .release
  | .myproc =>
    if t.lock.isSome ∧ (s.cpu c).proc.map .proc = t.lock then .ok () (s.advance t .myproc r)
    else .panic .noProc
  | .visit q v => .ok () ((visitSlot q v s).advance t (.visit q v) r)
  | .setState st =>
    match (s.cpu c).proc with
    | some p => .ok () ((s.setSlot p { s.slot p with state := st }).advance t (.setState st) r)
    | none => .panic .noProc
  | .sched =>
    match (s.cpu c).proc with
    | some p =>
      match schedTests c p s with
      | none => .ok () (s.setCode t (.save (s.cpu c).intena :: r))
      | some e => .panic e
    | none => .panic .noProc
  | .save b =>
    match (s.cpu c).proc with
    | some p => .ok () ((s.setSlot p { s.slot p with ctx := .saved }).setCode t (.jump b :: r))
    | none => .panic .noProc
  | .jump b => .ok () (toScheduler c (s.advance t (.jump b) (.restore b :: r)))
  | .restore b => .ok () ((s.setCpu c { s.cpu c with intena := b }).advance t (.restore b) r)
  | .dead => .panic .zombieExit
  | .scan [] => .ok () (s.setCode t [])
  | .scan (q :: qs) => .ok () (s.setCode t (acquire (.proc q) ++ [.pick q qs]))
  | .pick q qs =>
    if (s.slot q).state = .runnable then
      .ok () (((s.setSlot q { s.slot q with state := .running }).setCpu c
        { s.cpu c with proc := some q }).setCode t [.load q qs])
    else .ok () (s.setCode t (release (.proc q) ++ [.scan qs]))
  | .load q qs =>
    if (s.slot q).ctx = .torn then .panic .badContext
    else .ok () (toProcess c q (s.setCode t [.clear q qs]))
  | .clear q qs =>
    .ok () ((s.setCpu c { s.cpu c with proc := none }).setCode t (release (.proc q) ++ [.scan qs]))

/-- A thread with nothing left to do begins some kernel code, or once more the loop of `scheduler`;
an interrupt comes; or a CPU does the next instruction. -/
inductive Label (T C : Type) where
  | code (c : C) (ops : List (Op T))
  | loop (c : C) (qs : List T)
  | irq (c : C) (ops : List (Op T))
  | step (c : C)

def begin (t : Thread T C) (code : List (Instr T)) (s : State T C) :
    Outcome (State T C) Panic Unit :=
  if (s.thread t).code.isEmpty && (s.thread t).pt.fits t code then .ok () (s.setCode t code)
  else .blocked

/-- The handler, the return from it, and then what the thread was about to do. -/
def interrupt (c : C) (t : Thread T C) (code : List (Instr T)) (s : State T C) :
    Outcome (State T C) Panic Unit :=
  if (s.cpu c).intr && { (s.thread t).pt with irq := true }.fits t (code ++ [Instr.sret]) then
    .ok () ((s.setCpu c { s.cpu c with intr := false }).setThread t
      ⟨code ++ .sret :: (s.thread t).code, { (s.thread t).pt with irq := true }⟩)
  else .blocked

def step (s : State T C) : Label T C → Outcome (State T C) Panic Unit
  | .code c ops =>
    match s.cur c with
    | .proc p => begin (.proc p) (ops.flatMap (Op.code (.proc p : Thread T C))) s
    | .sched _ => .blocked
  | .loop c qs =>
    match s.cur c with
    | .proc _ => .blocked
    | .sched c => begin (.sched c) [.intr true, .scan qs] s
  | .irq c ops => interrupt c (s.cur c) (ops.flatMap (Op.code (s.cur c))) s
  | .step c =>
    match (s.thread (s.cur c)).code with
    | [] => .blocked
    | i :: r => exec c (s.cur c) r s i

def Step (s : State T C) (l : Option (Label T C)) (s' : State T C) : Prop :=
  ∃ l', l = some l' ∧ step s l' = .ok () s'

/-- Every CPU in its scheduler, and `init` to be run. -/
def boot (ini : T) (C : Type) : State T C where
  slot p := if p = ini then ⟨.runnable, .fresh⟩ else ⟨.unused, .torn⟩
  cpu := fun _ => ⟨none, 0, false, false, none⟩
  holder := fun _ => none
  thread
    | .proc p => ⟨forkret p, parked p false false⟩
    | .sched _ => ⟨[], ⟨[], 0, .run, false, false⟩⟩

end Xv6.Cpus
