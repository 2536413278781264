import Mathlib.Logic.Function.Basic
import Mathlib.Tactic.Simps.Basic
import Xv6.Foundation.Bytes
import Xv6.Foundation.Run

/-!
# The console

`consoleintr` and `consoleread` of `console.c`. The handler runs with `cons.lock` held from its first
line to its last and is one step. A reader holds the lock for several turns of its loop; each turn is
one step, so that other readers and the handler find the lock taken.
-/

namespace Xv6.Console

open Xv6.Foundation

set_option autoImplicit false

def INPUT_BUF : Nat := 128

def newline : Byte := 0x0a
def carriageReturn : Byte := 0x0d
def delete : Byte := 0x7f

/-- `C('D')`, `C('H')`, `C('P')` and `C('U')` -/
def ctrlD : Byte := 0x04
def ctrlH : Byte := 0x08
def ctrlP : Byte := 0x10
def ctrlU : Byte := 0x15

/-- `i--` for a `uint` -/
def decr (i : Nat) : Nat := if i = 0 then 2 ^ 32 - 1 else i - 1

/-- The indices are `uint`. -/
structure Cons where
  buf : Nat → Byte
  r : Nat
  w : Nat
  e : Nat

namespace Cons
variable (k : Cons)

/-- `cons.e--` -/
@[simps] def erase : Cons := { k with e := decr k.e }

/-- The loop of `C('U')`. Each turn brings `e` one step closer to `w`, so `e - w` turns are enough. -/
def killLine : Nat → Cons → Cons
  | 0, k => k
  | turns + 1, k =>
    if k.e ≠ k.w ∧ k.buf (decr k.e % INPUT_BUF) ≠ newline then
      killLine turns k.erase
    else
      k

/-- `cons.buf[cons.e++ % INPUT_BUF] = c` -/
@[simps] def store (c : Byte) : Cons :=
  { k with
    buf := Function.update k.buf (k.e % INPUT_BUF) c
    e := (k.e + 1) % 2 ^ 32 }

/-- `cons.w = cons.e` -/
@[simps] def commit : Cons := { k with w := k.e }

/-- `cons.r++` -/
@[simps] def take : Cons := { k with r := (k.r + 1) % 2 ^ 32 }

/-- `cons.r--` -/
@[simps] def putBack : Cons := { k with r := decr k.r }

end Cons

/-- The characters that end a line. -/
def endsLine (c : Byte) : Bool := c = newline ∨ c = ctrlD

/-- `(c == '\r') ? '\n' : c` -/
def translate (c : Byte) : Byte := if c = carriageReturn then newline else c

/-- `consoleintr`, and whether it calls `wakeup(&cons.r)`. -/
def consoleintr (c : Byte) (k : Cons) : Cons × Bool :=
  if c = ctrlP then
    (k, false)
  else if c = ctrlU then
    (k.killLine ((k.e + 2 ^ 32 - k.w) % 2 ^ 32), false)
  else if c = ctrlH ∨ c = delete then
    (if k.e ≠ k.w then k.erase else k, false)
  else if c ≠ 0 ∧ (k.e + 2 ^ 32 - k.r) % 2 ^ 32 < INPUT_BUF then
    let c := translate c
    let k := k.store c
    if endsLine c ∨ k.e = (k.r + INPUT_BUF) % 2 ^ 32 then (k.commit, true) else (k, false)
  else
    (k, false)

/-- Where a process is in `consoleread`, with its `n` and `target`. An `int` that is not positive
makes the call return at once, as 0 does. -/
inductive Reader where
  | idle
  | acquiring (n target : Nat)
  | looping (n target : Nat)
  | asleep (n target : Nat)
  | leaving (n target : Nat)
  | killed
  deriving DecidableEq

inductive Event (P : Type) where
  | input (c : Byte)
  | call (p : P) (n : Nat)
  | deliver (p : P) (c : Byte)
  | eof (p : P)
  | lost (p : P) (c : Byte)
  | ret (p : P) (r : Int)
  deriving DecidableEq

structure State (P : Type) where
  cons : Cons
  lock : Option P
  reader : P → Reader

def init (P : Type) (buf : Nat → Byte) : State P := ⟨⟨buf, 0, 0, 0⟩, none, fun _ => .idle⟩

section
variable {P : Type} [DecidableEq P]

namespace State
variable (s : State P)

@[simps] def set (p : P) (rd : Reader) : State P :=
  { s with reader := Function.update s.reader p rd }

@[simps] def setCons (k : Cons) : State P := { s with cons := k }

@[simps] def setLock (o : Option P) : State P := { s with lock := o }

end State

/-- `wakeup(&cons.r)`: a sleeper goes on to take `cons.lock` again. -/
def wakeup : Reader → Reader
  | .asleep n target => .acquiring n target
  | rd => rd

/-- What a turn finds: `myproc()->killed`, and whether `either_copyout` succeeds. -/
structure Env where
  killed : Bool
  mapped : Bool

/-- One turn of `while(n > 0)`. That `sleep` releases the lock and parks the process in one step is
the theorem of `Xv6.Sched`. -/
def turn (env : Env) (p : P) (n target : Nat) (s : State P) : State P × Option (Event P) :=
  if n = 0 then
    (s.set p (.leaving n target), none)
  else if s.cons.r = s.cons.w then
    if env.killed then (s.set p .killed, none)
    else ((s.set p (.asleep n target)).setLock none, none)
  else
    let c := s.cons.buf (s.cons.r % INPUT_BUF)
    let k := s.cons.take
    if c = ctrlD then
      if n < target then ((s.setCons k.putBack).set p (.leaving n target), none)
      else ((s.setCons k).set p (.leaving n target), some (.eof p))
    else if !env.mapped then
      ((s.setCons k).set p (.leaving n target), some (.lost p c))
    else if c = newline then
      ((s.setCons k).set p (.leaving (n - 1) target), some (.deliver p c))
    else
      ((s.setCons k).set p (.looping (n - 1) target), some (.deliver p c))

inductive Label (P : Type) where
  | intr (c : Byte)
  | call (p : P) (n : Nat)
  | acquire (p : P)
  | turn (p : P) (env : Env)
  | release (p : P)

def exec : Label P → State P → Option (State P × Option (Event P))
  | .intr c, s =>
    if s.lock = none then
      let r := consoleintr c s.cons
      let s := s.setCons r.1
      some (if r.2 then { s with reader := fun p => wakeup (s.reader p) } else s, some (.input c))
    else
      none
  | .call p n, s =>
    match s.reader p with
    | .idle => some (s.set p (.acquiring n n), some (.call p n))
    | _ => none
  | .acquire p, s =>
    match s.reader p with
    | .acquiring n target =>
      if s.lock = none then some ((s.set p (.looping n target)).setLock (some p), none) else none
    | _ => none
  | .turn p env, s =>
    match s.reader p with
    | .looping n target => some (turn env p n target s)
    | _ => none
  | .release p, s =>
    match s.reader p with
    | .leaving n target =>
      some ((s.set p .idle).setLock none, some (.ret p ((target : Int) - (n : Int))))
    | .killed => some ((s.set p .idle).setLock none, some (.ret p (-1)))
    | _ => none

/-- No `kill`, and every destination is mapped. -/
def Label.Quiet : Label P → Prop
  | .turn _ env => env.killed = false ∧ env.mapped = true
  | _ => True

def Step (s : State P) (e : Option (Event P)) (s' : State P) : Prop :=
  ∃ l : Label P, l.Quiet ∧ exec l s = some (s', e)

end

end Xv6.Console
