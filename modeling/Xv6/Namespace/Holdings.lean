import Xv6.Foundation.Counting
import Xv6.Foundation.Holdings
import Xv6.Namespace.Calls

/-!
# What system calls hold

Notes beside the kernel record which inode pointers a call in progress holds in its local
variables, which operations it has begun, and the descriptors it started with; no action reads
them. The ghost value of a process says the same and more, and the tables of the kernel are
related to the ghost values of all processes.
-/

namespace Xv6.Namespace

open Xv6.Foundation

set_option autoImplicit false

/-! ## Notes -/

/-- `ptrs` are the inode pointers of the call in progress that are counted in `ref`, `ops` how many
of its `begin_op` are not matched by an `end_op` yet, `start` its descriptors when it began, and
`gave` whether it has given some to another process. -/
structure Notes (P : Type) where
  ptrs : P → List Slot
  ops : P → Nat
  start : P → Table
  gave : P → Bool

structure World (P : Type) where
  kernel : Kernel P
  notes : Notes P

section Machine
variable {P : Type} [DecidableEq P]

namespace Notes
variable (n : Notes P) (p : P)

@[simps] def push (s : Slot) : Notes P :=
  { n with ptrs := Function.update n.ptrs p (s :: n.ptrs p) }

@[simps] def pop (s : Slot) : Notes P :=
  { n with ptrs := Function.update n.ptrs p ((n.ptrs p).erase s) }

@[simps] def setOps (m : Nat) : Notes P := { n with ops := Function.update n.ops p m }

@[simps] def begin (t : Table) : Notes P :=
  { n with
    start := Function.update n.start p t
    gave := Function.update n.gave p false }

@[simps] def give : Notes P := { n with gave := Function.update n.gave p true }

/-- The notes after an action of `p` that answered. A pointer is obtained by `iget`,
by `idup` and from a file that is closed, and given up by `iput` or by storing it. -/
def after : (a : Act P) → a.Resp → Notes P
  | .beginOp, _ => n.setOps p (n.ops p + 1)
  | .endOp, _ => n.setOps p (n.ops p - 1)
  | .iget _, s => n.push p s
  | .idupCwd, s => n.push p s
  | .takeCwd, s => n.push p s
  | .setCwd s, _ => n.pop p s
  | .iputTest _, true => n
  | .iputTest s, false => n.pop p s
  | .unref s, _ => n.pop p s
  | .setFile _ s _, _ => n.pop p s
  | .dropFile _, some ff => if ff.type = .inode ∨ ff.type = .device then n.push p ff.ip else n
  | .forkFd _ _, _ => n.give p
  | .forkCwd _, _ => n.give p
  | _, _ => n

end Notes

def exec (p : P) (a : Act P) (w : World P) : Outcome (World P) Panic a.Resp :=
  match w.kernel.exec p a with
  | .ok r k => .ok r ⟨k, w.notes.after p a r⟩
  | .panic e => .panic e
  | .blocked => .blocked

theorem exec_eq_ok {p : P} {a : Act P} {w w' : World P} {r : a.Resp} (h : exec p a w = .ok r w') :
    ∃ k, w.kernel.exec p a = .ok r k ∧ w' = ⟨k, w.notes.after p a r⟩ := by
  unfold exec at h
  split at h
  · rename_i r' k hk
    obtain ⟨rfl, rfl⟩ := Outcome.ok.inj h
    exact ⟨k, hk, rfl⟩
  · cases h
  · cases h

/-- Only a running process makes calls. -/
def enter (p : P) (w : World P) : Option (World P) :=
  if w.kernel.state p = .running then some ⟨w.kernel, w.notes.begin p (w.kernel.ofile p)⟩ else none

/-- The kernel as a machine: any number of processes, each in one call at a time. -/
def machine (P : Type) [DecidableEq P] (ninodes : Nat) :
    Machine P (Act P) Act.Resp (World P) Panic (Call P) Int where
  exec := exec
  enter := enter
  prog := Call.prog ninodes

end Machine

abbrev System (P : Type) := Sys P (Act P) Act.Resp (World P) Panic Int

end Xv6.Namespace
