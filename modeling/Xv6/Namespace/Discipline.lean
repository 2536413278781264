import Xv6.Namespace.Cache
import Xv6.Namespace.Ftable

/-!
# The discipline of system calls

The ghost value of a process, the invariant that relates the kernel to the ghost values, and the
program logic over them. If `g` holds, the actions of all processes are assumed to meet `Guard`,
and then every inode that a commit finds allocated has a link.
-/

namespace Xv6.Namespace

open Xv6.Foundation

set_option autoImplicit false

/-- What a process knows about itself. Between two calls it knows nothing of its descriptors unless
it is `active`, that is, once it has made a call and as long as it has not exited. `pend` is a
descriptor that is set, but whose file does not count it (not yet, or not any more); `child` the
process it makes in `fork`, with the number of descriptors and directories it has copied. -/
structure Own (P : Type) where
  active : Bool
  table : Table
  pend : Option (Fd × FileId)
  start : Table
  gave : Bool
  cwd : Option Slot
  child : Option (P × Nat)

def Own.ofile {P : Type} (o : Own P) : Table :=
  match o.pend with
  | none => o.table
  | some (fd, f) => Function.update o.table fd (some f)

/-- What a process holds: an operation, an inode it has allocated and not yet locked, inode
pointers, references to files in local variables, ends and pages of pipes to be closed and freed,
and files without a type. -/
structure Hold (P : Type) where
  own : Own P
  inOp : Bool
  fresh : Option Nat
  inodes : Multiset Pointer
  files : Multiset FileId
  pages : Multiset PipeTask
  news : Multiset FileId

variable {P : Type}

structure Procs (state : P → ProcState P) (cwd : P → Option Slot) (ofile : P → Table)
    (start : P → Table) (gave : P → Bool) (own : P → Own P) : Prop where
  active : ∀ p, (own p).active → state p = .running ∧ ofile p = (own p).ofile ∧
    cwd p = (own p).cwd ∧ start p = (own p).start ∧ gave p = (own p).gave ∧
    ∀ x ∈ (own p).pend, (own p).table x.1 = none
  child : ∀ p q m, (own p).child = some (q, m) → state q = .used p ∧
    (∀ fd : Fd, m ≤ fd.val → ofile q fd = none) ∧ (m ≤ NOFILE → cwd q = none)
  empty : ∀ q, state q = .unused ∨ state q = .zombie → (∀ fd, ofile q fd = none) ∧ cwd q = none

variable [Fintype P]

structure Ops (g : Prop) (outstanding : Nat) (committed : Nat → DInode) (ops : P → Nat)
    (inOp : P → Bool) (fresh : P → Option Nat) : Prop where
  outstanding : outstanding = ∑ p, (inOp p).toNat
  ops : ∀ p, ops p = (inOp p).toNat
  fresh : ∀ p, fresh p ≠ none → inOp p
  committed : g → ∀ i, (committed i).type ≠ none → 0 < (committed i).nlink ∧
    (committed i).nlink < 2 ^ 15

/-- The descriptors that the files count. -/
def tables (ofile : P → Table) (own : P → Own P) (p : P) : Table :=
  if (own p).active then (own p).table else ofile p

variable [DecidableEq P]

/-- The pointers of working directories and open files. -/
def uses (k : Kernel P) (s : Slot) : Nat := cwds k.cwd s + opens k.file s

structure Inv (g : Prop) (w : World P) (ls : P → Hold P) : Prop where
  itable : Itable w.kernel.inode (uses w.kernel) w.notes.ptrs (gather fun p => (ls p).inodes)
  cache : Cache g w.kernel.inode w.kernel.disk (gather fun p => (ls p).inodes)
    fun p => (ls p).fresh
  ftable : Ftable w.kernel.file (tables w.kernel.ofile fun p => (ls p).own)
    (gather fun p => (ls p).files) fun p => (ls p).news
  vias : Vias w.kernel.file (tables w.kernel.ofile fun p => (ls p).own)
    (gather fun p => (ls p).inodes)
  pages : Pages w.kernel.file w.kernel.pipe (gather fun p => (ls p).pages)
  procs : Procs w.kernel.state w.kernel.cwd w.kernel.ofile w.notes.start w.notes.gave
    fun p => (ls p).own
  ops : Ops g w.kernel.outstanding w.kernel.committed w.notes.ops (fun p => (ls p).inOp)
    fun p => (ls p).fresh

/-- The conditions under which no inode without links is committed: a commit finds none in the
table, `iput` does not drop the last reference to one that was allocated again meanwhile, and link
counts do not overflow. -/
def Guard : Act P → World P → Prop
  | .endOp, w => w.kernel.outstanding = 1 → ∀ s, 0 < (w.kernel.inode s).ref →
      (w.kernel.inode s).valid → (w.kernel.inode s).din.nlink ≠ 0
  | .unref s, w => (w.kernel.inode s).ref = 1 → (w.kernel.inode s).valid →
      (w.kernel.inode s).din.nlink ≠ 0
  | .incNlink s, w => (w.kernel.inode s).din.nlink + 1 < 2 ^ 15
  | .decNlink s, w => 0 < (w.kernel.inode s).din.nlink
  | _, _ => True

/-- What every action meets: `iput` finds the lock of its last reference free, operations are not
nested and end once, and only the page of a pipe with both ends closed is freed. -/
def Safe (p : P) : Act P → World P → Prop
  | .iputTest s, w => (w.kernel.inode s).ref = 1 → (w.kernel.inode s).lock = none
  | .beginOp, w => w.notes.ops p = 0
  | .endOp, w => w.notes.ops p = 1
  | .kfree page, w => (w.kernel.pipe page).live ∧ (w.kernel.pipe page).readopen = false ∧
      (w.kernel.pipe page).writeopen = false ∧
      ∀ f, (w.kernel.file f).type = .pipe → (w.kernel.file f).pipe ≠ page
  | _, _ => True

/-- A call leaves nothing behind, and the descriptors as they were if it fails. -/
def Done (r : Int) (l : Hold P) : Prop :=
  l.inodes = 0 ∧ l.files = 0 ∧ l.pages = 0 ∧ l.news = 0 ∧ l.inOp = false ∧
    l.own.child = none ∧ (l.own.active → l.own.pend = none) ∧
      (r = -1 → l.own.active ∧ l.own.table = l.own.start ∧ l.own.gave = false)

def discipline (g : Prop) (P : Type) [Fintype P] [DecidableEq P] (ninodes : Nat) :
    Logic (machine P ninodes) (Hold P) where
  guard _ a w := g → Guard a w
  inv := Inv g
  safe := Safe
  stops _ := True
  done _ := Done

section
variable {g : Prop} {ninodes : Nat} {p : P} {l : Hold P} {w : World P} {ls : P → Hold P}

theorem after_of_exec {a : Act P} {Q : a.Resp → Hold P → Prop} (hs : Safe p a w)
    (h : ∀ r k, w.kernel.exec p a = .ok r k →
      ∃ l, Inv g ⟨k, w.notes.after p a r⟩ (Function.update ls p l) ∧ Q r l) :
    (discipline g P ninodes).After p a Q w ls := by
  refine ⟨hs, ?_⟩
  simp only [machine, exec]
  cases he : w.kernel.exec p a with
  | ok r k => exact h r k he
  | panic e => trivial
  | blocked => trivial

theorem wp_exec {a : Act P} {Q : a.Resp → Hold P → Prop} (hs : ∀ w, Safe p a w)
    (h : ∀ w ls, Inv g w ls → ls p = l → ∀ r k, w.kernel.exec p a = .ok r k →
      ∃ l', Inv g ⟨k, w.notes.after p a r⟩ (Function.update ls p l') ∧ Q r l') :
    (discipline g P ninodes).wp p (act a) l Q :=
  Logic.wp_lift fun w ls hi hl _ => after_of_exec (hs w) (h w ls hi hl)

theorem Inv.keep (hi : Inv g w ls) : Inv g w (Function.update ls p (ls p)) := by
  rw [Function.update_eq_self]
  exact hi

end

end Xv6.Namespace
