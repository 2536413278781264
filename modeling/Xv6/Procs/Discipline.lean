import Mathlib.Data.Finset.Basic
import Mathlib.Tactic.Simps.Basic
import Xv6.Foundation.Holdings
import Xv6.Procs.Model

/-!
# The discipline of the process table

What a process knows while it is in a call, and the invariant that relates it to the table. Facts
about parents and about ZOMBIE children are good for as long as `wait_lock` is held.
-/

namespace Xv6.Procs

open Xv6.Foundation Function

set_option autoImplicit false

/-- What a process knows of its own slot. -/
inductive Me where
  | idle
  | running
  | parked
  | gone
  deriving DecidableEq

/-- A ZOMBIE child that `wait` has found, with what it has read of it. -/
structure Prey (n : Nat) where
  slot : Fin n
  pid : Option Int
  status : Option Int

/-- What the holder of `wait_lock` knows: slots that are not its children, or not ZOMBIE children;
processes that are not asleep in `wait`; a child; its parent; a ZOMBIE child; and that it is giving
its children to `init`. -/
structure Facts (n : Nat) where
  barren : Finset (Fin n)
  seen : Finset (Fin n)
  awake : Finset (Fin n)
  kid : Option (Fin n)
  father : Option (Fin n)
  prey : Option (Prey n)
  leaving : Bool

def Facts.none {n : Nat} : Facts n := ⟨∅, ∅, ∅, .none, .none, .none, false⟩

/-- What is known after `q->parent = initproc`. -/
def Facts.give {n : Nat} (f : Facts n) (ini q : Fin n) : Facts n :=
  { f with
    barren := insert q f.barren
    awake := f.awake.erase ini
    kid := .none
    leaving := true }

/-- `nap` is set from the release of `wait_lock` in `sleep` until the process runs again; `child` is
the slot that `fork` is filling, with whether its parent is set; `probe` that `killed` was found to be
0 and a `sleep` follows; `doomed` that it was found to be 1. -/
structure Hold (n : Nat) where
  locks : Finset (Lock n)
  me : Me
  nap : Bool
  child : Option (Fin n × Bool)
  facts : Facts n
  probe : Bool
  doomed : Bool

variable {n : Nat}

namespace Hold

def idle : Hold n := ⟨∅, .idle, false, none, .none, false, false⟩

/-- In user code, or at the begin of a call. -/
def base : Hold n := ⟨∅, .running, false, none, .none, false, false⟩

variable (l : Hold n)

def Rest : Prop := l = .idle ∨ ∃ d, l = { Hold.base with doomed := d }

theorem rest_base : (base : Hold n).Rest := Or.inr ⟨false, rfl⟩

@[simps] def lock (lk : Lock n) : Hold n := { l with locks := insert lk l.locks }

@[simps] def unlock (lk : Lock n) : Hold n := { l with locks := l.locks.erase lk }

@[simps] def know (f : Facts n) : Hold n := { l with facts := f }

@[simp] theorem unlock_lock {lk : Lock n} (h : lk ∉ l.locks) : (l.lock lk).unlock lk = l := by
  simp [lock, unlock, Finset.erase_insert h]

end Hold

/-! ## What a history says -/

/-- The pid and status of an exit that has not been reaped. -/
def lastExit (q : Fin n) : List (Event n) → Option (Int × Int)
  | [] => none
  | .exited r pid status :: t => if r = q then some (pid, status) else lastExit q t
  | .waited _ (.reaped r _ _) :: t => if r = q then none else lastExit q t
  | _ :: t => lastExit q t

/-- The process that forked `q`, or `init` if that one has exited since. -/
def parentOf (ini q : Fin n) : List (Event n) → Option (Fin n)
  | [] => none
  | .forked p r :: t => if r = q then some p else parentOf ini q t
  | .exited r _ _ :: t => if parentOf ini q t = some r then some ini else parentOf ini q t
  | _ :: t => parentOf ini q t

/-- `kill` or an unexpected trap has struck `q` since its slot was allocated. -/
def struckOf (q : Fin n) : List (Event n) → Bool
  | [] => false
  | .struck r :: t => if r = q then true else struckOf q t
  | .allocated r _ :: t => if r = q then false else struckOf q t
  | _ :: t => struckOf q t

/-- A slot is not allocated, and its process does not exit, while an exit is not reaped; and each
successful `wait` returned a child of the caller that had exited and was not reaped yet, with its pid
and, if asked for, its status. -/
def Valid (ini : Fin n) : List (Event n) → Prop
  | [] => True
  | .waited p (.reaped q pid status) :: t =>
    (∃ x, lastExit q t = some (pid, x) ∧ ∀ v ∈ status, v = x) ∧ parentOf ini q t = some p ∧
      Valid ini t
  | .allocated q _ :: t => lastExit q t = none ∧ Valid ini t
  | .exited q _ _ :: t => lastExit q t = none ∧ Valid ini t
  | _ :: t => Valid ini t

/-! ## The invariant -/

def ProcState.Active (st : ProcState) : Prop := st = .running ∨ st = .runnable ∨ st = .sleeping

def ProcState.Live (st : ProcState) : Prop := st.Active ∨ st = .zombie

structure Locks (holder : Lock n → Option (Fin n)) (locks : Fin n → Finset (Lock n)) : Prop where
  iff : ∀ l p, holder l = some p ↔ l ∈ locks p

def Stage (locks : Finset (Lock n)) (p : Fin n) (st : ProcState) : Me → Prop
  | .idle => st ≠ .sleeping
  | .running => st = .running
  | .parked => st = .sleeping ∨ st = .runnable
  | .gone => st = .zombie ∧ .proc p ∈ locks

structure Own (state : Fin n → ProcState) (locks : Fin n → Finset (Lock n)) (me : Fin n → Me)
    (child : Fin n → Option (Fin n × Bool)) : Prop where
  stage : ∀ p, Stage (locks p) p (state p) (me p)
  fresh : ∀ p q b, child p = some (q, b) → me p = .running ∧ state q = .used
  sole : ∀ p p' q b b', child p = some (q, b) → child p' = some (q, b') → p = p'

structure Kin (ini : Fin n) (state : Fin n → ProcState) (parent : Fin n → Option (Fin n))
    (child : Fin n → Option (Fin n × Bool)) : Prop where
  unused : ∀ q, state q = .unused → parent q = none
  live : ∀ q, (state q).Live → q ≠ ini → parent q ≠ none
  active : ∀ q r, parent q = some r → (state r).Active
  init : (state ini).Active
  fresh : ∀ p q b, child p = some (q, b) → parent q = if b then some p else none

/-- The facts of `p` are true. -/
structure Facts.Good (state : Fin n → ProcState) (parent : Fin n → Option (Fin n))
    (pid xstate : Fin n → Int) (locks : Finset (Lock n)) (p : Fin n) (f : Facts n) : Prop where
  barren : ∀ q ∈ f.barren, parent q ≠ some p
  seen : ∀ q ∈ f.seen, parent q = some p → state q ≠ .zombie
  kid : ∀ q ∈ f.kid, parent q = some p
  father : ∀ r ∈ f.father, parent p = some r
  prey : ∀ x ∈ f.prey, .proc x.slot ∈ locks ∧ state x.slot = .zombie ∧ parent x.slot = some p ∧
    (∀ v ∈ x.pid, pid x.slot = v) ∧ ∀ v ∈ x.status, xstate x.slot = v

structure Watch (state : Fin n → ProcState) (parent : Fin n → Option (Fin n)) (pid xstate : Fin n → Int)
    (locks : Fin n → Finset (Lock n)) (facts : Fin n → Facts n) : Prop where
  none : ∀ p, .wait ∉ locks p → facts p = .none
  good : ∀ p, (facts p).Good state parent pid xstate (locks p) p

/-- A process in `wait` does not sleep while it has a ZOMBIE child, apart from `init` between a
`p->parent = initproc` and the `wakeup` after it. -/
structure Naps (ini : Fin n) (state : Fin n → ProcState) (chan : Fin n → Option (Chan n))
    (parent : Fin n → Option (Fin n)) (locks : Fin n → Finset (Lock n)) (nap : Fin n → Bool)
    (facts : Fin n → Facts n) : Prop where
  drowsy : ∀ p, nap p = true → state p = .running → .proc p ∈ locks p
  active : ∀ p, nap p = true → (state p).Active
  channel : ∀ p, nap p = true → state p = .sleeping → chan p = some (.proc p)
  named : ∀ p, state p = .sleeping → chan p = some (.proc p) → nap p = true
  quiet : ∀ p q, nap p = true → state p ≠ .runnable → parent q = some p → state q = .zombie →
    p = ini ∧ ∃ e, (facts e).leaving = true ∧ ini ∉ (facts e).awake
  awake : ∀ e, ∀ r ∈ (facts e).awake, nap r = true → state r = .runnable

structure Story (ini : Fin n) (state : Fin n → ProcState) (pid xstate : Fin n → Int)
    (parent : Fin n → Option (Fin n)) (log : List (Event n)) (facts : Fin n → Facts n) : Prop where
  zombie : ∀ q, state q = .zombie → lastExit q log = some (pid q, xstate q)
  exited : ∀ q, lastExit q log ≠ none → state q = .zombie
  origin : ∀ q r, parent q = some r → parentOf ini q log = some r ∨
    r = ini ∧ ∃ e, (facts e).leaving = true ∧ parentOf ini q log = some e
  valid : Valid ini log

structure Kills (g : Prop) (state : Fin n → ProcState) (pid : Fin n → Int) (killed : Fin n → Bool)
    (log : List (Event n)) (me : Fin n → Me) (doomed : Fin n → Bool) : Prop where
  zero : ∀ q, state q = .unused → pid q = 0
  clean : g → ∀ q, state q = .unused → killed q = false
  struck : g → ∀ q, killed q = true → struckOf q log = true
  told : ∀ q, state q ≠ .unused → struckOf q log = true → killed q = true
  doomed : ∀ p, doomed p = true → killed p = true ∧ me p = .running

structure Tests (g : Prop) (state : Fin n → ProcState) (killed loop testing : Fin n → Bool)
    (me : Fin n → Me) (probe : Fin n → Bool) : Prop where
  test : ∀ p, testing p = probe p
  running : ∀ p, probe p = true → me p = .running
  clear : g → ∀ p, testing p = true → killed p = false
  asleep : g → ∀ p, state p = .sleeping → loop p = true → killed p = false

/-- `nz` stands for "no `kill(0)`", `calm` for "no `kill` strikes between a test and the `sleep` after
it". -/
structure Inv (nz calm : Prop) (ini : Fin n) (k : Kernel n) (ls : Fin n → Hold n) : Prop where
  locks : Locks k.holder fun p => (ls p).locks
  own : Own (fun q => (k.proc q).state) (fun p => (ls p).locks) (fun p => (ls p).me)
    fun p => (ls p).child
  kin : Kin ini (fun q => (k.proc q).state) (fun q => (k.proc q).parent) fun p => (ls p).child
  watch : Watch (fun q => (k.proc q).state) (fun q => (k.proc q).parent) (fun q => (k.proc q).pid)
    (fun q => (k.proc q).xstate) (fun p => (ls p).locks) fun p => (ls p).facts
  naps : Naps ini (fun q => (k.proc q).state) (fun q => (k.proc q).chan)
    (fun q => (k.proc q).parent) (fun p => (ls p).locks) (fun p => (ls p).nap)
    fun p => (ls p).facts
  story : Story ini (fun q => (k.proc q).state) (fun q => (k.proc q).pid)
    (fun q => (k.proc q).xstate) (fun q => (k.proc q).parent) k.log fun p => (ls p).facts
  kills : Kills nz (fun q => (k.proc q).state) (fun q => (k.proc q).pid)
    (fun q => (k.proc q).killed) k.log (fun p => (ls p).me) fun p => (ls p).doomed
  tests : Tests calm (fun q => (k.proc q).state) (fun q => (k.proc q).killed) k.loop k.testing
    (fun p => (ls p).me) fun p => (ls p).probe

def Guard (nz calm : Prop) : Act n → Kernel n → Prop
  | .killSlot q pid, k => (nz → pid ≠ 0) ∧ (calm → (k.proc q).pid = pid → k.testing q = false)
  | _, _ => True

/-- What a `wait` that returns -1 has found. -/
def Safe (p : Fin n) : Act n → Kernel n → Prop
  | .report .childless, k => ∀ q, (k.proc q).parent ≠ some p
  | .report .killed, k => (k.proc p).killed = true
  | _, _ => True

def discipline (nz calm : Prop) (ini : Fin n) : Logic (machine ini) (Hold n) where
  guard _ a k := Guard nz calm a k
  inv := Inv nz calm ini
  safe := Safe
  stops _ := True
  done _ _ l := l.Rest

/-- `Safe`, and a pid is read only of a slot that is in use. -/
def Orderly (p : Fin n) : Act n → Kernel n → Prop
  | .getPid q, k => (k.proc q).state ≠ .unused
  | a, k => Safe p a k

theorem Orderly.safe {p : Fin n} {a : Act n} {k : Kernel n} (h : Orderly p a k) : Safe p a k := by
  cases a with
  | getPid q => trivial
  | _ => exact h

/-- The discipline, with more to meet. -/
def rules (nz calm : Prop) (ini : Fin n) : Logic (machine ini) (Hold n) :=
  { discipline nz calm ini with safe := Orderly }

theorem Inv.of_update_proc {nz calm : Prop} {ini p : Fin n} {k : Kernel n} {ls : Fin n → Hold n}
    {l : Hold n} {f : Fin n → Proc n} {q : Fin n} {x : Proc n} (hproc : k.proc = update f q x)
    (locks : Locks k.holder (update (fun q => (ls q).locks) p l.locks))
    (own : Own (update (fun r => (f r).state) q x.state) (update (fun q => (ls q).locks) p l.locks)
      (update (fun q => (ls q).me) p l.me)
      (update (fun q => (ls q).child) p l.child))
    (kin : Kin ini (update (fun r => (f r).state) q x.state) (update (fun r => (f r).parent) q x.parent)
      (update (fun q => (ls q).child) p l.child))
    (watch : Watch (update (fun r => (f r).state) q x.state) (update (fun r => (f r).parent) q x.parent)
      (update (fun r => (f r).pid) q x.pid) (update (fun r => (f r).xstate) q x.xstate)
      (update (fun q => (ls q).locks) p l.locks)
      (update (fun q => (ls q).facts) p l.facts))
    (naps : Naps ini (update (fun r => (f r).state) q x.state) (update (fun r => (f r).chan) q x.chan)
      (update (fun r => (f r).parent) q x.parent) (update (fun q => (ls q).locks) p l.locks)
      (update (fun q => (ls q).nap) p l.nap)
      (update (fun q => (ls q).facts) p l.facts))
    (story : Story ini (update (fun r => (f r).state) q x.state) (update (fun r => (f r).pid) q x.pid)
      (update (fun r => (f r).xstate) q x.xstate) (update (fun r => (f r).parent) q x.parent) k.log
      (update (fun q => (ls q).facts) p l.facts))
    (kills : Kills nz (update (fun r => (f r).state) q x.state) (update (fun r => (f r).pid) q x.pid)
      (update (fun r => (f r).killed) q x.killed) k.log (update (fun q => (ls q).me) p l.me)
      (update (fun q => (ls q).doomed) p l.doomed))
    (tests : Tests calm (update (fun r => (f r).state) q x.state) (update (fun r => (f r).killed) q x.killed) k.loop k.testing
      (update (fun q => (ls q).me) p l.me)
      (update (fun q => (ls q).probe) p l.probe)) :
    Inv nz calm ini k (update ls p l) := by
  simp only [← field_update] at locks own kin watch naps story kills tests
  rw [← hproc] at own kin watch naps story kills tests
  exact ⟨locks, own, kin, watch, naps, story, kills, tests⟩

theorem Inv.of_update {nz calm : Prop} {ini p : Fin n} {k : Kernel n} {ls : Fin n → Hold n}
    {l : Hold n} (locks : Locks k.holder (update (fun q => (ls q).locks) p l.locks))
    (own : Own (fun q => (k.proc q).state) (update (fun q => (ls q).locks) p l.locks)
      (update (fun q => (ls q).me) p l.me)
      (update (fun q => (ls q).child) p l.child))
    (kin : Kin ini (fun q => (k.proc q).state) (fun q => (k.proc q).parent)
      (update (fun q => (ls q).child) p l.child))
    (watch : Watch (fun q => (k.proc q).state) (fun q => (k.proc q).parent)
      (fun q => (k.proc q).pid) (fun q => (k.proc q).xstate)
      (update (fun q => (ls q).locks) p l.locks)
      (update (fun q => (ls q).facts) p l.facts))
    (naps : Naps ini (fun q => (k.proc q).state) (fun q => (k.proc q).chan)
      (fun q => (k.proc q).parent) (update (fun q => (ls q).locks) p l.locks)
      (update (fun q => (ls q).nap) p l.nap)
      (update (fun q => (ls q).facts) p l.facts))
    (story : Story ini (fun q => (k.proc q).state) (fun q => (k.proc q).pid)
      (fun q => (k.proc q).xstate) (fun q => (k.proc q).parent) k.log
      (update (fun q => (ls q).facts) p l.facts))
    (kills : Kills nz (fun q => (k.proc q).state) (fun q => (k.proc q).pid)
      (fun q => (k.proc q).killed) k.log (update (fun q => (ls q).me) p l.me)
      (update (fun q => (ls q).doomed) p l.doomed))
    (tests : Tests calm (fun q => (k.proc q).state) (fun q => (k.proc q).killed) k.loop k.testing
      (update (fun q => (ls q).me) p l.me)
      (update (fun q => (ls q).probe) p l.probe)) :
    Inv nz calm ini k (update ls p l) := by
  simp only [← field_update] at locks own kin watch naps story kills tests
  exact ⟨locks, own, kin, watch, naps, story, kills, tests⟩

/-- To show of an action: that it is safe, and what it leaves if it answers. -/
theorem wp_act {nz calm : Prop} {ini p : Fin n} {a : Act n} {l : Hold n}
    {Q : a.Answer → Hold n → Prop}
    (h : ∀ k ls, Inv nz calm ini k ls → ls p = l → Guard nz calm a k → Orderly p a k ∧
      ∀ r k', exec ini p a k = .ok r k' →
        ∃ l', Inv nz calm ini k' (update ls p l') ∧ Q r l') :
    (rules nz calm ini).wp p (act a) l Q := by
  apply Logic.wp_lift
  intro k ls hinv hl hguard
  obtain ⟨hsafe, hok⟩ := h k ls hinv hl hguard
  refine ⟨hsafe, ?_⟩
  split
  · exact hok _ _ ‹_›
  · trivial
  · trivial

end Xv6.Procs
