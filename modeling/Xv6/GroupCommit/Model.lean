import Mathlib.Data.Fintype.BigOperators
import Xv6.Disk.Log
import Xv6.Foundation.Run

/-!
# Group commit

Any number of processes go through `begin_op`, `log_write` and `end_op`. A step of the system is
one critical section of `log.lock`, or a whole `commit()`, so that every state here is one in
which the lock is free. `sleep(&log, &log.lock)` gives up the lock and marks the process SLEEPING
in one step: `wakeup` has to take `p->lock`, which `sleep` holds until the process is off the CPU.
-/

namespace Xv6.GroupCommit

open Xv6.Foundation Xv6.Disk

set_option autoImplicit false

/-! ## The critical sections -/

/-- One pass through the loop of `begin_op`; `none` is a call of `sleep`. -/
def beginOpPass (l : Log) : Option Log :=
  if l.committing then none
  else if LOGSIZE < l.lh.length + (l.outstanding + 1) * MAXOPBLOCKS then none
  else some { l with outstanding := l.outstanding + 1 }

/-- `log_write`, as far as `struct log` goes. -/
def logWriteSection (l : Log) (b : Nat) : Except Panic Log :=
  if LOGSIZE ≤ l.lh.length ∨ l.size - 1 ≤ l.lh.length then .error .tooBigTransaction
  else if l.outstanding < 1 then .error .logWriteOutsideOfTrans
  else .ok { l with lh := addBlock l.lh b }

/-- The first critical section of `end_op`, with the value of `do_commit`. -/
def endOpSection (l : Log) : Except Panic (Log × Bool) :=
  if l.committing then .error .logCommitting
  else if l.outstanding - 1 = 0 then
    .ok ({ l with outstanding := l.outstanding - 1, committing := true }, true)
  else .ok ({ l with outstanding := l.outstanding - 1 }, false)

/-- What `commit()` leaves in memory. -/
def commitSection (l : Log) : Log := { l with lh := [] }

/-- The second critical section of `end_op`. -/
def endOpFinish (l : Log) : Log := { l with committing := false }

theorem beginOpPass_cases (l : Log) : (beginOpPass l = none ∧ (l.committing = true ∨
      LOGSIZE < l.lh.length + (l.outstanding + 1) * MAXOPBLOCKS)) ∨
    (beginOpPass l = some { l with outstanding := l.outstanding + 1 } ∧ l.committing = false ∧
      l.lh.length + (l.outstanding + 1) * MAXOPBLOCKS ≤ LOGSIZE) := by
  by_cases hc : l.committing = true
  · exact Or.inl ⟨by rw [beginOpPass, if_pos hc], Or.inl hc⟩
  · by_cases hr : LOGSIZE < l.lh.length + (l.outstanding + 1) * MAXOPBLOCKS
    · exact Or.inl ⟨by rw [beginOpPass, if_neg hc, if_pos hr], Or.inr hr⟩
    · exact Or.inr ⟨by rw [beginOpPass, if_neg hc, if_neg hr], by simpa using hc, by omega⟩

theorem logWriteSection_cases (l : Log) (b : Nat) :
    (logWriteSection l b = .error .tooBigTransaction ∧
      (LOGSIZE ≤ l.lh.length ∨ l.size - 1 ≤ l.lh.length)) ∨
    (logWriteSection l b = .error .logWriteOutsideOfTrans ∧ l.outstanding < 1) ∨
    (logWriteSection l b = .ok { l with lh := addBlock l.lh b } ∧ l.lh.length < LOGSIZE ∧
      l.lh.length < l.size - 1 ∧ 1 ≤ l.outstanding) := by
  by_cases hb : LOGSIZE ≤ l.lh.length ∨ l.size - 1 ≤ l.lh.length
  · exact Or.inl ⟨by rw [logWriteSection, if_pos hb], hb⟩
  · by_cases ho : l.outstanding < 1
    · exact Or.inr (Or.inl ⟨by rw [logWriteSection, if_neg hb, if_pos ho], ho⟩)
    · exact Or.inr (Or.inr ⟨by rw [logWriteSection, if_neg hb, if_neg ho],
        by omega, by omega, by omega⟩)

theorem endOpSection_cases (l : Log) :
    (endOpSection l = .error .logCommitting ∧ l.committing = true) ∨
    (endOpSection l = .ok ({ l with outstanding := l.outstanding - 1, committing := true }, true) ∧
      l.committing = false ∧ l.outstanding - 1 = 0) ∨
    (endOpSection l = .ok ({ l with outstanding := l.outstanding - 1 }, false) ∧
      l.committing = false ∧ l.outstanding - 1 ≠ 0) := by
  by_cases hc : l.committing = true
  · exact Or.inl ⟨by rw [endOpSection, if_pos hc], hc⟩
  · by_cases ho : l.outstanding - 1 = 0
    · exact Or.inr (Or.inl ⟨by rw [endOpSection, if_neg hc, if_pos ho], by simpa using hc, ho⟩)
    · exact Or.inr (Or.inr ⟨by rw [endOpSection, if_neg hc, if_neg ho], by simpa using hc, ho⟩)

/-! ## The processes -/

inductive PC where
  /-- outside of any operation -/
  | out
  /-- in `begin_op`, about to take `log.lock` -/
  | begins
  /-- SLEEPING on `&log` in `begin_op` -/
  | sleeping
  /-- between `begin_op` and `end_op` -/
  | inOp
  /-- in `end_op` with `do_commit = 1`, before `commit()` -/
  | committing
  /-- in `end_op`, after `commit()` -/
  | committed
  deriving DecidableEq, Repr

variable {P : Type} [DecidableEq P]

structure Sys (P : Type) where
  log : Log
  pc : P → PC
  panicked : Option Panic

/-- What the history records: the calls, and the blocks that each `commit()` wrote. -/
inductive Event (P : Type) where
  | began (p : P)
  | logWrite (p : P) (b : Nat)
  | ended (p : P)
  | committed (p : P) (blocks : List Nat)
  deriving DecidableEq

inductive Act (P : Type) where
  | callBeginOp (p : P)
  | beginOp (p : P)
  /-- `kill` makes a sleeping process RUNNABLE; `begin_op` then takes the lock and looks again -/
  | kill (p : P)
  | logWrite (p : P) (b : Nat)
  | endOp (p : P)
  | commit (p : P)
  | finish (p : P)

def wakeup (pc : P → PC) : P → PC := fun q => if pc q = .sleeping then .begins else pc q

def Sys.goto (s : Sys P) (p : P) (c : PC) : Sys P := { s with pc := Function.update s.pc p c }

def boot (l : Log) : Sys P :=
  ⟨{ l with outstanding := 0, committing := false, lh := [] }, fun _ => .out, none⟩

/-- One step; `none` where the process is not at the action's place, or after a panic. -/
def step (s : Sys P) : Act P → Option (Sys P × Option (Event P))
  | .callBeginOp p =>
    if s.panicked = none ∧ s.pc p = .out then some (s.goto p .begins, none) else none
  | .beginOp p =>
    if s.panicked = none ∧ s.pc p = .begins then
      match beginOpPass s.log with
      | none => some (s.goto p .sleeping, none)
      | some l => some ({ s with log := l }.goto p .inOp, some (.began p))
    else none
  | .kill p =>
    if s.panicked = none ∧ s.pc p = .sleeping then some (s.goto p .begins, none) else none
  | .logWrite p b =>
    if s.panicked = none ∧ s.pc p = .inOp then
      match logWriteSection s.log b with
      | .error e => some ({ s with panicked := some e }, some (.logWrite p b))
      | .ok l => some ({ s with log := l }, some (.logWrite p b))
    else none
  | .endOp p =>
    if s.panicked = none ∧ s.pc p = .inOp then
      match endOpSection s.log with
      | .error e => some ({ s with panicked := some e }, some (.ended p))
      | .ok (l, true) => some ({ s with log := l }.goto p .committing, some (.ended p))
      | .ok (l, false) =>
        some ({ s with log := l, pc := wakeup s.pc }.goto p .out, some (.ended p))
    else none
  | .commit p =>
    if s.panicked = none ∧ s.pc p = .committing then
      some ({ s with log := commitSection s.log }.goto p .committed,
        some (.committed p s.log.lh))
    else none
  | .finish p =>
    if s.panicked = none ∧ s.pc p = .committed then
      some ({ s with log := endOpFinish s.log, pc := wakeup s.pc }.goto p .out, none)
    else none

def Step (s : Sys P) (e : Option (Event P)) (s' : Sys P) : Prop := ∃ a, step s a = some (s', e)

/-- `s` is reached from a freshly set up log with history `t`, newest event first. -/
def Reaches (l : Log) (t : List (Event P)) (s : Sys P) : Prop := Run Step (boot l) t s

/-- The history and the state after a list of actions, `none` if one of them is not possible. -/
def runActs (t : List (Event P)) (s : Sys P) : List (Act P) → Option (List (Event P) × Sys P)
  | [] => some (t, s)
  | a :: as =>
    match step s a with
    | none => none
    | some (s', none) => runActs t s' as
    | some (s', some e) => runActs (e :: t) s' as

theorem Reaches.runActs {l : Log} {t t' : List (Event P)} {s s' : Sys P} (h : Reaches l t s)
    {as : List (Act P)} (hr : runActs t s as = some (t', s')) : Reaches l t' s' := by
  induction as generalizing t s with
  | nil =>
    cases hr
    exact h
  | cons a as ih =>
    rw [GroupCommit.runActs] at hr
    split at hr
    · cases hr
    · exact ih (.silent h ⟨a, by assumption⟩) hr
    · exact ih (.event h ⟨a, by assumption⟩) hr

/-! ## What a step can do -/

/-- The steps with their guards spelled out. -/
inductive Trans (s : Sys P) : Option (Event P) → Sys P → Prop where
  | callBeginOp {p : P} (hp : s.pc p = .out) : Trans s none (s.goto p .begins)
  | sleep {p : P} (hp : s.pc p = .begins) (hl : s.log.committing = true ∨
      LOGSIZE < s.log.lh.length + (s.log.outstanding + 1) * MAXOPBLOCKS) :
      Trans s none (s.goto p .sleeping)
  | beginOp {p : P} (hp : s.pc p = .begins) (hc : s.log.committing = false)
      (hl : s.log.lh.length + (s.log.outstanding + 1) * MAXOPBLOCKS ≤ LOGSIZE) :
      Trans s (some (.began p))
        ({ s with log := { s.log with outstanding := s.log.outstanding + 1 } }.goto p .inOp)
  | kill {p : P} (hp : s.pc p = .sleeping) : Trans s none (s.goto p .begins)
  | logWrite {p : P} {b : Nat} (hp : s.pc p = .inOp) (hlog : s.log.lh.length < LOGSIZE)
      (hsize : s.log.lh.length < s.log.size - 1) (ho : 1 ≤ s.log.outstanding) :
      Trans s (some (.logWrite p b))
        { s with log := { s.log with lh := addBlock s.log.lh b } }
  | tooBig {p : P} {b : Nat} (hp : s.pc p = .inOp)
      (hbig : LOGSIZE ≤ s.log.lh.length ∨ s.log.size - 1 ≤ s.log.lh.length) :
      Trans s (some (.logWrite p b)) { s with panicked := some .tooBigTransaction }
  | outside {p : P} {b : Nat} (hp : s.pc p = .inOp) (ho : s.log.outstanding < 1) :
      Trans s (some (.logWrite p b)) { s with panicked := some .logWriteOutsideOfTrans }
  | endOpPanic {p : P} (hp : s.pc p = .inOp) (hc : s.log.committing = true) :
      Trans s (some (.ended p)) { s with panicked := some .logCommitting }
  | endOpLast {p : P} (hp : s.pc p = .inOp) (hc : s.log.committing = false)
      (ho : s.log.outstanding - 1 = 0) :
      Trans s (some (.ended p))
        ({ s with log :=
          { s.log with outstanding := s.log.outstanding - 1, committing := true } }.goto
            p .committing)
  | endOp {p : P} (hp : s.pc p = .inOp) (hc : s.log.committing = false)
      (ho : s.log.outstanding - 1 ≠ 0) :
      Trans s (some (.ended p))
        ({ s with
            log := { s.log with outstanding := s.log.outstanding - 1 }
            pc := wakeup s.pc }.goto p .out)
  | commit {p : P} (hp : s.pc p = .committing) :
      Trans s (some (.committed p s.log.lh))
        ({ s with log := { s.log with lh := [] } }.goto p .committed)
  | finish {p : P} (hp : s.pc p = .committed) :
      Trans s none
        ({ s with log := { s.log with committing := false }, pc := wakeup s.pc }.goto p .out)

theorem Step.trans {s s' : Sys P} {e : Option (Event P)} (h : Step s e s') :
    s.panicked = none ∧ Trans s e s' := by
  obtain ⟨a, ha⟩ := h
  cases a with
  | callBeginOp p =>
    obtain ⟨⟨hl, hp⟩, ha⟩ := Option.ite_none_right_eq_some.mp ha
    cases ha
    exact ⟨hl, .callBeginOp hp⟩
  | beginOp p =>
    obtain ⟨⟨hl, hp⟩, ha⟩ := Option.ite_none_right_eq_some.mp ha
    refine ⟨hl, ?_⟩
    rcases beginOpPass_cases s.log with ⟨hb, hg⟩ | ⟨hb, hc, hg⟩
    · rw [hb] at ha
      cases ha
      exact .sleep hp hg
    · rw [hb] at ha
      cases ha
      exact .beginOp hp hc hg
  | kill p =>
    obtain ⟨⟨hl, hp⟩, ha⟩ := Option.ite_none_right_eq_some.mp ha
    cases ha
    exact ⟨hl, .kill hp⟩
  | logWrite p b =>
    obtain ⟨⟨hl, hp⟩, ha⟩ := Option.ite_none_right_eq_some.mp ha
    refine ⟨hl, ?_⟩
    rcases logWriteSection_cases s.log b with ⟨hb, hg⟩ | ⟨hb, hg⟩ | ⟨hb, hg, hg', ho⟩
    · rw [hb] at ha
      cases ha
      exact .tooBig hp hg
    · rw [hb] at ha
      cases ha
      exact .outside hp hg
    · rw [hb] at ha
      cases ha
      exact .logWrite hp hg hg' ho
  | endOp p =>
    obtain ⟨⟨hl, hp⟩, ha⟩ := Option.ite_none_right_eq_some.mp ha
    refine ⟨hl, ?_⟩
    rcases endOpSection_cases s.log with ⟨hb, hc⟩ | ⟨hb, hc, ho⟩ | ⟨hb, hc, ho⟩
    · rw [hb] at ha
      cases ha
      exact .endOpPanic hp hc
    · rw [hb] at ha
      cases ha
      exact .endOpLast hp hc ho
    · rw [hb] at ha
      cases ha
      exact .endOp hp hc ho
  | commit p =>
    obtain ⟨⟨hl, hp⟩, ha⟩ := Option.ite_none_right_eq_some.mp ha
    cases ha
    exact ⟨hl, .commit hp⟩
  | finish p =>
    obtain ⟨⟨hl, hp⟩, ha⟩ := Option.ite_none_right_eq_some.mp ha
    cases ha
    exact ⟨hl, .finish hp⟩

end Xv6.GroupCommit
