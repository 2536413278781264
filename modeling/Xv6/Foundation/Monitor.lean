import Mathlib.Data.List.FinRange
import Mathlib.Tactic.Simps.Basic
import Xv6.Foundation.Run

/-!
# Monitors with `sleep` and `wakeup`

Threads run the sections of a program under one spin-lock `lk`. A thread that holds the lock may
call `wakeup(chan)`, which takes the `p->lock` of every process in turn, and `sleep(chan, lk)`,
which gives the lock back while it holds its own `p->lock`. There is one channel, and `kill` may
wake a process at any time.
-/

namespace Xv6.Foundation.Monitor

open Xv6.Foundation Function

set_option autoImplicit false

/-- Where a process is in `sleep`: before `acquire(&p->lock)`, before `release(lk)`, before it sets
`SLEEPING`, before the scheduler releases `p->lock`, switched away. -/
inductive Stage where
  | entering
  | locked
  | released
  | set
  | parked
  deriving DecidableEq

/-- Where a thread is: `k` is the point of the program that it is at when it holds the lock. At
`enter k` it waits for the lock. -/
inductive PC (T K : Type) where
  | idle
  | enter (k : K)
  | body (k : K)
  | waking (todo : List T) (k : K)
  | sleep (stage : Stage) (k : K)

/-- What a thread that holds the lock does next. After `done` it is idle, or waits for the lock
again. -/
inductive Next (D K E : Type) where
  | goto (d : D) (k : K)
  | wake (d : D) (k : K)
  | sleep (k : K)
  | done (d : D) (back : Option K) (e : Option E)

/-- The processes that `wakeup` looks at, which sections a thread may begin where it does not hold
the lock, what it may do to the data while it is idle, and the sections. `X` is what a step finds
out from outside. -/
structure Program (T D K X E : Type) where
  procs : List T
  enters : T → Option K → K → D → Bool
  outer : T → X → D → Option D
  next : T → X → D → K → Next D K E

variable {T D K X E : Type}

structure State (T D K : Type) where
  pc : T → PC T K
  sleeping : T → Bool
  lock : Option T
  data : D

inductive Label (T K X : Type) where
  | call (p : T) (k : K)
  | outer (p : T) (x : X)
  | run (p : T) (x : X)
  | kill (q : T)

/-- The point at which a thread that is idle, or waits for the lock, goes on. -/
def PC.outside : PC T K → Option (Option K)
  | .idle => some none
  | .enter k => some (some k)
  | _ => none

def PC.ownLocked : PC T K → Bool
  | .sleep .locked _ | .sleep .released _ | .sleep .set _ => true
  | _ => false

def PC.holds : PC T K → Bool
  | .body _ | .waking _ _ | .sleep .entering _ | .sleep .locked _ => true
  | _ => false

def PC.back : Option K → PC T K
  | none => .idle
  | some k => .enter k

variable [DecidableEq T]

namespace State
variable (s : State T D K)

@[simps] def setPc (p : T) (pc : PC T K) : State T D K :=
  { s with pc := Function.update s.pc p pc }

@[simps] def setSleeping (p : T) (b : Bool) : State T D K :=
  { s with sleeping := Function.update s.sleeping p b }

@[simps] def setLock (o : Option T) : State T D K := { s with lock := o }

@[simps] def setData (d : D) : State T D K := { s with data := d }

variable {s}

theorem setPc_eq_self {p : T} {pc : PC T K} (h : s.pc p = pc) : s.setPc p pc = s := by
  simp [setPc, ← h]

theorem setSleeping_eq_self {p : T} {b : Bool} (h : s.sleeping p = b) : s.setSleeping p b = s := by
  simp [setSleeping, ← h]

end State

/-- `sleep(chan, lk)` -/
def stepSleep (p : T) (s : State T D K) (k : K) : Stage → Option (State T D K)
  | .entering => some (s.setPc p (.sleep .locked k))
  | .locked => some ((s.setLock none).setPc p (.sleep .released k))
  | .released => some ((s.setSleeping p true).setPc p (.sleep .set k))
  | .set => some (s.setPc p (.sleep .parked k))
  | .parked => if s.sleeping p then none else some (s.setPc p (.enter k))

variable (P : Program T D K X E)

def stepBody (p : T) (s : State T D K) : Next D K E → State T D K × Option E
  | .goto d k => ((s.setData d).setPc p (.body k), none)
  | .wake d k => ((s.setData d).setPc p (.waking P.procs k), none)
  | .sleep k => (s.setPc p (.sleep .entering k), none)
  | .done d back e => (((s.setData d).setLock none).setPc p (.back back), e)

def step (p : T) (x : X) (s : State T D K) : Option (State T D K × Option E) :=
  match s.pc p with
  | .idle => none
  | .enter k =>
    if s.lock.isNone then some ((s.setLock (some p)).setPc p (.body k), none) else none
  | .body k => some (stepBody P p s (P.next p x s.data k))
  | .waking [] k => some (s.setPc p (.body k), none)
  | .waking (q :: todo) k =>
    if q = p then some (s.setPc p (.waking todo k), none)
    else if (s.pc q).ownLocked then none
    else some ((s.setSleeping q false).setPc p (.waking todo k), none)
  | .sleep stage k => (stepSleep p s k stage).map fun s' => (s', none)

def exec : Label T K X → State T D K → Option (State T D K × Option E)
  | .call p k, s =>
    match (s.pc p).outside with
    | some o => if P.enters p o k s.data then some (s.setPc p (.enter k), none) else none
    | none => none
  | .outer p x, s =>
    match s.pc p with
    | .idle => (P.outer p x s.data).map fun d => (s.setData d, none)
    | _ => none
  | .run p x, s => step P p x s
  | .kill q, s => if (s.pc q).ownLocked then none else some (s.setSleeping q false, none)

def Step (s : State T D K) (e : Option E) (s' : State T D K) : Prop :=
  ∃ l, exec P l s = some (s', e)

def boot (d : D) : State T D K where
  pc := fun _ => .idle
  sleeping := fun _ => false
  lock := none
  data := d

def Reaches (d : D) (t : List E) (s : State T D K) : Prop := Run (Step P) (boot d) t s

/-- What a step can do. -/
inductive Move (s : State T D K) : Option E → State T D K → Prop where
  | call {p o k} : (s.pc p).outside = some o → P.enters p o k s.data →
      Move s none (s.setPc p (.enter k))
  | outer {p x d} : s.pc p = .idle → P.outer p x s.data = some d →
      Move s none (s.setData d)
  | enter {p k} : s.pc p = .enter k → s.lock = none →
      Move s none ((s.setLock (some p)).setPc p (.body k))
  | goto {p x k k' d} :
      s.pc p = .body k → P.next p x s.data k = .goto d k' →
      Move s none ((s.setData d).setPc p (.body k'))
  | wake {p x k k' d} :
      s.pc p = .body k → P.next p x s.data k = .wake d k' →
      Move s none ((s.setData d).setPc p (.waking P.procs k'))
  | sleep {p x k k'} :
      s.pc p = .body k → P.next p x s.data k = .sleep k' →
      Move s none (s.setPc p (.sleep .entering k'))
  | done {p x k d back e} :
      s.pc p = .body k → P.next p x s.data k = .done d back e →
      Move s e (((s.setData d).setLock none).setPc p (.back back))
  | wakeSelf {p todo k} : s.pc p = .waking (p :: todo) k →
      Move s none (s.setPc p (.waking todo k))
  | wakeOther {p q todo k} : s.pc p = .waking (q :: todo) k →
      q ≠ p → (s.pc q).ownLocked = false →
      Move s none ((s.setSleeping q false).setPc p (.waking todo k))
  | wakeEnd {p k} : s.pc p = .waking [] k → Move s none (s.setPc p (.body k))
  | sleepLock {p k} : s.pc p = .sleep .entering k →
      Move s none (s.setPc p (.sleep .locked k))
  | sleepRelease {p k} : s.pc p = .sleep .locked k →
      Move s none ((s.setLock none).setPc p (.sleep .released k))
  | sleepSet {p k} : s.pc p = .sleep .released k →
      Move s none ((s.setSleeping p true).setPc p (.sleep .set k))
  | sleepPark {p k} : s.pc p = .sleep .set k →
      Move s none (s.setPc p (.sleep .parked k))
  | sleepResume {p k} : s.pc p = .sleep .parked k → s.sleeping p = false →
      Move s none (s.setPc p (.enter k))
  | kill {q} : (s.pc q).ownLocked = false → Move s none (s.setSleeping q false)

variable {P} {s s' : State T D K} {e : Option E}

theorem move_of_stepSleep {p : T} {stage : Stage} {k : K} (hpc : s.pc p = .sleep stage k)
    (h : stepSleep p s k stage = some s') : Move P s none s' := by
  cases stage with
  | entering =>
    cases h
    exact .sleepLock hpc
  | locked =>
    cases h
    exact .sleepRelease hpc
  | released =>
    cases h
    exact .sleepSet hpc
  | set =>
    cases h
    exact .sleepPark hpc
  | parked =>
    simp only [stepSleep, Option.ite_none_left_eq_some, Option.some.injEq] at h
    obtain ⟨hs, rfl⟩ := h
    exact .sleepResume hpc (by simpa using hs)

theorem move_of_stepBody {p : T} {x : X} {k : K} (hpc : s.pc p = .body k) :
    Move P s (stepBody P p s (P.next p x s.data k)).2 (stepBody P p s (P.next p x s.data k)).1 := by
  cases h : P.next p x s.data k with
  | goto d k' => exact .goto hpc h
  | wake d k' => exact .wake hpc h
  | sleep k' => exact .sleep hpc h
  | done d back e => exact .done hpc h

theorem move_of_step {p : T} {x : X} (h : step P p x s = some (s', e)) : Move P s e s' := by
  unfold step at h
  split at h
  next => cases h
  next k hpc =>
    simp only [Option.isNone_iff_eq_none, Option.ite_none_right_eq_some, Option.some.injEq,
      Prod.mk.injEq] at h
    obtain ⟨hl, rfl, rfl⟩ := h
    exact .enter hpc hl
  next k hpc =>
    have hm := move_of_stepBody (P := P) (x := x) hpc
    rwa [Option.some.inj h] at hm
  next k hpc =>
    cases h
    exact .wakeEnd hpc
  next q todo k hpc =>
    split_ifs at h with hq hown
    · cases h
      subst hq
      exact .wakeSelf hpc
    · cases h
      exact .wakeOther hpc hq (by simpa using hown)
  next stage k hpc =>
    simp only [Option.map_eq_some_iff, Prod.mk.injEq] at h
    obtain ⟨_, hs, rfl, rfl⟩ := h
    exact move_of_stepSleep hpc hs

theorem Step.move (h : Step P s e s') : Move P s e s' := by
  obtain ⟨l, h⟩ := h
  cases l with
  | call p k =>
    simp only [exec] at h
    split at h
    next o ho =>
      simp only [Option.ite_none_right_eq_some, Option.some.injEq, Prod.mk.injEq] at h
      obtain ⟨hen, rfl, rfl⟩ := h
      exact .call ho hen
    next => cases h
  | outer p x =>
    simp only [exec] at h
    split at h
    next hpc =>
      simp only [Option.map_eq_some_iff, Prod.mk.injEq] at h
      obtain ⟨d, hd, rfl, rfl⟩ := h
      exact .outer hpc hd
    next => cases h
  | run p x => exact move_of_step h
  | kill q =>
    simp only [exec, Option.ite_none_left_eq_some, Option.some.injEq, Prod.mk.injEq] at h
    obtain ⟨hown, rfl, rfl⟩ := h
    exact .kill (by simpa using hown)

theorem Move.step [Inhabited X] (h : Move P s e s') : Step P s e s' := by
  cases h with
  | @call p o k ho he => exact ⟨.call p k, by simp [exec, ho, he]⟩
  | @outer p x d hpc hd => exact ⟨.outer p x, by simp [exec, hpc, hd]⟩
  | @enter p k hpc hl => exact ⟨.run p default, by simp [exec, Monitor.step, hpc, hl]⟩
  | @goto p x k k' d hpc hn | @wake p x k k' d hpc hn | @sleep p x k k' hpc hn =>
    exact ⟨.run p x, by simp [exec, Monitor.step, hpc, hn, stepBody]⟩
  | @done p x k d back e hpc hn =>
    exact ⟨.run p x, by simp [exec, Monitor.step, hpc, hn, stepBody]⟩
  | @wakeSelf p todo k hpc | @wakeEnd p k hpc | @sleepLock p k hpc | @sleepRelease p k hpc
  | @sleepSet p k hpc | @sleepPark p k hpc =>
    exact ⟨.run p default, by simp [exec, Monitor.step, hpc, stepSleep]⟩
  | @wakeOther p q todo k hpc hq hown =>
    exact ⟨.run p default, by simp [exec, Monitor.step, hpc, hq, hown]⟩
  | @sleepResume p k hpc hs =>
    exact ⟨.run p default, by simp [exec, Monitor.step, hpc, stepSleep, hs]⟩
  | @kill q hown => exact ⟨.kill q, by simp [exec, hown]⟩

/-- The lock is held exactly at the points between its `acquire` and its `release`, and only a
process that has set `SLEEPING` sleeps. -/
structure Locks (s : State T D K) : Prop where
  owner : ∀ p, (s.pc p).holds ↔ s.lock = some p
  asleep : ∀ p, s.sleeping p → ∃ k, s.pc p = .sleep .set k ∨ s.pc p = .sleep .parked k

omit [DecidableEq T] in
theorem locks_boot (d : D) : Locks (boot d : State T D K) :=
  ⟨fun _ => by simp [boot, PC.holds], fun _ h => by simp [boot] at h⟩

omit [DecidableEq T] in
@[simp]
theorem PC.back_holds (o : Option K) : (PC.back o : PC T K).holds = false := by
  cases o <;> rfl

omit [DecidableEq T] in
theorem PC.holds_of_outside {pc : PC T K} {o : Option K} (h : pc.outside = some o) :
    pc.holds = false := by
  cases pc with
  | idle | enter => rfl
  | _ => cases h

namespace Locks

section
variable (h : Locks s) {p : T} {pc : PC T K}
include h

omit [DecidableEq T] in
theorem lock_of_pc (hpc : s.pc p = pc) (hh : pc.holds) : s.lock = some p := by
  rw [← h.owner, hpc]
  exact hh

omit [DecidableEq T] in
theorem holder_ne {q : T} (hpc : s.pc p = pc) (hh : pc.holds = false) (hl : s.lock = some q) :
    q ≠ p := by
  rintro rfl
  have hq := (h.owner q).mpr hl
  rw [hpc, hh] at hq
  cases hq

theorem owner_keep (hpc : pc.holds = (s.pc p).holds) :
    ∀ q, (update s.pc p pc q).holds ↔ s.lock = some q := by
  intro q
  by_cases hq : q = p
  · subst hq
    rw [update_self, hpc]
    exact h.owner q
  · rw [update_of_ne hq]
    exact h.owner q

theorem owner_take (hl : s.lock = none) (hpc : pc.holds) :
    ∀ q, (update s.pc p pc q).holds ↔ some p = some q := by
  intro q
  by_cases hq : q = p
  · subst hq
    simp [hpc]
  · simp [hq, Ne.symm hq, h.owner, hl]

theorem owner_drop (hp : (s.pc p).holds) (hpc : pc.holds = false) :
    ∀ q, (update s.pc p pc q).holds ↔ none = some q := by
  intro q
  have hl := (h.owner p).mp hp
  by_cases hq : q = p
  · subst hq
    simp [hpc]
  · simp [hq, Ne.symm hq, h.owner, hl]

omit [DecidableEq T] in
theorem awake (hset : ∀ k, s.pc p ≠ .sleep .set k) (hparked : ∀ k, s.pc p ≠ .sleep .parked k) :
    s.sleeping p = false := by
  by_contra hp
  obtain ⟨k, hpc | hpc⟩ := h.asleep p (by simpa using hp)
  · exact hset k hpc
  · exact hparked k hpc

theorem asleep_setPc (hp : s.sleeping p = false) :
    ∀ q, s.sleeping q → ∃ k, update s.pc p pc q = .sleep .set k ∨
      update s.pc p pc q = .sleep .parked k := by
  intro q hq
  have hne : q ≠ p := by
    rintro rfl
    rw [hp] at hq
    cases hq
  rw [update_of_ne hne]
  exact h.asleep q hq

theorem wake (q : T) : Locks (s.setSleeping q false) := by
  refine ⟨h.owner, fun p hp => h.asleep p ?_⟩
  by_cases hq : p = q
  · simp [hq] at hp
  · simpa [hq] using hp

end

theorem setPc (h : Locks s) {p : T} {pc pc' : PC T K} (hpc : s.pc p = pc)
    (hh : pc'.holds = pc.holds) (hp : s.sleeping p = false) : Locks (s.setPc p pc') :=
  ⟨h.owner_keep (hh.trans (congrArg PC.holds hpc.symm)), h.asleep_setPc hp⟩

omit [DecidableEq T] in
theorem setData (h : Locks s) (d : D) : Locks (s.setData d) := ⟨h.owner, h.asleep⟩

theorem move (h : Locks s) (hm : Move P s e s') : Locks s' := by
  cases hm with
  | @call p o k ho _ =>
    refine h.setPc rfl (PC.holds_of_outside ho).symm (h.awake ?_ ?_)
    all_goals
      intro k hk
      rw [hk] at ho
      cases ho
  | @outer p x d hpc hd => exact h.setData d
  | @enter p k hpc hl =>
    exact ⟨h.owner_take hl rfl, h.asleep_setPc (h.awake (by simp [hpc]) (by simp [hpc]))⟩
  | @goto p x k k' d hpc hn | @wake p x k k' d hpc hn =>
    exact (h.setData d).setPc hpc rfl (h.awake (by simp [hpc]) (by simp [hpc]))
  | @sleep p x k k' hpc hn =>
    exact h.setPc hpc rfl (h.awake (by simp [hpc]) (by simp [hpc]))
  | @done p x k d back e hpc hn =>
    exact ⟨h.owner_drop (by rw [hpc]; rfl) (PC.back_holds back),
      h.asleep_setPc (h.awake (by simp [hpc]) (by simp [hpc]))⟩
  | @wakeSelf p todo k hpc | @wakeEnd p k hpc | @sleepLock p k hpc =>
    exact h.setPc hpc rfl (h.awake (by simp [hpc]) (by simp [hpc]))
  | @wakeOther p q todo k hpc hq hown =>
    exact (h.wake q).setPc hpc rfl ((h.wake q).awake (by simp [hpc]) (by simp [hpc]))
  | @sleepRelease p k hpc =>
    exact ⟨h.owner_drop (by rw [hpc]; rfl) rfl,
      h.asleep_setPc (h.awake (by simp [hpc]) (by simp [hpc]))⟩
  | @sleepSet p k hpc =>
    refine ⟨h.owner_keep (by rw [hpc]; rfl), fun q hq => ?_⟩
    by_cases hqp : q = p
    · subst hqp
      exact ⟨k, Or.inl (update_self ..)⟩
    · have hs : s.sleeping q := by simpa [hqp] using hq
      simpa [hqp] using h.asleep q hs
  | @sleepPark p k hpc =>
    refine ⟨h.owner_keep (by rw [hpc]; rfl), fun q hq => ?_⟩
    by_cases hqp : q = p
    · subst hqp
      exact ⟨k, Or.inr (update_self ..)⟩
    · simpa [hqp] using h.asleep q hq
  | @sleepResume p k hpc hs => exact h.setPc hpc rfl hs
  | @kill q hown => exact h.wake q

end Locks

end Xv6.Foundation.Monitor
