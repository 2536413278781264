import Xv6.Foundation.Outline

/-!
# Sleep-locks

`acquiresleep`, `releasesleep` and `holdingsleep` of `sleeplock.c`, as sections under `lk->lk`.
The slots of the process table are filled and emptied meanwhile, so that a pid may come back, but
never while a live process has it.
-/

namespace Xv6.Sleeplock

open Xv6.Foundation Monitor Function

set_option autoImplicit false

/-- A sleep-lock, the pids of the live processes, and which processes are between a return of
`acquiresleep` and the store of their `releasesleep` that gives the lock up. -/
structure Lock (n : Nat) where
  locked : Bool
  pid : Int
  pids : Fin n → Option Int
  held : Fin n → Bool

/-- Points under `lk->lk`: the loop of `acquiresleep` and its `release`, `releasesleep` and its
`release`, `holdingsleep`. -/
inductive Point where
  | acquiresleep
  | acquired
  | releasesleep
  | released
  | holdingsleep
  deriving DecidableEq

inductive Event (n : Nat) where
  | answered (p : Fin n) (r : Bool)

/-- What an idle process does to the process table: `freeproc`, or `allocproc` with a pid. -/
inductive Turn where
  | freeproc
  | allocproc (pid : Int)

variable {n : Nat}

def mypid (d : Lock n) (p : Fin n) : Int := (d.pids p).getD 0

def next (p : Fin n) (_ : Turn) (d : Lock n) : Point → Next (Lock n) Point (Event n)
  | .acquiresleep =>
    if d.locked then .sleep .acquiresleep
    else .goto { d with locked := true, pid := mypid d p } .acquired
  | .acquired => .done { d with held := Function.update d.held p true } none none
  | .releasesleep =>
    .wake { d with locked := false, pid := 0, held := Function.update d.held p false } .released
  | .released => .done d none none
  | .holdingsleep => .done d none (some (.answered p (d.locked && d.pid == mypid d p)))

/-- A live process may call `acquiresleep` and `holdingsleep` at any time, and `releasesleep` when
it has the lock. -/
def enters (p : Fin n) : Option Point → Point → Lock n → Bool
  | none, .acquiresleep, d | none, .holdingsleep, d => (d.pids p).isSome
  | none, .releasesleep, d => d.held p
  | _, _, _ => false

/-- A process does not exit with the lock, and `allocproc` gives no pid that is in use. -/
def outer (p : Fin n) (x : Turn) (d : Lock n) : Option (Lock n) :=
  match x with
  | .freeproc =>
    if d.held p then none else some { d with pids := Function.update d.pids p none }
  | .allocproc i =>
    if d.pids p = none ∧ ∀ q, d.pids q ≠ some i then
      some { d with pids := Function.update d.pids p (some i) }
    else none

def program (n : Nat) : Program (Fin n) (Lock n) Point Turn (Event n) where
  procs := List.finRange n
  enters := enters
  outer := outer
  next := next

/-- `initsleeplock`, before there are processes. -/
def initsleeplock (n : Nat) : Lock n where
  locked := false
  pid := 0
  pids := fun _ => none
  held := fun _ => false

namespace Lock

def Distinct (d : Lock n) : Prop :=
  ∀ p q i, d.pids p = some i → d.pids q = some i → p = q

/-- While `lk->lk` is free, the lock word says whether some process has the lock, and `lk->pid`
which one. -/
structure Consistent (d : Lock n) : Prop where
  distinct : d.Distinct
  owner : ∀ p, d.held p → d.locked ∧ d.pids p = some d.pid
  held : d.locked → ∃ p, d.held p

/-- What a process relies on outside of `lk->lk`. -/
def Relies (p : Fin n) (d : Lock n) : Option Point → Prop
  | some .acquiresleep | some .holdingsleep => ∃ i, d.pids p = some i
  | some .releasesleep => d.held p
  | some .acquired | some .released => False
  | none => d.held p → ∃ i, d.pids p = some i

def Inside (p : Fin n) (d : Lock n) : Point → Prop
  | .acquired => d.Distinct ∧ d.locked ∧ d.pids p = some d.pid ∧ ∀ q, d.held q = false
  | .released => d.Consistent
  | k => d.Consistent ∧ d.Relies p (some k)

variable {d : Lock n} {p q : Fin n}

theorem Consistent.unique (h : d.Consistent) (hp : d.held p) (hq : d.held q) : p = q :=
  h.distinct p q d.pid (h.owner p hp).2 (h.owner q hq).2

theorem Consistent.relies (h : d.Consistent) (p : Fin n) : d.Relies p none :=
  fun hp => ⟨d.pid, (h.owner p hp).2⟩

theorem Consistent.not_held (h : d.Consistent) (hl : d.locked = false) (p : Fin n) :
    d.held p = false := by
  by_contra hp
  have := (h.owner p (by simpa using hp)).1
  rw [hl] at this
  cases this

theorem Relies.congr {d' : Lock n} {o : Option Point} (h : d.Relies p o)
    (hpids : d'.pids p = d.pids p) (hheld : d'.held p = d.held p) : d'.Relies p o := by
  cases o with
  | none => simpa [Relies, hpids, hheld] using h
  | some k =>
    cases k with
    | acquired | released => exact h
    | acquiresleep | releasesleep | holdingsleep => simpa [Relies, hpids, hheld] using h

theorem Distinct.allocproc {i : Int} (h : d.Distinct) (hi : ∀ q, d.pids q ≠ some i) :
    Distinct { d with pids := update d.pids p (some i) } := by
  intro q q' j hq hq'
  by_cases hqp : q = p
  · by_cases hqp' : q' = p
    · rw [hqp, hqp']
    · simp only [hqp, update_self, Option.some.injEq] at hq
      simp only [update_of_ne hqp'] at hq'
      exact absurd hq' (hq ▸ hi q')
  · simp only [update_of_ne hqp] at hq
    by_cases hqp' : q' = p
    · simp only [hqp', update_self, Option.some.injEq] at hq'
      exact absurd hq (hq' ▸ hi q)
    · simp only [update_of_ne hqp'] at hq'
      exact h q q' j hq hq'

theorem Distinct.freeproc (h : d.Distinct) :
    Distinct { d with pids := update d.pids p none } := by
  intro q q' j hq hq'
  by_cases hqp : q = p
  · simp [hqp] at hq
  by_cases hqp' : q' = p
  · simp [hqp'] at hq'
  simp only [update_of_ne hqp] at hq
  simp only [update_of_ne hqp'] at hq'
  exact h q q' j hq hq'

theorem Consistent.setPids {o : Option Int} (h : d.Consistent) (hp : d.held p = false)
    (hd : Distinct { d with pids := update d.pids p o }) :
    Consistent { d with pids := update d.pids p o } := by
  refine ⟨hd, fun q hq => ?_, h.held⟩
  have hne : q ≠ p := by
    rintro rfl
    simp [hp] at hq
  simpa [update_of_ne hne] using h.owner q hq

end Lock

def outline (n : Nat) : Outline (Fin n) (Lock n) Point where
  free := Lock.Consistent
  out p o d := d.Relies p o
  inside p k d := d.Inside p k
  blocked d := d.locked
  owes _ _ _ := False

variable {d : Lock n} {p : Fin n}

theorem spares_of_eq {d' : Lock n} (hpids : ∀ q, q ≠ p → d'.pids q = d.pids q)
    (hheld : ∀ q, q ≠ p → d'.held q = d.held q) : (outline n).Spares p d d' :=
  fun q _ hq h => Lock.Relies.congr h (hpids q hq) (hheld q hq)

theorem harmless_setPids {o : Option Int} (hp : d.held p = false)
    (hd : d.Distinct → Lock.Distinct { d with pids := update d.pids p o }) :
    (outline n).Harmless p d { d with pids := update d.pids p o } := by
  have hsp : (outline n).Spares p d { d with pids := update d.pids p o } :=
    spares_of_eq (fun q hq => update_of_ne hq ..) fun _ _ => rfl
  have hself : Lock.Relies p { d with pids := update d.pids p o } none := by
    simp [Lock.Relies, hp]
  refine ⟨hself, hsp, fun h => h.setPids hp (hd h.distinct), fun q k hq h => ?_, id, fun _ _ _ => id⟩
  cases k with
  | acquired =>
    refine ⟨hd h.1, h.2.1, ?_, h.2.2.2⟩
    simpa [update_of_ne hq] using h.2.2.1
  | released => exact Lock.Consistent.setPids h hp (hd h.distinct)
  | acquiresleep | releasesleep | holdingsleep =>
    exact ⟨h.1.setPids hp (hd h.1.distinct), h.2.congr (update_of_ne hq ..) rfl⟩

theorem post_next (x : Turn) {k : Point} (h : d.Inside p k) :
    (outline n).Post (List.finRange n) p k d (next p x d k) := by
  cases k with
  | acquiresleep =>
    obtain ⟨hc, i, hi⟩ := h
    by_cases hl : d.locked
    · simp only [next, hl, if_true]
      exact ⟨List.mem_finRange p, hc, hl, i, hi⟩
    · have hno := hc.not_held (by simpa using hl)
      simp only [next, hl]
      refine ⟨⟨hc.distinct, rfl, ?_, hno⟩, spares_of_eq (fun _ _ => rfl) fun _ _ => rfl, ?_⟩
      · simp [mypid, hi]
      · exact fun _ => Or.inl rfl
  | acquired =>
    obtain ⟨hd, hl, hpid, hno⟩ := h
    refine ⟨⟨hd, fun q hq => ?_, fun _ => ⟨p, by simp⟩⟩, fun _ => ⟨d.pid, hpid⟩, ?_, fun _ => hl⟩
    · by_cases hqp : q = p
      · rw [hqp]
        exact ⟨hl, hpid⟩
      · simp [update_of_ne hqp, hno q] at hq
    · exact spares_of_eq (fun _ _ => rfl) fun q hq => update_of_ne hq ..
  | releasesleep =>
    obtain ⟨hc, hp⟩ := h
    refine ⟨⟨hc.distinct, fun q hq => ?_, fun hl => by cases hl⟩, ?_⟩
    · by_cases hqp : q = p
      · simp [hqp] at hq
      · exact absurd (hc.unique (by simpa [update_of_ne hqp] using hq) hp) hqp
    · exact spares_of_eq (fun _ _ => rfl) fun q hq => update_of_ne hq ..
  | released =>
    exact ⟨h, h.relies p, fun _ _ _ hr => hr, fun hb => hb.resolve_right id⟩
  | holdingsleep =>
    exact ⟨h.1, h.1.relies p, fun _ _ _ hr => hr, fun hb => hb.resolve_right id⟩

theorem outline_valid (n : Nat) : (outline n).Valid (program n) where
  call := by
    intro p o k d _ he
    cases o with
    | some _ => simp [program, enters] at he
    | none =>
      cases k with
      | acquired | released => cases he
      | acquiresleep | holdingsleep => exact Option.isSome_iff_exists.mp he
      | releasesleep => exact he
  outer := by
    intro p x d d' hr ho
    cases x with
    | freeproc =>
      simp only [program, outer, Option.ite_none_left_eq_some, Option.some.injEq] at ho
      obtain ⟨hp, rfl⟩ := ho
      exact harmless_setPids (by simpa using hp) Lock.Distinct.freeproc
    | allocproc i =>
      simp only [program, outer, Option.ite_none_right_eq_some, Option.some.injEq] at ho
      obtain ⟨⟨hp, hi⟩, rfl⟩ := ho
      refine harmless_setPids (Bool.eq_false_iff.mpr fun hheld => ?_) fun h => h.allocproc hi
      obtain ⟨j, hj⟩ := hr hheld
      rw [hp] at hj
      cases hj
  enter := by
    intro p k d hc hr
    cases k with
    | acquired | released => exact hr.elim
    | _ => exact ⟨hc, hr⟩
  next := fun p x k d h => post_next x h

def Holds (s : State (Fin n) (Lock n) Point) (p : Fin n) : Prop := s.data.held p

variable {s s' : State (Fin n) (Lock n) Point} {t : List (Event n)}

theorem outlined (h : Reaches (program n) (initsleeplock n) t s) :
    Outlined (outline n) (program n) s := by
  refine h.outlined (outline_valid n) ⟨?_, ?_, ?_⟩ fun p hp => ?_
  · intro p q i hp
    cases hp
  · intro p hp
    cases hp
  · intro hl
    cases hl
  · cases hp

section
variable (h : Outlined (outline n) (program n) s)
include h

end

end Xv6.Sleeplock
