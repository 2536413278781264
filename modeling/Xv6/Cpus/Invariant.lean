import Xv6.Cpus.Nesting

/-!
# The invariant of CPUs and threads

While a CPU executes a thread, `noff`, `intena`, the interrupt bit and the locks of the CPU are those
of the thread. A process that is not executed is ready to be, if it may be chosen: its context is
complete, and it goes on with its own lock held and nothing else open.
-/

namespace Xv6.Cpus

open Xv6.Foundation Function
open Xv6.Procs (ProcState)

set_option autoImplicit false

variable {T C : Type}

/-- Instructions that are not part of any code, but come from the execution of others. -/
def Instr.plain : Instr T → Bool
  | .save _ | .jump _ | .restore _ | .load _ _ | .clear _ _ => false
  | _ => true

/-- The slot that a scheduler switches to or comes back from. -/
def slotOf : List (Instr T) → Option T
  | .load q _ :: _ | .clear q _ :: _ => some q
  | _ => none

def Restoring : List (Instr T) → Prop
  | .restore _ :: _ => True
  | _ => False

def Mode.Shows (m : Mode) (st : ProcState) : Prop :=
  match m with
  | .run => st = .running
  | .left st' => st = st' ∧ (st' = .runnable ∨ st' = .sleeping ∨ st' = .zombie)
  | .gone => False

def Cpu.thread (x : Cpu T) (c : C) : Thread T C :=
  match x.running with
  | some p => .proc p
  | none => .sched c

theorem State.cur_eq {s : State T C} (c : C) : s.cur c = (s.cpu c).thread c := rfl

def Choosable (st : ProcState) : Prop :=
  st = .used ∨ st = .runnable ∨ st = .sleeping ∨ st = .running

variable [DecidableEq T]

/-- What process `p` that is executed at point `x` is in. -/
structure Self (slot : T → Slot) (x : Cpu T) (L : Local T) (p : T) : Prop where
  proc : x.proc = some p
  state : L.pt.mode.Shows (slot p).state
  locked : ∀ st, L.pt.mode = .left st → .proc p ∈ L.pt.held
  saved : ∀ b r, L.code = .jump b :: r → (slot p).ctx = .saved
  begun : (slot p).ctx ≠ .fresh

/-- What CPU `c` and the thread that it executes are in. -/
structure Good (slot : T → Slot) (c : C) (x : Cpu T) (L : Local T) : Prop where
  noff : x.noff = L.pt.depth
  nodup : L.pt.held.Nodup
  nested : L.pt.held.length ≤ L.pt.depth
  armed : L.pt.irq = true → L.pt.en = true
  intr : x.intr = (decide (L.pt.depth = 0) && L.pt.eff)
  intena : 0 < L.pt.depth → ¬ Restoring L.code → x.intena = L.pt.eff
  fits : L.pt.fits (x.thread c) L.code = true
  tail : ∀ i ∈ L.code.tail, i.plain = true
  self : ∀ p, x.running = some p → Self slot x L p
  sched : x.running = none → x.proc = slotOf L.code ∧ L.pt.mode = .run

structure Suspended (p : T) (L : Local T) : Prop where
  code : ∃ qs, L.code = [.clear p qs]
  held : L.pt.held = [.proc p]
  depth : L.pt.depth = 1
  mode : L.pt.mode = .run
  irq : L.pt.irq = false

structure Ready (C : Type) (q : T) (x : Slot) (L : Local T) : Prop where
  ctx : x.ctx ≠ .torn
  held : L.pt.held = [.proc q]
  depth : L.pt.depth = 1
  mode : L.pt.mode = .run
  armed : L.pt.irq = true → L.pt.en = true
  fits : L.pt.fits (.proc q : Thread T C) L.code = true
  tail : ∀ i ∈ L.code.tail, i.plain = true
  saved : x.ctx = .saved → Restoring L.code
  fresh : x.ctx = .fresh → L.code = forkret q ∧ L.pt.irq = false

structure Inv (s : State T C) : Prop where
  good : ∀ c, Good s.slot c (s.cpu c) (s.thread (s.cur c))
  locks : ∀ l c, s.holder l = some c ↔ l ∈ (s.thread (s.cur c)).pt.held
  sole : ∀ p c c', (s.cpu c).running = some p → (s.cpu c').running = some p → c = c'
  away : ∀ p c, (s.cpu c).running = some p → Suspended p (s.thread (.sched c))
  parked : ∀ q, (∀ c, (s.cpu c).running ≠ some q) → Choosable (s.slot q).state →
    Ready C q (s.slot q) (s.thread (.proc q))
  loading : ∀ c q qs r, (s.cpu c).running = none → (s.thread (.sched c)).code = .load q qs :: r →
    (s.slot q).state = .running
  apart : ∀ c q, (s.cpu c).running = none → slotOf (s.thread (.sched c)).code = some q →
    ∀ c', (s.cpu c').running ≠ some q
  busy : ∀ q, (s.slot q).state = .running → (∃ c, (s.cpu c).running = some q) ∨
    ∃ c qs r, (s.cpu c).running = none ∧ (s.thread (.sched c)).code = .load q qs :: r

variable {s : State T C} {c c' : C} {p q : T}

omit [DecidableEq T] in
theorem cur_of_running (h : (s.cpu c).running = some p) : s.cur c = .proc p := by
  simp [State.cur, h]

omit [DecidableEq T] in
theorem cur_of_none (h : (s.cpu c).running = none) : s.cur c = .sched c := by
  simp [State.cur, h]

namespace Inv

theorem cur_ne (h : Inv s) (hc : c' ≠ c) : s.cur c' ≠ s.cur c := by
  intro he
  cases hr : (s.cpu c).running with
  | some p =>
    cases hr' : (s.cpu c').running with
    | some p' =>
      rw [cur_of_running hr, cur_of_running hr'] at he
      cases he
      exact hc (h.sole p c' c hr' hr)
    | none =>
      rw [cur_of_running hr, cur_of_none hr'] at he
      cases he
  | none =>
    cases hr' : (s.cpu c').running with
    | some p' =>
      rw [cur_of_none hr, cur_of_running hr'] at he
      cases he
    | none =>
      rw [cur_of_none hr, cur_of_none hr'] at he
      cases he
      exact hc rfl

omit [DecidableEq T] in
theorem sched_ne (h : (s.cpu c').running = some p) : (.sched c' : Thread T C) ≠ s.cur c := by
  intro he
  cases hr : (s.cpu c).running with
  | some p' =>
    rw [cur_of_running hr] at he
    cases he
  | none =>
    rw [cur_of_none hr] at he
    cases he
    rw [h] at hr
    cases hr

omit [DecidableEq T] in
theorem proc_ne (h : ∀ c, (s.cpu c).running ≠ some q) : (.proc q : Thread T C) ≠ s.cur c := by
  intro he
  cases hr : (s.cpu c).running with
  | some p' =>
    rw [cur_of_running hr] at he
    cases he
    exact h c hr
  | none =>
    rw [cur_of_none hr] at he
    cases he

end Inv

theorem Good.congr {slot slot' : T → Slot} {x : Cpu T} {L : Local T} (h : Good slot c x L)
    (hs : ∀ p, x.running = some p → slot' p = slot p) : Good slot' c x L := by
  refine { h with self := fun p hp => ?_ }
  have hself := h.self p hp
  exact ⟨hself.proc, by rw [hs p hp]; exact hself.state, hself.locked,
    by rw [hs p hp]; exact hself.saved, by rw [hs p hp]; exact hself.begun⟩

variable [DecidableEq C]

/-- A step of the thread that `c` executes, to its own data, its CPU and the locks, and, if it is a
process, to its own slot. -/
theorem Inv.focus (h : Inv s) (x : Cpu T) (L : Local T) (slot' : T → Slot)
    (holder' : Lock T → Option C) (hrun : x.running = (s.cpu c).running) (hgood : Good slot' c x L)
    (hmine : ∀ l, holder' l = some c ↔ l ∈ L.pt.held)
    (hother : ∀ l c', c' ≠ c → (holder' l = some c' ↔ s.holder l = some c'))
    (hslot : ∀ q, (s.cpu c).running ≠ some q → slot' q = s.slot q)
    (hold : (s.cpu c).running = none → slotOf (s.thread (s.cur c)).code = none)
    (hnew : (s.cpu c).running = none → slotOf L.code = none) :
    Inv ⟨slot', update s.cpu c x, holder', update s.thread (s.cur c) L⟩ := by
  have hrun' : ∀ d, (update s.cpu c x d).running = (s.cpu d).running := by
    intro d
    by_cases hd : d = c
    · rw [hd, update_self, hrun]
    · rw [update_of_ne hd]
  have hcur : ∀ d, State.cur ⟨slot', update s.cpu c x, holder',
      update s.thread (s.cur c) L⟩ d = s.cur d := by
    intro d
    simp only [State.cur, hrun']
  -- the processes that are executed elsewhere, or not at all, are as before
  have helse : ∀ d q, d ≠ c → (s.cpu d).running = some q → slot' q = s.slot q := fun d q hd hq =>
    hslot q fun hc => hd (h.sole q d c hq hc)
  have hnone : ∀ d, (s.cpu d).running = none →
      slotOf (update s.thread (s.cur c) L (.sched d)).code ≠ none →
      update s.thread (s.cur c) L (.sched d) = s.thread (.sched d) := by
    intro d hd hne
    refine update_of_ne (fun he => hne ?_) ..
    have hdc : d = c := by
      by_contra hdc
      exact h.cur_ne hdc (by rw [cur_of_none hd, he])
    subst hdc
    rw [he, update_self]
    exact hnew hd
  refine ⟨fun d => ?_, fun l d => ?_, fun p d d' hd hd' => ?_, fun p d hd => ?_, fun q hq hst => ?_,
    fun d q qs r hd hcode => ?_, fun d q hd hcode => ?_, fun q hst => ?_⟩
  · rw [hcur]
    dsimp only
    by_cases hd : d = c
    · subst hd
      simpa using hgood
    · rw [update_of_ne hd, update_of_ne (h.cur_ne hd)]
      exact (h.good d).congr (helse d · hd)
  · rw [hcur]
    dsimp only
    by_cases hd : d = c
    · subst hd
      simpa using hmine l
    · rw [update_of_ne (h.cur_ne hd)]
      exact (hother l d hd).trans (h.locks l d)
  · rw [hrun'] at hd hd'
    exact h.sole p d d' hd hd'
  · rw [hrun'] at hd
    dsimp only
    rw [update_of_ne (Inv.sched_ne hd)]
    exact h.away p d hd
  · simp only [hrun'] at hq
    dsimp only at hst ⊢
    rw [update_of_ne (Inv.proc_ne hq)]
    rw [show slot' q = s.slot q from hslot q (hq c)] at hst ⊢
    exact h.parked q hq hst
  · rw [hrun'] at hd
    dsimp only at hcode ⊢
    have hcode' := hnone d hd (by rw [hcode]; simp [slotOf])
    rw [hcode'] at hcode
    have hapart := h.apart d q hd (by rw [hcode]; rfl)
    rw [show slot' q = s.slot q from hslot q (hapart c)]
    exact h.loading d q qs r hd hcode
  · rw [hrun'] at hd
    simp only [hrun'] at hcode ⊢
    have hcode' := hnone d hd (by rw [hcode]; simp)
    rw [hcode'] at hcode
    exact h.apart d q hd hcode
  · simp only [hrun'] at hst ⊢
    by_cases hq : (s.cpu c).running = some q
    · exact Or.inl ⟨c, hq⟩
    · rw [hslot q hq] at hst
      refine (h.busy q hst).imp id ?_
      rintro ⟨d, qs, r, hd, hcode⟩
      refine ⟨d, qs, r, hd, ?_⟩
      rw [update_of_ne fun he => ?_]
      · exact hcode
      · have hdc : d = c := by
          by_contra hdc
          exact h.cur_ne hdc (by rw [cur_of_none hd, he])
        subst hdc
        have := hold hd
        rw [cur_of_none hd, hcode] at this
        cases this

end Xv6.Cpus
