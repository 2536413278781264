import Xv6.Cpus.Runs

/-!
# Interrupts follow the thread

`noff` and `intena` belong to a CPU, and the nesting of `push_off` to a thread, which `sched` may
move from one CPU to another. Whether a thread has interrupts on where nothing is open is what it has
set itself; other threads, on any CPU, do not change it.
-/

namespace Xv6.Cpus

open Xv6.Foundation
open Xv6.Procs (ProcState)

set_option autoImplicit false

variable {T C : Type} [DecidableEq T] [DecidableEq C] {s s' : State T C} {c : C} {p : T}

/-- The step is not one by which `p` itself turns interrupts on or off, nor one that makes another
process of slot `p`. -/
def quiet (p : T) (s : State T C) : Label T C → Bool
  | .step c =>
    match (s.thread (s.cur c)).code with
    | .intr _ :: _ => decide (s.cur c ≠ .proc p)
    | .visit q .alloc :: _ => decide (q = p → (s.slot p).state ≠ .unused)
    | _ => true
  | _ => true

def quietExec (p : T) (l : Label T C) (s : State T C) : Option (State T C × Option (Label T C)) :=
  if quiet p s l then execute l s else none

def QuietStep (p : T) (s : State T C) (l : Option (Label T C)) (s' : State T C) : Prop :=
  ∃ l', l = some l' ∧ step s l' = .ok () s' ∧ quiet p s l' = true

theorem quietStep_of_exec {l : Label T C} {e : Option (Label T C)}
    (h : quietExec p l s = some (s', e)) : QuietStep p s e s' := by
  obtain ⟨hq, h⟩ := Option.ite_none_right_eq_some.mp h
  obtain ⟨rfl, hs⟩ := execute_eq_some h
  exact ⟨l, rfl, hs, hq⟩

theorem QuietStep.step {l : Option (Label T C)} (h : QuietStep p s l s') : Step s l s' := by
  obtain ⟨l, rfl, hs, -⟩ := h
  exact ⟨l, rfl, hs⟩

def HasSet (p : T) (e : Bool) (s : State T C) : Prop :=
  (s.thread (.proc p)).pt.en = e ∧ (s.slot p).ctx ≠ .fresh

omit [DecidableEq C] in
theorem Point.after_en {t : Thread T C} {x y : Point T} {i : Instr T} (h : x.after t i = some y)
    (hintr : ∀ b, i ≠ .intr b) : y.en = x.en := by
  by_cases hgone : x.mode = .gone
  · rw [Point.after_gone hgone] at h
    cases h
    rfl
  rw [Point.after_of_not_gone hgone] at h
  by_cases hret : i = .sret
  · subst hret
    simp only [Point.effect, Option.ite_none_right_eq_some, Option.some.injEq] at h
    obtain ⟨-, rfl⟩ := h
    rfl
  · exact (Point.effect_keeps h hret hintr).2

namespace HasSet
variable {e : Bool} {t : Thread T C}

variable (h : HasSet p e s)
include h

theorem setThread {L : Local T}
    (hL : t = .proc p → L.pt.en = (s.thread t).pt.en) : HasSet p e (s.setThread t L) := by
  refine ⟨?_, h.2⟩
  by_cases ht : t = .proc p
  · subst ht
    rw [State.setThread_thread, Function.update_self, hL rfl]
    exact h.1
  · rw [State.setThread_thread, Function.update_of_ne (Ne.symm ht)]
    exact h.1

theorem setCode (t : Thread T C) (code : List (Instr T)) :
    HasSet p e (s.setCode t code) := h.setThread fun _ => rfl

theorem advance {i : Instr T}
    (hi : t = .proc p → ∀ b, i ≠ .intr b) (r : List (Instr T)) : HasSet p e (s.advance t i r) := by
  refine h.setThread fun ht => ?_
  cases ha : (s.thread t).pt.after t i with
  | none => rfl
  | some y => exact Point.after_en ha (hi ht)

omit [DecidableEq C] in
theorem setSlot {q : T} {z : Slot} (hz : q = p → z.ctx ≠ .fresh) : HasSet p e (s.setSlot q z) := by
  refine ⟨h.1, ?_⟩
  by_cases hq : p = q
  · subst hq
    simpa using hz rfl
  · simpa [hq] using h.2

omit [DecidableEq C] in
theorem setState (q : T) (st : ProcState) :
    HasSet p e (s.setSlot q { s.slot q with state := st }) :=
  h.setSlot fun hq => by
    subst hq
    exact h.2

theorem visitSlot {q : T} {v : Visit}
    (hv : q = p → v = .alloc → (s.slot p).state ≠ .unused) : HasSet p e (visitSlot q v s) := by
  unfold Cpus.visitSlot
  split
  · exact h.setState q _
  · rename_i hst
    have hq : q ≠ p := by
      rintro rfl
      exact hv rfl rfl hst
    exact (h.setSlot fun he => absurd he hq).setThread fun he => absurd (by simpa using he) hq
  · exact h.setState q _
  · exact h.setState q _
  · exact h.setState q _
  · exact h

theorem toProcess (c : C) (q : T) : HasSet p e (toProcess c q s) := by
  refine HasSet.setThread (HasSet.setSlot ?_ fun _ => by simp) fun hq => ?_
  · exact h
  · cases hq
    simp [h.2]

theorem exec {i : Instr T} {r : List (Instr T)} (hi : t = .proc p → ∀ b, i ≠ .intr b)
    (ha : i = .visit p .alloc → (s.slot p).state ≠ .unused)
    (hs : Cpus.exec c t r s i = .ok () s') : HasSet p e s' := by
  -- the instructions that only change the CPU, the locks, or the slot of the process on it
  have hcpu : ∀ {x : Cpu T}, HasSet p e (s.setCpu c x) := h
  have hlock : ∀ {l : Lock T} {o : Option C}, HasSet p e (s.setHolder l o) := h
  cases i with
  | intr b =>
    cases hs
    exact hcpu.advance hi r
  | sret | off | restore =>
    cases hs
    exact hcpu.advance hi r
  | push =>
    cases hs
    exact h.setCode t _
  | pop =>
    simp only [Cpus.exec, popOff] at hs
    split at hs
    · rename_i hpop
      split at hpop
      · cases hpop
      · split at hpop
        · cases hpop
        · cases hpop
          cases hs
          exact hcpu.advance hi r
    · cases hs
    · cases hs
  | take l =>
    simp only [Cpus.exec] at hs
    split at hs
    · cases hs
      exact hlock.advance hi r
    · split at hs <;> cases hs
  | drop l =>
    simp only [Cpus.exec] at hs
    split at hs
    · cases hs
      exact hlock.advance hi r
    · cases hs
  | myproc =>
    simp only [Cpus.exec] at hs
    split at hs
    · cases hs
      exact h.advance hi r
    · cases hs
  | visit q v =>
    cases hs
    refine (h.visitSlot fun hq hv => ?_).advance hi r
    subst hq hv
    exact ha rfl
  | setState st =>
    simp only [Cpus.exec] at hs
    split at hs
    · cases hs
      exact (h.setState _ st).advance hi r
    · cases hs
  | sched =>
    simp only [Cpus.exec] at hs
    split at hs
    · split at hs
      · cases hs
        exact h.setCode t _
      · cases hs
    · cases hs
  | save b =>
    simp only [Cpus.exec] at hs
    split at hs
    · cases hs
      exact (h.setSlot fun _ => by simp).setCode t _
    · cases hs
  | jump b =>
    cases hs
    exact (show HasSet p e _ from h.advance hi (.restore b :: r)).setThread fun hq => by cases hq
  | dead => cases hs
  | scan qs =>
    cases qs <;>
    · cases hs
      exact h.setCode t _
  | pick q qs =>
    simp only [Cpus.exec] at hs
    split at hs
    · cases hs
      exact HasSet.setCode (h.setState q _) t _
    · cases hs
      exact h.setCode t _
  | load q qs =>
    simp only [Cpus.exec] at hs
    split at hs
    · cases hs
    · cases hs
      exact (h.setCode t _).toProcess c q
  | clear q qs =>
    cases hs
    exact hcpu.setCode t _

theorem step {l : Option (Label T C)} (hs : QuietStep p s l s') : HasSet p e s' := by
  obtain ⟨l, rfl, hstep, hquiet⟩ := hs
  have hbegin : ∀ (t : Thread T C) (code : List (Instr T)), begin t code s = .ok () s' →
      HasSet p e s' := by
    intro t code hb
    unfold begin at hb
    split at hb
    · cases hb
      exact h.setCode t code
    · cases hb
  cases l with
  | code c ops =>
    simp only [Cpus.step] at hstep
    split at hstep
    · exact hbegin _ _ hstep
    · cases hstep
  | loop c qs =>
    simp only [Cpus.step] at hstep
    split at hstep
    · cases hstep
    · exact hbegin _ _ hstep
  | irq c ops =>
    simp only [Cpus.step, interrupt] at hstep
    split at hstep
    · cases hstep
      exact HasSet.setThread (show HasSet p e (s.setCpu c _) from h) fun _ => rfl
    · cases hstep
  | step c =>
    simp only [Cpus.step] at hstep
    split at hstep
    · cases hstep
    · rename_i i r hcode
      simp only [quiet, hcode] at hquiet
      refine h.exec (fun hp b hi => ?_) (fun hi => ?_) hstep
      · subst hi
        simp [hp] at hquiet
      · subst hi
        simpa using hquiet

end HasSet

section
variable {ini : T}

/-- From any reachable state on, until the process turns interrupts on or off itself. -/
theorem set_of_run (hreach : Reaches ini s) (hp : (s.cpu c).running = some p)
    {ls : List (Label T C)} (hrun : Run (QuietStep p) s ls s') :
    Inv s' ∧ HasSet p (s.thread (.proc p)).pt.en s' := by
  have hbegun := ((hreach.inv.good c).self p hp).begun
  exact hrun.invariant (I := fun _ s' => Inv s' ∧ HasSet p (s.thread (.proc p)).pt.en s')
    ⟨hreach.inv, rfl, hbegun⟩ (fun _ _ _ _ hi hs => ⟨hi.1.kept hs.step, hi.2.step hs⟩)
    fun _ _ _ _ _ hi hs => ⟨hi.1.kept hs.step, hi.2.step hs⟩

/-- Interrupts are off on a CPU while `noff` is not 0. And take any two moments at which some CPUs
execute process `p`, such that it has not turned interrupts on or off itself in between: if it is as
deep in nested `push_off` at both, and in an interrupt handler at both or at neither, interrupts are
on at the second if they are at the first. So it is where `p` has finished what it had to do before
the first, and again before the second. -/
theorem interrupts_follow_thread (hreach : Reaches ini s) :
    (∀ c, 0 < (s.cpu c).noff → (s.cpu c).intr = false) ∧
    ∀ (p : T) (c c' : C) (s' : State T C) (ls : List (Label T C)), Run (QuietStep p) s ls s' →
      (s.cpu c).running = some p → (s'.cpu c').running = some p →
      ((s.cpu c).noff = (s'.cpu c').noff →
        (s.thread (.proc p)).pt.irq = (s'.thread (.proc p)).pt.irq →
        (s'.cpu c').intr = (s.cpu c).intr) ∧
      ((s.thread (.proc p)).code = [] → (s'.thread (.proc p)).code = [] →
        (s'.cpu c').intr = (s.cpu c).intr) := by
  refine ⟨fun c hpos => (hreach.inv.good c).intr_off ?_, fun p c c' s' ls hrun hp hp' => ?_⟩
  · rw [← (hreach.inv.good c).noff]
    exact hpos
  have hg := hreach.inv.good c
  obtain ⟨hinv', hen, -⟩ := set_of_run hreach hp hrun
  have hg' := hinv'.good c'
  rw [cur_of_running hp] at hg
  rw [cur_of_running hp'] at hg'
  have hsame : (s.cpu c).noff = (s'.cpu c').noff →
      (s.thread (.proc p)).pt.irq = (s'.thread (.proc p)).pt.irq →
      (s'.cpu c').intr = (s.cpu c).intr := by
    intro hnoff hirq
    rw [hg.intr, hg'.intr, ← hg.noff, ← hg'.noff, hnoff, Point.eff, Point.eff, hirq, hen]
  refine ⟨hsame, fun hnil hnil' => hsame ?_ ?_⟩
  · rw [hg.noff, hg'.noff, (hg.idle_of_nil hnil).1, (hg'.idle_of_nil hnil').1]
  · rw [(hg.idle_of_nil hnil).2, (hg'.idle_of_nil hnil').2]

end

/-- The first process is taken up by one CPU and has come back from `forkret`. -/
def started : List (Label Unit Bool) :=
  .loop false [()] :: List.replicate 13 (.step false)

/-- It yields, and the other CPU takes it up. -/
def moved : List (Label Unit Bool) :=
  .code false [.yield] :: List.replicate 19 (.step false) ++
    .loop true [()] :: List.replicate 10 (.step true)

def afterStarted : State Unit Bool := after (quietExec ()) started (boot () Bool)

def afterMoved : State Unit Bool := after (quietExec ()) moved afterStarted

theorem interrupts_follow_thread_moved :
    (afterStarted.cpu false).running = some () ∧ (afterMoved.cpu true).running = some () ∧
      (afterStarted.cpu false).intr = true ∧ (afterMoved.cpu true).intr = true := by
  obtain ⟨t, hq⟩ : ∃ t, Run (QuietStep ()) (boot () Bool) t afterStarted :=
    Run.after (fun _ _ _ _ h => quietStep_of_exec h) (by decide +kernel)
  have hs : Reaches () afterStarted := ⟨_, hq.mono fun _ _ _ h => h.step⟩
  obtain ⟨t', hm⟩ : ∃ t, Run (QuietStep ()) afterStarted t afterMoved :=
    Run.after (fun _ _ _ _ h => quietStep_of_exec h) (by decide +kernel)
  have hrun : (afterStarted.cpu false).running = some () := by decide +kernel
  have hrun' : (afterMoved.cpu true).running = some () := by decide +kernel
  have hon : (afterStarted.cpu false).intr = true := by decide +kernel
  have hsame := ((interrupts_follow_thread hs).2 () false true _ _ hm hrun hrun').2
    (List.isEmpty_iff.mp (by decide +kernel)) (List.isEmpty_iff.mp (by decide +kernel))
  exact ⟨hrun, hrun', hon, hsame.trans hon⟩

end Xv6.Cpus
