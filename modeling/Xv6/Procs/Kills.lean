import Xv6.Procs.Calls

/-!
# What `kill` strikes, and whether it is noticed

`kill` compares `p->pid` with its argument in every slot, the UNUSED ones too, whose pid is 0; and the
loops that test `killed` do so before they hold the lock that `kill` takes.
-/

namespace Xv6.Procs

open Xv6.Foundation

set_option autoImplicit false

variable {n : Nat} {ini p q : Fin n} {qs : List (Fin n)} {k : Kernel n}

/-! ## `kill` by itself -/

theorem setHolder_setHolder {l : Lock n} {o : Option (Fin n)}
    (h : k.holder l = none) : (k.setHolder l o).setHolder l none = k := by
  simp [Kernel.setHolder, ← h]

theorem killSlotAct_setHolder (k : Kernel n) (l : Lock n) (o : Option (Fin n)) (pid : Int) :
    killSlotAct q pid (k.setHolder l o) =
      ((killSlotAct q pid k).1.setHolder l o, (killSlotAct q pid k).2) := by
  by_cases h : (k.proc q).pid = pid
  · rw [killSlotAct, if_pos (show ((k.setHolder l o).proc q).pid = pid from h), killSlotAct,
      if_pos h]
    rfl
  · rw [killSlotAct, if_neg (show ((k.setHolder l o).proc q).pid ≠ pid from h), killSlotAct,
      if_neg h]

theorem killSlotAct_holder (k : Kernel n) (pid : Int) :
    (killSlotAct q pid k).1.holder = k.holder := by
  unfold killSlotAct
  split <;> rfl

theorem run_killFrom_cons {pid : Int} (hfree : k.holder (.proc q) = none) :
    Prog.run (exec ini p) (killFrom pid (q :: qs)) k =
      if (k.proc q).pid = pid then .ok 0 (killSlotAct q pid k).1
      else Prog.run (exec ini p) (killFrom pid qs) k := by
  have hacquire : exec ini p (.acquire (.proc q)) k =
      .ok () (k.setHolder (.proc q) (some p)) := by simp [exec, hfree]
  have hrelease : exec ini p (.release (.proc q))
      ((killSlotAct q pid k).1.setHolder (.proc q) (some p)) = .ok () (killSlotAct q pid k).1 := by
    simp only [exec]
    rw [if_pos (by simp [Kernel.setHolder]), setHolder_setHolder]
    rw [killSlotAct_holder, hfree]
  have hslot : exec ini p (.killSlot q pid) (k.setHolder (.proc q) (some p)) =
      .ok (killSlotAct q pid k).2 ((killSlotAct q pid k).1.setHolder (.proc q) (some p)) := by
    simp only [exec, killSlotAct_setHolder]
  have hrun : Prog.run (exec ini p) (killFrom pid (q :: qs)) k =
      Prog.run (exec ini p) (if (killSlotAct q pid k).2 then pure 0 else killFrom pid qs)
        (killSlotAct q pid k).1 := by
    simp only [killFrom, act, Prog.lift, bind, Prog.bind, Prog.run, hacquire, hslot, hrelease]
  rw [hrun]
  by_cases h : (k.proc q).pid = pid
  · rw [killSlotAct, if_pos h, if_pos h, if_pos rfl]
    rfl
  · rw [killSlotAct, if_neg h, if_neg h, if_neg (by simp)]

/-- What a `kill` that runs by itself has found. -/
theorem run_killFrom {k k' : Kernel n} {pid r : Int}
    (h : Prog.run (exec ini p) (killFrom pid qs) k = .ok r k') :
    (r = -1 ∧ k' = k ∧ ∀ q ∈ qs, (k.proc q).pid ≠ pid) ∨
      (r = 0 ∧ ∃ q ∈ qs, (k.proc q).pid = pid ∧ k' = (killSlotAct q pid k).1) := by
  induction qs with
  | nil =>
    cases h
    exact Or.inl ⟨rfl, rfl, by simp⟩
  | cons q qs ih =>
    by_cases hfree : k.holder (.proc q) = none
    · rw [run_killFrom_cons hfree] at h
      split_ifs at h with hpid
      · cases h
        exact Or.inr ⟨rfl, q, List.mem_cons_self, hpid, rfl⟩
      · rcases ih h with ⟨hr, hk, hne⟩ | ⟨hr, q', hq', hpid', hk⟩
        · exact Or.inl ⟨hr, hk, by simpa using ⟨hpid, hne⟩⟩
        · exact Or.inr ⟨hr, q', List.mem_cons_of_mem q hq', hpid', hk⟩
    · -- the lock is held: `kill` does not get past this slot
      have hstop : ∀ k', exec ini p (.acquire (.proc q)) k ≠ .ok () k' := by
        intro k' he
        simp only [exec, hfree, if_false] at he
        split_ifs at he
      simp only [killFrom, act, Prog.lift, bind, Prog.bind, Prog.run] at h
      split at h
      · exact (hstop _ ‹_›).elim
      · cases h
      · cases h

theorem exists_run_killFrom {pid : Int} (hfree : ∀ q, k.holder (.proc q) = none) :
    ∃ r k', Prog.run (exec ini p) (killFrom pid qs) k = .ok r k' := by
  induction qs with
  | nil => exact ⟨-1, k, rfl⟩
  | cons q qs ih =>
    rw [run_killFrom_cons (hfree q)]
    split
    · exact ⟨_, _, rfl⟩
    · exact ih

/-! ## Whom `kill` strikes -/

/-- The assumption: `kill` is not called with pid 0. -/
def NotZero : Act n → Prop
  | .killSlot _ pid => pid ≠ 0
  | _ => True

instance : DecidablePred (NotZero : Act n → Prop) := by
  intro a
  cases a <;> unfold NotZero <;> infer_instance

/-- In every run without a `kill(0)`: `killed` is set only in a process that `kill` or a trap has
struck since its slot was allocated, and not in an UNUSED slot; a `kill` returns if no slot is locked,
and with 0 just if there is a process with that pid; and it changes that process only. -/
theorem kill_strikes_named {t : List (Label (Fin n) Call)}
    {σ : Sys (Fin n) (Act n) Act.Answer (Kernel n) Panic Int}
    (hrun : Run ((machine ini).Step fun _ a _ => NotZero a) (init ini) t σ) :
    (∀ q, (σ.shared.proc q).killed = true → struckOf q σ.shared.log = true) ∧
    (∀ q, (σ.shared.proc q).state = .unused → (σ.shared.proc q).killed = false) ∧
    (∀ p pid, (∀ q, σ.shared.holder (.proc q) = none) →
      ∃ r k', Prog.run (exec ini p) (kill pid) σ.shared = .ok r k') ∧
    ∀ p pid r k', pid ≠ 0 → Prog.run (exec ini p) (kill pid) σ.shared = .ok r k' →
      (r = 0 ↔ ∃ q, (σ.shared.proc q).state ≠ .unused ∧ (σ.shared.proc q).pid = pid) ∧
      (∀ q, k'.proc q ≠ σ.shared.proc q →
        (σ.shared.proc q).state ≠ .unused ∧ (σ.shared.proc q).pid = pid) ∧
      ∀ q q', k'.proc q ≠ σ.shared.proc q → k'.proc q' ≠ σ.shared.proc q' → q = q' := by
  have hkept : (discipline True False ini).Kept σ := by
    refine kept (hrun.mono fun _ _ _ h => h.mono fun _ a _ ha => ?_)
    cases a with
    | killSlot q pid => exact ⟨fun _ => ha, False.elim⟩
    | _ => trivial
  obtain ⟨⟨ls, hi, -⟩, -⟩ := hkept
  refine ⟨hi.kills.struck trivial, hi.kills.clean trivial,
    fun p pid hfree => exists_run_killFrom hfree, fun p pid r k' hpid hkill => ?_⟩
  have hused : ∀ q, (σ.shared.proc q).pid = pid → (σ.shared.proc q).state ≠ .unused := by
    intro q hq hu
    exact hpid (hq ▸ hi.kills.zero q hu)
  rcases run_killFrom hkill with ⟨rfl, rfl, hnone⟩ | ⟨rfl, q, -, hq, rfl⟩
  · refine ⟨⟨fun h => absurd h (by decide), ?_⟩, fun q h => (h rfl).elim, fun q _ h => (h rfl).elim⟩
    rintro ⟨q, -, hq⟩
    exact (hnone q (List.mem_finRange q) hq).elim
  · have hchanged : ∀ q', (killSlotAct q pid σ.shared).1.proc q' ≠ σ.shared.proc q' → q' = q := by
      intro q' hne
      by_contra h'
      simp [killSlotAct, hq, Kernel.setProc, Kernel.note, h'] at hne
    refine ⟨⟨fun _ => ⟨q, hused q hq, hq⟩, fun _ => rfl⟩, fun q' h => ?_, fun q₁ q₂ h₁ h₂ => ?_⟩
    · rw [hchanged q' h]
      exact ⟨hused q hq, hq⟩
    · rw [hchanged q₁ h₁, hchanged q₂ h₂]

/-- `init` forks a child, whose pid is 2, and kills it. -/
def killChild : List (Label (Fin 2) Call) :=
  .call 0 (.fork true true true) :: List.replicate 13 (.run 0) ++
    .call 0 (.kill 2) :: List.replicate 6 (.run 0)

theorem kill_strikes_named_child :
    ∃ σ : Sys (Fin 2) (Act 2) Act.Answer (Kernel 2) Panic Int,
      Run ((machine 0).Step fun _ a _ => NotZero a) (init 0) killChild.reverse σ ∧
      (σ.shared.proc 1).killed = true ∧ struckOf 1 σ.shared.log = true := by
  have hsome : (((machine (0 : Fin 2)).runs (fun _ a _ => decide (NotZero a)) killChild (init 0)).map
      fun σ => (σ.shared.proc 1).killed) = some true := by
    decide +kernel
  obtain ⟨σ, hσ, hkilled⟩ := Option.map_eq_some_iff.mp hsome
  have hrun : Run ((machine (0 : Fin 2)).Step fun _ a _ => NotZero a) (init 0) killChild.reverse σ := by
    have := (machine (0 : Fin 2)).run_of_runs Run.refl hσ
    simpa using this
  exact ⟨σ, hrun, hkilled, (kill_strikes_named hrun).1 1 hkilled⟩

/-- `init` calls `kill(0)`, and forks a child. -/
def killZero : List (Label (Fin 2) Call) :=
  .call 0 (.kill 0) :: List.replicate 6 (.run 0) ++
    .call 0 (.fork true true true) :: List.replicate 13 (.run 0)

/-- `kill(0)` strikes an UNUSED slot, and the next child starts with `killed` set. -/
theorem kill_zero_strikes_next :
    ∃ σ : Sys (Fin 2) (Act 2) Act.Answer (Kernel 2) Panic Int,
      Run ((machine 0).Step fun _ _ _ => True) (init 0) killZero.reverse σ ∧
      (σ.shared.proc 1).state = .runnable ∧ (σ.shared.proc 1).killed = true ∧
      struckOf 1 σ.shared.log = false := by
  have hsome : (((machine (0 : Fin 2)).runs (fun _ _ _ => true) killZero (init 0)).map fun σ =>
      decide ((σ.shared.proc 1).state = .runnable ∧ (σ.shared.proc 1).killed = true ∧
        struckOf 1 σ.shared.log = false)) = some true := by
    decide +kernel
  obtain ⟨σ, hσ, hend⟩ := Option.map_eq_some_iff.mp hsome
  exact ⟨σ, by simpa using Machine.run_of_any Run.refl hσ, of_decide_eq_true hend⟩

/-! ## Whether the victim notices -/

/-- The assumption: no `kill` strikes a process between a test of `killed` and the `sleep` after it. -/
def Calm : Act n → Kernel n → Prop
  | .killSlot q pid, k => (k.proc q).pid = pid → k.testing q = false
  | _, _ => True

instance (a : Act n) (k : Kernel n) : Decidable (Calm a k) := by
  cases a <;> unfold Calm <;> infer_instance

/-- In every run in which no `kill` comes between a test and the `sleep` after it, a process that has
been struck does not sleep in a loop that tests `killed`. -/
theorem kill_not_slept_through {t : List (Label (Fin n) Call)}
    {σ : Sys (Fin n) (Act n) Act.Answer (Kernel n) Panic Int}
    (hrun : Run ((machine ini).Step fun _ a k => Calm a k) (init ini) t σ) (p : Fin n)
    (hstruck : struckOf p σ.shared.log = true) (hsleep : (σ.shared.proc p).state = .sleeping) :
    σ.shared.loop p = false := by
  have hkept : (discipline False True ini).Kept σ := by
    refine kept (hrun.mono fun _ _ _ h => h.mono fun _ a _ ha => ?_)
    cases a with
    | killSlot q pid => exact ⟨False.elim, fun _ => ha⟩
    | _ => trivial
  obtain ⟨⟨ls, hi, -⟩, -⟩ := hkept
  have hkilled := hi.kills.told p (by simp [hsleep]) hstruck
  by_contra hloop
  have := hi.tests.asleep trivial p hsleep (by simpa using hloop)
  rw [this] at hkilled
  cases hkilled

/-- The child is killed, and then sleeps in a loop that does not look at `killed`. -/
def killThenSleep : List (Label (Fin 2) Call) :=
  killChild ++ .call 1 (.deaf 0 0 1) :: List.replicate 6 (.run 1)

theorem kill_not_slept_through_deaf :
    ∃ σ : Sys (Fin 2) (Act 2) Act.Answer (Kernel 2) Panic Int,
      Run ((machine 0).Step fun _ a k => Calm a k) (init 0) killThenSleep.reverse σ ∧
      struckOf 1 σ.shared.log = true ∧ (σ.shared.proc 1).state = .sleeping ∧
      σ.shared.loop 1 = false := by
  have hsome : (((machine (0 : Fin 2)).runs (fun _ a k => decide (Calm a k)) killThenSleep
      (init 0)).map fun σ => decide (struckOf 1 σ.shared.log = true ∧
        (σ.shared.proc 1).state = .sleeping)) = some true := by
    decide +kernel
  obtain ⟨σ, hσ, hend⟩ := Option.map_eq_some_iff.mp hsome
  have hrun : Run ((machine (0 : Fin 2)).Step fun _ a k => Calm a k) (init 0)
      killThenSleep.reverse σ := by
    have := (machine (0 : Fin 2)).run_of_runs Run.refl hσ
    simpa using this
  obtain ⟨hstruck, hsleep⟩ := of_decide_eq_true hend
  exact ⟨σ, hrun, hstruck, hsleep, kill_not_slept_through hrun 1 hstruck hsleep⟩

/-- The child finds `killed` to be 0 in its loop; `init` kills it; and the child goes to sleep. -/
def sleepThrough : List (Label (Fin 2) Call) :=
  .call 0 (.fork true true true) :: List.replicate 13 (.run 0) ++
    .call 1 (.loop 0 0 [.sleep]) :: List.replicate 2 (.run 1) ++
    .call 0 (.kill 2) :: List.replicate 6 (.run 0) ++
    List.replicate 5 (.run 1)

/-- `kill` has returned 0, and the victim sleeps in its loop. -/
theorem kill_slept_through :
    ∃ σ : Sys (Fin 2) (Act 2) Act.Answer (Kernel 2) Panic Int,
      Run ((machine 0).Step fun _ _ _ => True) (init 0) sleepThrough.reverse σ ∧
      σ.Idle 0 ∧ struckOf 1 σ.shared.log = true ∧ (σ.shared.proc 1).killed = true ∧
      (σ.shared.proc 1).state = .sleeping ∧ σ.shared.loop 1 = true := by
  have hsome : (((machine (0 : Fin 2)).runs (fun _ _ _ => true) sleepThrough (init 0)).map fun σ =>
      decide (σ.Idle 0 ∧ struckOf 1 σ.shared.log = true ∧ (σ.shared.proc 1).killed = true ∧
        (σ.shared.proc 1).state = .sleeping ∧ σ.shared.loop 1 = true)) = some true := by
    decide +kernel
  obtain ⟨σ, hσ, hend⟩ := Option.map_eq_some_iff.mp hsome
  exact ⟨σ, by simpa using Machine.run_of_any Run.refl hσ, of_decide_eq_true hend⟩

end Xv6.Procs
