import Xv6.Procs.Calls

/-!
# Pids

`allocpid` counts in an `int`. As long as the counter has not wrapped around, the pids of the
processes are positive and distinct.
-/

namespace Xv6.Procs

open Xv6.Foundation Function

set_option autoImplicit false

variable {n : Nat} {ini p q : Fin n} {k k' : Kernel n}

/-- How many pids have been allocated. -/
def allocations : List (Event n) → Nat
  | [] => 0
  | .allocated _ _ :: t => allocations t + 1
  | _ :: t => allocations t

/-- What an action does to the pids: it takes an UNUSED slot, or leaves the counter alone, and a slot
that is in use afterwards has the pid that it had. -/
inductive Change (k k' : Kernel n) : Prop where
  | take {q : Fin n} : (k.proc q).state = .unused → k' = (takeAct q k).1 → Change k k'
  | keep : k'.nextpid = k.nextpid → allocations k'.log = allocations k.log →
      (∀ q, (k'.proc q).state ≠ .unused → (k'.proc q).pid = (k.proc q).pid ∧
        ((k.proc q).state = .unused → (k'.proc q).state.Live ∧
          (k'.proc q).parent = (k.proc q).parent)) → Change k k'

theorem Change.of_proc_eq (hnext : k'.nextpid = k.nextpid)
    (hlog : allocations k'.log = allocations k.log) (hproc : k'.proc = k.proc) : Change k k' := by
  refine .keep hnext hlog fun q hq => ?_
  rw [hproc] at hq ⊢
  exact ⟨rfl, fun hu => (hq hu).elim⟩

theorem Change.of_update {x : Proc n} (hnext : k'.nextpid = k.nextpid)
    (hlog : allocations k'.log = allocations k.log) (hproc : k'.proc = update k.proc q x)
    (hx : x.state ≠ .unused → x.pid = (k.proc q).pid ∧
      ((k.proc q).state = .unused → x.state.Live ∧ x.parent = (k.proc q).parent)) :
    Change k k' := by
  refine .keep hnext hlog fun r hr => ?_
  rw [hproc] at hr ⊢
  by_cases hrq : r = q
  · subst hrq
    rw [update_self] at hr ⊢
    exact hx hr
  · rw [update_of_ne hrq] at hr ⊢
    exact ⟨rfl, fun hu => (hr hu).elim⟩

theorem exec_change {a : Act n} {r : a.Answer} (h : exec ini p a k = .ok r k') : Change k k' := by
  cases a with
  | myproc | getPid | isChild | getParent | isZombie | getXstate =>
    cases h
    exact .of_proc_eq rfl rfl rfl
  | report | getKilled =>
    cases h
    exact .of_proc_eq rfl rfl rfl
  | stuck => cases h
  | notInit =>
    simp only [exec] at h
    split at h
    · cases h
    · cases h
      exact .of_proc_eq rfl rfl rfl
  | acquire l | release l | schedOut =>
    simp only [exec] at h
    split_ifs at h
    cases h
    exact .of_proc_eq rfl rfl rfl
  | take q =>
    cases h
    by_cases hu : (k.proc q).state = .unused
    · exact .take hu rfl
    · rw [takeAct, if_neg hu]
      exact .of_proc_eq rfl rfl rfl
  | freeproc q | reap q pid status =>
    cases h
    exact .of_update rfl rfl rfl fun hx => (hx rfl).elim
  | setParent q | giveInit q =>
    cases h
    exact .of_update rfl rfl rfl fun hx => ⟨rfl, fun hu => (hx hu).elim⟩
  | clearChan | trap =>
    cases h
    exact .of_update rfl rfl rfl fun hx => ⟨rfl, fun hu => (hx hu).elim⟩
  | setRunnable q | setYield =>
    cases h
    exact .of_update rfl rfl rfl fun _ => ⟨rfl, fun _ => ⟨Or.inl (Or.inr (Or.inl rfl)), rfl⟩⟩
  | setZombie status =>
    cases h
    exact .of_update rfl rfl rfl fun _ => ⟨rfl, fun _ => ⟨Or.inr rfl, rfl⟩⟩
  | setSleeping c loop =>
    cases h
    exact .of_update rfl rfl rfl fun _ => ⟨rfl, fun _ => ⟨Or.inl (Or.inr (Or.inr rfl)), rfl⟩⟩
  | schedIn =>
    simp only [exec] at h
    split_ifs at h
    cases h
    exact .of_update rfl rfl rfl fun _ => ⟨rfl, fun _ => ⟨Or.inl (Or.inl rfl), rfl⟩⟩
  | wakeSlot q c =>
    cases h
    unfold wakeSlotAct
    split_ifs with hs
    · exact .of_update rfl rfl rfl fun _ => ⟨rfl, fun hu => by simp [hu] at hs⟩
    · exact .of_proc_eq rfl rfl rfl
  | killSlot q pid =>
    cases h
    unfold killSlotAct
    split_ifs with hpid hs
    · exact .of_update rfl rfl rfl fun _ => ⟨rfl, fun hu => by simp [hu] at hs⟩
    · exact .of_update rfl rfl rfl fun hx => ⟨rfl, fun hu => (hx hu).elim⟩
    · exact .of_proc_eq rfl rfl rfl

/-! ## The counter -/

theorem int32_add_one (x : Int) : int32 (int32 x + 1) = int32 (x + 1) := by
  unfold int32
  omega

theorem int32_of_lt {x : Int} (h0 : 0 ≤ x) (h : x < 2 ^ 31) : int32 x = x := by
  unfold int32
  omega

/-- Before the counter wraps around, the pids in use are among those allocated, and distinct. -/
structure Pids (k : Kernel n) : Prop where
  next : k.nextpid = int32 (allocations k.log + 1)
  range : allocations k.log < 2 ^ 31 → ∀ q, (k.proc q).state ≠ .unused →
    0 < (k.proc q).pid ∧ (k.proc q).pid ≤ allocations k.log
  distinct : allocations k.log < 2 ^ 31 → ∀ q r, (k.proc q).state ≠ .unused →
    (k.proc r).state ≠ .unused → (k.proc q).pid = (k.proc r).pid → q = r

theorem pids_boot (ini : Fin n) : Pids (boot ini) := by
  have huse : ∀ q, ((boot ini).proc q).state ≠ .unused → q = ini := by
    intro q hq
    rcases boot_cases ini q with ⟨h, -⟩ | ⟨-, h⟩
    · exact h
    · rw [h] at hq
      exact (hq rfl).elim
  refine ⟨by simp [boot, allocations, int32], fun _ q hq => ?_, fun _ q r hq hr _ => ?_⟩
  · rw [huse q hq]
    simp [boot, allocations]
  · rw [huse q hq, huse r hr]

theorem Pids.take (h : Pids k) (hu : (k.proc q).state = .unused) : Pids (takeAct q k).1 := by
  rw [takeAct, if_pos hu]
  have hcount : ∀ i, allocations (.allocated q i :: k.log) = allocations k.log + 1 := fun _ => rfl
  -- the slots other than `q` keep their pids
  have hother : ∀ r, r ≠ q → ∀ x, update k.proc q x r = k.proc r := fun r hr x =>
    update_of_ne hr ..
  have hnew : allocations k.log + 1 < 2 ^ 31 → k.nextpid = allocations k.log + 1 := by
    intro hlt
    rw [h.next, int32_of_lt (by omega) (by omega)]
  refine ⟨?_, fun hlt r hr => ?_, fun hlt r r' hr hr' he => ?_⟩
  · simp only [Kernel.note, h.next, int32_add_one]
    rfl
  · simp only [Kernel.note, Kernel.setProc, hcount] at hlt hr ⊢
    by_cases hrq : r = q
    · subst hrq
      simp only [update_self, hnew hlt]
      omega
    · rw [hother r hrq] at hr ⊢
      have := h.range (by omega) r hr
      omega
  · simp only [Kernel.note, Kernel.setProc, hcount] at hlt hr hr' he
    by_cases hrq : r = q <;> by_cases hrq' : r' = q
    · rw [hrq, hrq']
    · rw [hother r' hrq'] at hr' he
      simp only [hrq, update_self, hnew hlt] at he
      have := h.range (by omega) r' hr'
      omega
    · rw [hother r hrq] at hr he
      simp only [hrq', update_self, hnew hlt] at he
      have := h.range (by omega) r hr
      omega
    · rw [hother r hrq] at hr he
      rw [hother r' hrq'] at hr' he
      exact h.distinct (by omega) r r' hr hr' he

section
variable {nz calm : Prop} {ls ls' : Fin n → Hold n}

/-- Only `take` puts a slot into use: a process that can run has a parent, or is `init`. -/
theorem Inv.used_before (hi : Inv nz calm ini k ls) (hi' : Inv nz calm ini k' ls')
    (hlive : (k.proc q).state = .unused →
      (k'.proc q).state.Live ∧ (k'.proc q).parent = (k.proc q).parent) :
    (k.proc q).state ≠ .unused := by
  intro hu
  obtain ⟨hl, hp⟩ := hlive hu
  by_cases hq : q = ini
  · have hactive := hi.kin.init
    simp only [← hq, hu] at hactive
    rcases hactive with h | h | h <;> cases h
  · exact hi'.kin.live q hl hq (hp.trans (hi.kin.unused q hu))

theorem Pids.change (h : Pids k) (hi : Inv nz calm ini k ls) (hi' : Inv nz calm ini k' ls')
    (hc : Change k k') : Pids k' := by
  cases hc with
  | take hu hk =>
    rw [hk]
    exact h.take hu
  | keep hnext hlog hproc =>
    have hbefore : ∀ q, (k'.proc q).state ≠ .unused → (k.proc q).state ≠ .unused := fun q hq =>
      hi.used_before hi' (hproc q hq).2
    refine ⟨by rw [hnext, hlog, h.next], fun hlt q hq => ?_, fun hlt q r hq hr he => ?_⟩
    · rw [hlog] at hlt ⊢
      rw [(hproc q hq).1]
      exact h.range hlt q (hbefore q hq)
    · rw [hlog] at hlt
      rw [(hproc q hq).1, (hproc r hr).1] at he
      exact h.distinct hlt q r (hbefore q hq) (hbefore r hr) he

end

variable {t : List (Label (Fin n) Call)} {σ : Sys (Fin n) (Act n) Act.Answer (Kernel n) Panic Int}

theorem enter_change (h : enter p k = some k') : Change k k' := by
  obtain ⟨-, rfl⟩ := enter_eq h
  exact .of_update rfl rfl rfl fun _ => ⟨rfl, fun _ => ⟨Or.inl (Or.inl rfl), rfl⟩⟩

theorem pids_of_run (hrun : Run ((machine ini).Step fun _ _ _ => True) (init ini) t σ) :
    Pids σ.shared := by
  refine Run.invariant (I := fun _ σ => Pids σ.shared) (pids_boot ini) ?_ ?_ hrun
  · rintro t σ σ' _ _ ⟨l, hl, _⟩
    cases hl
  · intro t σ σ' e hr hp hs
    obtain ⟨⟨ls, hi, -⟩, -⟩ := kept_rules (run_guarded hr)
    obtain ⟨⟨ls', hi', -⟩, -⟩ := kept_rules (run_guarded (hr.event hs))
    obtain ⟨l, -, hstep, -⟩ := hs
    rcases (machine ini).step_cases hstep with ⟨p, c, s, rfl, -, henter, rfl⟩ |
      ⟨p, a, m, r, s, rfl, -, he, rfl⟩ | ⟨p, a, m, e, rfl, -, -, rfl⟩
    · exact hp.change hi hi' (enter_change henter)
    · exact hp.change hi hi' (exec_change he)
    · exact hp

/-! ## The result -/

/-- `fork` from where its allocations have succeeded: it returns the pid that it reads. -/
def started (q : Fin n) : PM n Int := do
  let pid : Int ← act (.getPid q)
  act (.release (.proc q))
  act (.acquire .wait)
  act (.setParent q)
  act (.release .wait)
  act (.acquire (.proc q))
  act (.setRunnable q)
  act (.release (.proc q))
  pure pid

/-- In every run in which fewer than 2³¹ pids are allocated: the pids of the processes are positive;
no other slot has the pid of a process; and the pid that a successful `fork` reads and returns is
positive. -/
theorem pids_unique (hrun : Run ((machine ini).Step fun _ _ _ => True) (init ini) t σ)
    (hfew : allocations σ.shared.log < 2 ^ 31) :
    (∀ q, (σ.shared.proc q).state ≠ .unused → 0 < (σ.shared.proc q).pid) ∧
    (∀ q r, (σ.shared.proc q).state ≠ .unused →
      (σ.shared.proc r).pid = (σ.shared.proc q).pid → r = q) ∧
    (∀ p q, σ.thread p = started q → 0 < (σ.shared.proc q).pid) := by
  have hpids := pids_of_run hrun
  have hkept := kept_rules (run_guarded hrun)
  have hpos : ∀ q, (σ.shared.proc q).state ≠ .unused → 0 < (σ.shared.proc q).pid := fun q hq =>
    (hpids.range hfew q hq).1
  refine ⟨hpos, fun q r hq he => ?_, fun p q hthread => hpos q ?_⟩
  · by_cases hr : (σ.shared.proc r).state = .unused
    · obtain ⟨⟨ls, hi, -⟩, -⟩ := hkept
      have hzero : (σ.shared.proc r).pid = 0 := hi.kills.zero r hr
      have := hpos q hq
      omega
    · exact hpids.distinct hfew r q hr hq he
  · have hnext : σ.next? p = some (.getPid q) := by
      rw [Sys.next?, hthread]
      rfl
    exact hkept.safe hnext trivial

/-- `init` forks a child, the child exits, and `init` waits for it. -/
def generation : List (Label (Fin 2) Call) :=
  .call 0 (.fork true true true) :: List.replicate 13 (.run 0) ++
    .call 1 (.exit 0) :: List.replicate 15 (.run 1) ++
    .call 0 (.wait false false 1) :: List.replicate 9 (.run 0)

/-- Only `init` is there, between two calls. -/
def alone (st : ProcState) (i : Int) (log : List (Event 2)) (r : Int) :
    Sys (Fin 2) (Act 2) Act.Answer (Kernel 2) Panic Int where
  shared :=
    { proc := Function.update (fun _ => .empty) 0 ⟨st, 1, false, none, 0, none⟩
      holder := fun _ => none
      nextpid := i
      log := log
      testing := fun _ => false
      loop := fun _ => false }
  thread := Function.update (fun _ => .ret 0) 0 (.ret r)
  panicked := none

theorem sys_ext {σ σ' : Sys (Fin 2) (Act 2) Act.Answer (Kernel 2) Panic Int}
    (hproc : σ.shared.proc = σ'.shared.proc) (hholder : σ.shared.holder = σ'.shared.holder)
    (hnext : σ.shared.nextpid = σ'.shared.nextpid) (hlog : σ.shared.log = σ'.shared.log)
    (htesting : σ.shared.testing = σ'.shared.testing) (hloop : σ.shared.loop = σ'.shared.loop)
    (hthread : σ.thread = σ'.thread) (hpanicked : σ.panicked = σ'.panicked) : σ = σ' := by
  obtain ⟨⟨_, _, _, _, _, _⟩, _, _⟩ := σ
  obtain ⟨⟨_, _, _, _, _, _⟩, _, _⟩ := σ'
  simp only at hproc hholder hnext hlog htesting hloop hthread hpanicked
  subst_vars
  rfl

theorem forall_lock {P : Lock 2 → Prop} (hw : P .wait) (h0 : P (.proc 0)) (h1 : P (.proc 1))
    (ho : ∀ i, P (.other i)) (l : Lock 2) : P l := by
  cases l with
  | wait => exact hw
  | proc p => exact (Fin.forall_fin_two (p := fun p => P (.proc p))).mpr ⟨h0, h1⟩ p
  | other i => exact ho i

theorem runs_generation {st : ProcState} (hst : st = .running ∨ st = .runnable) (i : Int)
    (log : List (Event 2)) (r : Int) : ∃ log',
    (machine 0).runs (fun _ _ _ => true) generation (alone st i log r) =
      some (alone .running (int32 (i + 1)) log' i) := by
  obtain ⟨log', σ, hσ, h⟩ : ∃ log' σ,
      (machine 0).runs (fun _ _ _ => true) generation (alone st i log r) = some σ ∧
        σ = alone .running (int32 (i + 1)) log' i := by
    rcases hst with rfl | rfl
    all_goals
      refine ⟨_, _, rfl, sys_ext ?_ ?_ rfl rfl ?_ ?_ ?_ rfl⟩
      · exact funext (Fin.forall_fin_two.mpr ⟨rfl, rfl⟩)
      · exact funext (forall_lock rfl rfl rfl fun _ => rfl)
      · exact funext (Fin.forall_fin_two.mpr ⟨rfl, rfl⟩)
      · exact funext (Fin.forall_fin_two.mpr ⟨rfl, rfl⟩)
      · exact funext (Fin.forall_fin_two.mpr ⟨rfl, rfl⟩)
  exact ⟨log', hσ.trans (congrArg some h)⟩

theorem init_eq_alone : init (0 : Fin 2) = alone .runnable 2 [.allocated 0 1] 0 := by
  refine sys_ext rfl rfl rfl rfl rfl rfl ?_ rfl
  exact funext (Fin.forall_fin_two.mpr ⟨rfl, rfl⟩)

theorem reaches_alone (c : Nat) : ∃ t st log r, (st = .running ∨ st = .runnable) ∧
    Run ((machine (0 : Fin 2)).Step fun _ _ _ => True) (init 0) t
      (alone st (int32 (2 + c)) log r) := by
  induction c with
  | zero => exact ⟨[], .runnable, [.allocated 0 1], 0, Or.inr rfl, init_eq_alone ▸ Run.refl⟩
  | succ c ih =>
    obtain ⟨t, st, log, r, hst, hrun⟩ := ih
    obtain ⟨log', hgen⟩ := runs_generation hst (int32 (2 + c)) log r
    rw [int32_add_one] at hgen
    exact ⟨_, .running, log', _, Or.inl rfl, Machine.run_of_any hrun hgen⟩

theorem reaches_started (c : Nat) : ∃ t σ,
    Run ((machine (0 : Fin 2)).Step fun _ _ _ => True) (init 0) t σ ∧
      σ.thread 0 = started 1 ∧ (σ.shared.proc 0).state ≠ .unused ∧ (σ.shared.proc 0).pid = 1 ∧
      (σ.shared.proc 1).state ≠ .unused ∧ (σ.shared.proc 1).pid = int32 (2 + c) := by
  obtain ⟨t, st, log, r, hst, hrun⟩ := reaches_alone c
  have hfork : ∃ σ, (machine 0).runs (fun _ _ _ => true)
      (.call 0 (.fork true true true) :: List.replicate 5 (.run 0))
      (alone st (int32 (2 + c)) log r) = some σ ∧
      σ.thread 0 = started 1 ∧ (σ.shared.proc 0).state = .running ∧ (σ.shared.proc 0).pid = 1 ∧
      (σ.shared.proc 1).state = .used ∧ (σ.shared.proc 1).pid = int32 (2 + c) := by
    rcases hst with rfl | rfl
    · exact ⟨_, rfl, rfl, rfl, rfl, rfl, rfl⟩
    · exact ⟨_, rfl, rfl, rfl, rfl, rfl, rfl⟩
  obtain ⟨σ, hσ, hthread, h0, hpid0, h1, hpid1⟩ := hfork
  exact ⟨_, σ, Machine.run_of_any hrun hσ, hthread, by simp [h0], hpid0, by simp [h1], hpid1⟩

theorem pids_unique_first : ∃ t σ,
    Run ((machine (0 : Fin 2)).Step fun _ _ _ => True) (init 0) t σ ∧
      σ.thread 0 = started 1 ∧ 0 < (σ.shared.proc 1).pid := by
  have hrun : Run ((machine (0 : Fin 2)).Step fun _ _ _ => True) (init 0) [] (init 0) := Run.refl
  obtain ⟨σ, hσ, hlog, hthread⟩ : ∃ σ, (machine 0).runs (fun _ _ _ => true)
      (.call 0 (.fork true true true) :: List.replicate 5 (.run 0)) (init (0 : Fin 2)) = some σ ∧
      σ.shared.log = [.allocated 1 2, .allocated 0 1] ∧ σ.thread 0 = started 1 :=
    ⟨_, rfl, rfl, rfl⟩
  have hrun' := Machine.run_of_any hrun hσ
  refine ⟨_, σ, hrun', hthread, (pids_unique hrun' ?_).2.2 0 1 hthread⟩
  rw [hlog]
  decide

/-- After 2³¹ allocations a process has a negative pid, and later a `fork` is about to return -1 for
a child that it has made, and a child gets the pid of `init`. -/
theorem pids_wrap :
    (∃ t σ, Run ((machine (0 : Fin 2)).Step fun _ _ _ => True) (init 0) t σ ∧
      ∃ q, (σ.shared.proc q).state ≠ .unused ∧ (σ.shared.proc q).pid < 0) ∧
    (∃ t σ, Run ((machine (0 : Fin 2)).Step fun _ _ _ => True) (init 0) t σ ∧
      ∃ p q, σ.thread p = started q ∧ (σ.shared.proc q).pid = -1) ∧
    (∃ t σ, Run ((machine (0 : Fin 2)).Step fun _ _ _ => True) (init 0) t σ ∧
      ∃ q r, q ≠ r ∧ (σ.shared.proc q).state ≠ .unused ∧ (σ.shared.proc r).state ≠ .unused ∧
        (σ.shared.proc q).pid = (σ.shared.proc r).pid) := by
  refine ⟨?_, ?_, ?_⟩
  · obtain ⟨t, σ, hrun, -, -, -, h1, hpid⟩ := reaches_started (2 ^ 31 - 2)
    refine ⟨t, σ, hrun, 1, h1, ?_⟩
    rw [hpid]
    decide
  · obtain ⟨t, σ, hrun, hthread, -, -, -, hpid⟩ := reaches_started (2 ^ 32 - 3)
    refine ⟨t, σ, hrun, 0, 1, hthread, ?_⟩
    rw [hpid]
    decide
  · obtain ⟨t, σ, hrun, -, h0, hpid0, h1, hpid1⟩ := reaches_started (2 ^ 32 - 1)
    refine ⟨t, σ, hrun, 0, 1, by decide, h0, h1, ?_⟩
    rw [hpid0, hpid1]
    decide

end Xv6.Procs
