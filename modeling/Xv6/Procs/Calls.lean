import Xv6.Procs.Actions

/-!
# Every call keeps the discipline

The programs of `proc.c`, action by action, and from them the invariant of every run.
-/

namespace Xv6.Procs

open Xv6.Foundation

set_option autoImplicit false

variable {n : Nat} {nz calm : Prop} {ini p q : Fin n} {l : Hold n} {Q : Unit → Hold n → Prop}
  {f : Facts n} {c i : Nat}

theorem wp_release_lock {lk : Lock n} (hw : lk ≠ .wait)
    (hlk : lk ∉ l.locks) (hme : l.me = .running) (hnap : l.nap = false)
    (hprey : l.facts.prey = none) (h : Q () l) :
    (rules nz calm ini).wp p (act (.release lk)) (l.lock lk) Q := by
  apply wp_release
  · simp
  · exact hw
  · simp [hme]
  · simp [hnap]
  · simp [hprey]
  · rwa [Hold.unlock_lock l hlk]

theorem Hold.forget_wait (hlk : .wait ∉ l.locks) (hfacts : l.facts = .none) :
    (((l.lock .wait).know f).unlock .wait).know .none = l := by
  have : ((l.lock .wait).unlock .wait).know l.facts = l := by rw [Hold.unlock_lock l hlk]; rfl
  rwa [hfacts] at this

theorem wp_release_wait_lock (hlk : .wait ∉ l.locks)
    (hfacts : l.facts = .none) (hleave : f.leaving = false) (h : Q () l) :
    (rules nz calm ini).wp p (act (.release .wait)) ((l.lock .wait).know f) Q := by
  apply wp_release_wait
  · simp
  · exact hleave
  · rwa [Hold.forget_wait hlk hfacts]

/-! ## `fork` -/

/-- The process has got slot `q`. -/
def forking (q : Fin n) (b : Bool) : Hold n := { Hold.base with child := some (q, b) }

theorem wp_setupProc (trapframe pagetable : Bool) {Q : Option (Fin n) → Hold n → Prop}
    (hs : Q (some q) ((forking q false).lock (.proc q))) (hn : Q none .base) :
    (rules nz calm ini).wp p (setupProc q trapframe pagetable)
      ((forking q false).lock (.proc q)) Q := by
  apply Logic.wp_ite
  · intro _
    exact hs
  · intro _
    apply Logic.wp_bind
    apply wp_freeproc rfl
    apply Logic.wp_bind
    apply wp_release_lock (l := .base) (by simp) (by simp [Hold.base]) rfl rfl rfl
    exact hn

theorem wp_allocproc (trapframe pagetable : Bool) (qs : List (Fin n))
    {Q : Option (Fin n) → Hold n → Prop}
    (hs : ∀ q, Q (some q) ((forking q false).lock (.proc q))) (hn : Q none .base) :
    (rules nz calm ini).wp p (allocproc trapframe pagetable qs) .base Q := by
  induction qs with
  | nil => exact hn
  | cons q qs ih =>
    apply Logic.wp_bind
    apply wp_acquire
    intro hlk
    apply Logic.wp_bind
    apply wp_take rfl rfl
    · exact wp_setupProc trapframe pagetable (hs q) hn
    · apply Logic.wp_bind
      apply wp_release_lock (by simp) hlk rfl rfl rfl
      exact ih

theorem wp_fork (trapframe pagetable copied : Bool) :
    (rules nz calm ini).wp p (fork trapframe pagetable copied) .base
      fun _ l => l.Rest := by
  apply Logic.wp_bind
  apply wp_allocproc
  · intro q
    apply Logic.wp_ite
    · intro _
      apply Logic.wp_bind
      apply wp_getPid rfl
      intro pid
      apply Logic.wp_bind
      apply wp_release_lock (l := forking q false) (by simp) (by simp [forking, Hold.base]) rfl rfl rfl
      apply Logic.wp_bind
      apply wp_acquire
      intro _
      apply Logic.wp_bind
      apply wp_setParent rfl (by simp) rfl
      apply Logic.wp_bind
      apply wp_release_wait_lock (l := forking q true) (f := .none) (by simp [forking, Hold.base]) rfl
        rfl
      apply Logic.wp_bind
      apply wp_acquire
      intro hlk
      apply Logic.wp_bind
      apply wp_setRunnable rfl
      apply Logic.wp_bind
      apply wp_release_lock (l := .base) (by simp) (by simp [Hold.base]) rfl rfl rfl
      exact Hold.rest_base
    · intro _
      apply Logic.wp_bind
      apply wp_freeproc rfl
      apply Logic.wp_bind
      apply wp_release_lock (l := .base) (by simp) (by simp [Hold.base]) rfl rfl rfl
      exact Hold.rest_base
  · exact Hold.rest_base

/-! ## `sleep` and `wakeup` -/

theorem wp_wakeup_other {c : Option (Chan n)} (qs : List (Fin n)) (hme : l.me = .running)
    (hnap : l.nap = false) (hprey : l.facts.prey = none) (h : Q () l) :
    (rules nz calm ini).wp p (wakeupFrom c qs) l Q := by
  induction qs with
  | nil => exact h
  | cons q qs ih =>
    apply Logic.wp_bind
    apply wp_myproc
    apply Logic.wp_ite
    · intro _
      exact ih
    · intro _
      apply Logic.wp_bind
      apply wp_acquire
      intro hlk
      apply Logic.wp_bind
      apply wp_wakeSlot
      apply Logic.wp_bind
      apply wp_release_lock (by simp) hlk hme hnap hprey
      exact ih

/-- A `wakeup` by the holder of `wait_lock`: in the end the process named does not sleep in `wait`. -/
theorem wp_wakeup_awake {r : Fin n} (qs : List (Fin n)) (f : Facts n) (hw : .wait ∈ l.locks)
    (hme : l.me = .running) (hnap : l.nap = false) (hprey : f.prey = none)
    (h : ∀ a, f.awake ⊆ a → (r ∈ qs → r ≠ p → r ∈ a) → Q () (l.know { f with awake := a })) :
    (rules nz calm ini).wp p (wakeupFrom (some (.proc r)) qs) (l.know f) Q := by
  induction qs generalizing f with
  | nil => exact h f.awake Finset.Subset.rfl (by simp)
  | cons q qs ih =>
    apply Logic.wp_bind
    apply wp_myproc
    apply Logic.wp_ite
    · rintro rfl
      apply ih f hprey
      intro a hsub hr
      exact h a hsub fun hmem hne => hr ((List.mem_cons.mp hmem).resolve_left hne) hne
    · intro hqp
      apply Logic.wp_bind
      apply wp_acquire
      intro hlk
      apply Logic.wp_bind
      by_cases hqr : q = r
      · subst hqr
        apply wp_wakeSlot_awake (by simp [hw]) (by simp) hqp
        apply Logic.wp_bind
        apply wp_release_lock (l := l.know { f with awake := insert q f.awake }) (by simp) hlk hme
          hnap hprey
        apply ih { f with awake := insert q f.awake } hprey
        intro a hsub hr
        refine h a (fun x hx => hsub (Finset.mem_insert_of_mem hx)) fun _ _ => ?_
        exact hsub (Finset.mem_insert_self q f.awake)
      · apply wp_wakeSlot
        apply Logic.wp_bind
        apply wp_release_lock (by simp) hlk hme hnap hprey
        apply ih f hprey
        intro a hsub hr
        exact h a hsub fun hmem => hr ((List.mem_cons.mp hmem).resolve_left (Ne.symm hqr))

theorem wp_sched (hme : l.me = .parked) (hlocks : .proc p ∉ l.locks) (hc : l.child = none)
    (hfacts : l.facts = .none) (hprobe : l.probe = false) (hdoomed : l.doomed = false)
    {m : PM n Unit}
    (h : (rules nz calm ini).wp p m ({ l with me := .running, nap := false }.lock (.proc p)) Q) :
    (rules nz calm ini).wp p (do act .schedOut; act .schedIn; m) (l.lock (.proc p)) Q := by
  apply Logic.wp_bind
  apply wp_schedOut (l := l.lock (.proc p)) (by simp) hme hfacts
  rw [Hold.unlock_lock l hlocks]
  apply Logic.wp_bind
  apply wp_schedIn hme hc hprobe hdoomed
  intro _
  exact h

theorem wp_yield (h : Q () .base) : (rules nz calm ini).wp p yield .base Q := by
  apply Logic.wp_bind
  apply wp_myproc
  apply Logic.wp_bind
  apply wp_acquire
  intro hlk
  apply Logic.wp_bind
  apply wp_setYield rfl rfl rfl rfl
  apply wp_sched (l := { Hold.base with me := .parked }) rfl (by simp [Hold.base]) rfl rfl rfl rfl
  apply wp_release_lock (l := .base) (by simp) hlk rfl rfl rfl
  exact h

theorem Hold.unlock_lock_lock {a b : Lock n} (ha : a ∉ l.locks) (hab : a ≠ b) :
    ((l.lock a).lock b).unlock a = l.lock b := by
  simp [Hold.lock, Hold.unlock, Finset.erase_insert_of_ne hab.symm, Finset.erase_insert ha]

theorem wp_slept {c : Chan n} {lk : Lock n} {b d t : Bool}
    (hnap : t = true → c = .proc p) (hchan : c = .proc p → t = true)
    (h : Q () (Hold.base.lock lk)) : (rules nz calm ini).wp p (do
      act (.setSleeping c b)
      act .schedOut
      act .schedIn
      act .clearChan
      act (.release (.proc p))
      act (.acquire lk))
      ({ Hold.base with nap := t, probe := b, doomed := d }.lock (.proc p)) Q := by
  apply Logic.wp_bind
  apply wp_setSleeping rfl rfl id hnap hchan
  apply wp_sched (l := { Hold.base with nap := t, me := .parked }) rfl (by simp [Hold.base]) rfl rfl
    rfl rfl
  apply Logic.wp_bind
  apply wp_clearChan rfl
  apply Logic.wp_bind
  apply wp_release_lock (l := .base) (by simp) (by simp [Hold.base]) rfl rfl rfl
  apply wp_acquire
  intro _
  exact h

theorem wp_sleep {b d : Bool} (h : Q () (Hold.base.lock (.other i))) :
    (rules nz calm ini).wp p (sleep (.other c) (.other i) b)
      ({ Hold.base with probe := b, doomed := d }.lock (.other i)) Q := by
  apply Logic.wp_bind
  apply wp_myproc
  apply Logic.wp_bind
  apply wp_acquire
  intro _
  apply Logic.wp_bind
  apply wp_release (by simp) (by simp) (by simp) (by simp) (by simp [Hold.base, Facts.none])
  rw [Hold.unlock_lock_lock (by simp [Hold.base]) (by simp)]
  exact wp_slept (t := false) (by simp) (by simp) h

theorem wp_sleep_wait {d : Bool}
    (hleave : f.leaving = false) (hseen : ∀ q, q ∈ f.seen) (h : Q () (Hold.base.lock .wait)) :
    (rules nz calm ini).wp p (sleep (.proc p) .wait true)
      ({ Hold.base with facts := f, probe := true, doomed := d }.lock .wait) Q := by
  apply Logic.wp_bind
  apply wp_myproc
  apply Logic.wp_bind
  apply wp_acquire
  intro _
  apply Logic.wp_bind
  apply wp_release_doze (by simp) (by simp) rfl hleave hseen
  rw [Hold.unlock_lock_lock (by simp [Hold.base]) (by simp)]
  exact wp_slept (t := true) (by simp) (by simp) h

/-! ## The loops that sleep -/

theorem wp_loopTurns (ts : List Turn) (d : Bool) :
    (rules nz calm ini).wp p (loopTurns (.other c) (.other i) ts)
      ({ Hold.base with doomed := d }.lock (.other i)) fun _ l => l.Rest := by
  -- with `killed` found to be 1, or the loop over, the lock is released
  have hleave : ∀ (d : Bool) (v : Int), (rules nz calm ini).wp p
      (do act (.release (.other i)); pure v) ({ Hold.base with doomed := d }.lock (.other i))
      fun _ l => l.Rest := by
    intro d v
    apply Logic.wp_bind
    apply wp_release_lock (l := { Hold.base with doomed := d }) (by simp) (by simp [Hold.base]) rfl
      rfl rfl
    exact Or.inr ⟨d, rfl⟩
  induction ts generalizing d with
  | nil =>
    apply Logic.wp_bind
    exact wp_stuck
  | cons t ts ih =>
    cases t with
    | done => exact hleave d 0
    | go =>
      apply Logic.wp_bind
      apply wp_getKilled rfl
      · exact hleave true (-1)
      · exact ih false
    | sleep =>
      apply Logic.wp_bind
      apply wp_getKilled rfl
      · exact hleave true (-1)
      · apply Logic.wp_bind
        apply wp_sleep (b := true) (d := false)
        exact ih false

theorem wp_deafTurns (rounds : Nat) :
    (rules nz calm ini).wp p (deafTurns (.other c) (.other i) rounds)
      (Hold.base.lock (.other i)) fun _ l => l.Rest := by
  induction rounds with
  | zero =>
    apply Logic.wp_bind
    apply wp_release_lock (by simp) (by simp [Hold.base]) rfl rfl rfl
    exact Hold.rest_base
  | succ rounds ih =>
    apply Logic.wp_bind
    exact wp_sleep (b := false) (d := false) ih

/-! ## `wait` -/

/-- In `wait`, with `wait_lock` held and some facts known. -/
def waiting (f : Facts n) : Hold n := Hold.base.lock .wait |>.know f

theorem wp_leave_wait {d : Bool} (hleave : f.leaving = false) (v : Int) :
    (rules nz calm ini).wp p (do act (.release .wait); pure v)
      { waiting f with doomed := d } fun _ l => l.Rest := by
  apply Logic.wp_bind
  apply wp_release_wait_lock (l := { Hold.base with doomed := d }) (by simp [Hold.base]) rfl hleave
  exact Or.inr ⟨d, rfl⟩

theorem wp_reapChild (addr copied : Bool) (hleave : f.leaving = false) :
    (rules nz calm ini).wp p (reapChild addr copied q)
      ((waiting { f with prey := some ⟨q, none, none⟩ }).lock (.proc q)) fun _ l => l.Rest := by
  -- the last two releases, with no facts or with the child still there
  have hrelease : ∀ (f : Facts n) (v : Int), f.leaving = false →
      (rules nz calm ini).wp p (do act (.release (.proc q)); act (.release .wait); pure v)
        ((waiting { f with prey := none }).lock (.proc q)) fun _ l => l.Rest := by
    intro f v hf
    apply Logic.wp_bind
    apply wp_release_lock (by simp) (by simp [waiting, Hold.base]) rfl rfl rfl
    exact wp_leave_wait (f := { f with prey := none }) (d := false) hf v
  apply Logic.wp_bind
  apply wp_getPid_prey (by simp [waiting]) rfl
  intro pid
  apply Logic.wp_ite
  · intro _
    apply Logic.wp_ite
    · intro _
      apply Logic.wp_bind
      apply wp_getXstate (by simp [waiting]) rfl
      intro status
      apply Logic.wp_bind
      apply wp_reap (by simp [waiting]) rfl rfl rfl (fun x hx => hx) hleave
      exact hrelease .none pid rfl
    · intro _
      apply Logic.wp_bind
      apply wp_report (Or.inl rfl)
      exact hrelease f (-1) hleave
  · intro _
    apply Logic.wp_bind
    apply wp_reap (by simp [waiting]) rfl rfl rfl (by simp) hleave
    exact hrelease .none pid rfl

/-- The scan ends with a ZOMBIE child or with the whole table seen. -/
theorem wp_waitScan (addr copied : Bool) (qs : List (Fin n)) (havekids : Bool) (f : Facts n)
    (hleave : f.leaving = false) (hprey : f.prey = none) {Q : Int ⊕ Bool → Hold n → Prop}
    (hl : ∀ v l, l.Rest → Q (.inl v) l)
    (hr : ∀ b f', f'.leaving = false → (∀ q ∈ f.seen, q ∈ f'.seen) → (∀ q ∈ qs, q ∈ f'.seen) →
      (b = false → havekids = false ∧ (∀ q ∈ f.barren, q ∈ f'.barren) ∧ ∀ q ∈ qs, q ∈ f'.barren) →
      Q (.inr b) (waiting f')) :
    (rules nz calm ini).wp p (waitScan addr copied havekids qs) (waiting f) Q := by
  induction qs generalizing havekids f with
  | nil => exact hr havekids f hleave (fun _ h => h) (by simp) fun hb => ⟨hb, fun _ h => h, by simp⟩
  | cons q qs ih =>
    apply Logic.wp_bind
    apply wp_isChild (by simp [waiting])
    · apply Logic.wp_bind
      apply wp_acquire
      intro hlk
      apply Logic.wp_bind
      apply wp_isZombie (by simp [waiting]) (by simp) rfl
      · apply Logic.wp_bind
        apply Logic.wp_mono (wp_reapChild addr copied (f := { f with kid := some q }) hleave)
        exact fun v l hrest => hl v l hrest
      · apply Logic.wp_bind
        apply wp_release_lock
          (l := waiting { f with kid := some q, seen := insert q f.seen }) (by simp) hlk rfl rfl hprey
        apply ih true { f with kid := some q, seen := insert q f.seen } hleave hprey
        intro b f' hleave' hsub hqs hb
        refine hr b f' hleave' (fun x hx => hsub x (Finset.mem_insert_of_mem hx)) ?_ ?_
        · simpa using ⟨hsub q (Finset.mem_insert_self q f.seen), hqs⟩
        · exact fun hfalse => by cases (hb hfalse).1
    · apply ih havekids { f with barren := insert q f.barren, seen := insert q f.seen } hleave hprey
      intro b f' hleave' hsub hqs hb
      refine hr b f' hleave' (fun x hx => hsub x (Finset.mem_insert_of_mem hx)) ?_ ?_
      · simpa using ⟨hsub q (Finset.mem_insert_self q f.seen), hqs⟩
      · intro hfalse
        obtain ⟨hk, hbarren, hqs'⟩ := hb hfalse
        refine ⟨hk, fun x hx => hbarren x (Finset.mem_insert_of_mem hx), ?_⟩
        simpa using ⟨hbarren q (Finset.mem_insert_self q f.barren), hqs'⟩

theorem wp_waitRounds (addr copied : Bool) (rounds : Nat) :
    (rules nz calm ini).wp p (waitRounds addr copied rounds) (waiting .none)
      fun _ l => l.Rest := by
  induction rounds with
  | zero =>
    apply Logic.wp_bind
    exact wp_stuck
  | succ rounds ih =>
    apply Logic.wp_bind
    apply wp_waitScan addr copied (slots n) false .none rfl rfl
    · exact fun v l hrest => hrest
    · intro havekids f hleave _ hseen hnot
      have hall : ∀ q, q ∈ f.seen := fun q => hseen q (List.mem_finRange q)
      apply Logic.wp_ite
      · intro _
        apply Logic.wp_bind
        apply wp_getKilled rfl
        · apply Logic.wp_bind
          apply wp_report (Or.inr (Or.inr ⟨rfl, rfl⟩))
          exact wp_leave_wait (f := { f with prey := none }) (d := true) hleave (-1)
        · apply Logic.wp_bind
          apply wp_myproc
          apply Logic.wp_bind
          apply wp_sleep_wait (f := f) (d := false) hleave hall
          exact ih
      · intro hk
        obtain ⟨-, -, hbarren⟩ := hnot (by simpa using hk)
        apply Logic.wp_bind
        apply wp_report (Or.inr (Or.inl ⟨rfl, fun q => hbarren q (List.mem_finRange q)⟩))
        exact wp_leave_wait (f := { f with prey := none }) (d := false) hleave (-1)

/-! ## `exit` -/

/-- In `exit`, with `wait_lock` held: nobody but `init` gets children, and it is woken for each. -/
theorem wp_reparentFrom (hne : p ≠ ini) (qs : List (Fin n)) (f : Facts n) (hprey : f.prey = none)
    (hfather : f.father = none) (hinit : f.leaving = true → ini ∈ f.awake)
    (h : ∀ f', f'.prey = none → (f'.leaving = true → ini ∈ f'.awake) →
      (∀ q ∈ f.barren, q ∈ f'.barren) → (∀ q ∈ qs, q ∈ f'.barren) → Q () (waiting f')) :
    (rules nz calm ini).wp p (reparentFrom ini qs) (waiting f) Q := by
  induction qs generalizing f with
  | nil => exact h f hprey hinit (fun _ h => h) (by simp)
  | cons q qs ih =>
    apply Logic.wp_bind
    apply wp_isChild (by simp [waiting])
    · apply Logic.wp_bind
      apply wp_giveInit (by simp [waiting]) hne rfl rfl hprey hfather
      apply Logic.wp_bind
      apply wp_wakeup_awake (l := waiting .none) (r := ini) (slots n)
        (Facts.give { f with kid := some q } ini q) (by simp [waiting]) rfl rfl hprey
      intro a hsub hawake
      have hini : ini ∈ a := hawake (List.mem_finRange ini) (Ne.symm hne)
      apply ih { Facts.give { f with kid := some q } ini q with awake := a } hprey hfather
        fun _ => hini
      intro f' hprey' hinit' hbarren hqs
      refine h f' hprey' hinit' (fun x hx => hbarren x (Finset.mem_insert_of_mem hx)) ?_
      simpa using ⟨hbarren q (Finset.mem_insert_self q f.barren), hqs⟩
    · apply ih { f with barren := insert q f.barren, seen := insert q f.seen } hprey hfather hinit
      intro f' hprey' hinit' hbarren hqs
      refine h f' hprey' hinit' (fun x hx => hbarren x (Finset.mem_insert_of_mem hx)) ?_
      simpa using ⟨hbarren q (Finset.mem_insert_self q f.barren), hqs⟩

theorem wp_exit (status : Int) :
    (rules nz calm ini).wp p (exit ini status) .base fun _ l => l.Rest := by
  apply Logic.wp_bind
  apply wp_notInit
  intro hne
  apply Logic.wp_bind
  apply wp_acquire
  intro _
  apply Logic.wp_bind
  apply wp_reparentFrom hne (slots n) .none rfl rfl (by simp [Facts.none])
  intro f hprey hinit _ hbarren
  apply Logic.wp_bind
  apply wp_getParent (by simp [waiting]) rfl hne
  intro r
  apply Logic.wp_bind
  apply wp_wakeup_awake (l := waiting .none) (r := r) (slots n) { f with father := some r }
    (by simp [waiting]) rfl rfl hprey
  intro a hsub hawake
  apply Logic.wp_bind
  apply wp_myproc
  apply Logic.wp_bind
  apply wp_acquire
  intro _
  apply Logic.wp_bind
  apply wp_setZombie (r := r) (by simp [waiting]) (by simp) hne rfl rfl rfl rfl
    (fun q => hbarren q (List.mem_finRange q)) rfl (hawake (List.mem_finRange r))
    fun hl => hsub (hinit hl)
  apply Logic.wp_bind
  apply wp_release_wait (by simp [waiting]) rfl
  apply Logic.wp_bind
  apply wp_schedOut_gone (by simp [waiting]) rfl rfl rfl rfl rfl
  refine Or.inl ?_
  simp [Hold.idle, Hold.base, waiting, Hold.lock, Hold.unlock, Hold.know, Finset.erase_insert_of_ne]

/-! ## `kill` -/

theorem wp_killFrom (pid : Int) (qs : List (Fin n)) :
    (rules nz calm ini).wp p (killFrom pid qs) .base fun _ l => l.Rest := by
  induction qs with
  | nil => exact Hold.rest_base
  | cons q qs ih =>
    apply Logic.wp_bind
    apply wp_acquire
    intro hlk
    apply Logic.wp_bind
    apply wp_killSlot
    intro found
    apply Logic.wp_bind
    apply wp_release_lock (by simp) hlk rfl rfl rfl
    apply Logic.wp_ite
    · exact fun _ => Hold.rest_base
    · exact fun _ => ih

/-! ## All calls -/

theorem wp_prog (c : Call) : (rules nz calm ini).wp p (prog ini c) .base fun _ l => l.Rest := by
  cases c with
  | fork trapframe pagetable copied => exact wp_fork trapframe pagetable copied
  | exit status => exact wp_exit status
  | wait addr copied rounds =>
    apply Logic.wp_bind
    apply wp_acquire
    intro _
    exact wp_waitRounds addr copied rounds
  | kill pid => exact wp_killFrom pid (slots n)
  | yield =>
    apply Logic.wp_bind
    apply wp_yield
    exact Hold.rest_base
  | trap =>
    apply Logic.wp_bind
    apply wp_trap rfl rfl
    exact wp_exit (-1)
  | loop c lk turns =>
    apply Logic.wp_bind
    apply wp_acquire
    intro _
    exact wp_loopTurns turns false
  | deaf c lk rounds =>
    apply Logic.wp_bind
    apply wp_acquire
    intro _
    exact wp_deafTurns rounds
  | wakeup c =>
    apply Logic.wp_bind
    apply wp_wakeup_other (slots n) rfl rfl rfl
    exact Hold.rest_base

theorem enter_eq {k k' : Kernel n} (h : enter p k = some k') :
    ((k.proc p).state = .running ∨ (k.proc p).state = .runnable) ∧
      k' = k.setProc p { k.proc p with state := .running } := by
  unfold enter at h
  split_ifs at h with hrun hready
  · obtain rfl := Option.some.inj h
    refine ⟨Or.inl hrun, ?_⟩
    simp [Kernel.setProc, ← hrun]
  · exact ⟨Or.inr hready.1, (Option.some.inj h).symm⟩

theorem calls : (rules nz calm ini).Calls := by
  intro p c r k k' ls hi hrest henter
  refine ⟨.base, ?_, wp_prog c⟩
  obtain ⟨hst, rfl⟩ := enter_eq henter
  have hst' : (k.proc p).state ≠ .used ∧ (k.proc p).state ≠ .zombie ∧ (k.proc p).state ≠ .unused ∧
      (k.proc p).state.Active := by
    rcases hst with hst | hst <;> simp [hst]
  obtain ⟨hused, hzombie, hunused, hactive⟩ := hst'
  obtain ⟨hlocks, hnap, hchild, hfacts, hprobe⟩ : (ls p).locks = ∅ ∧ (ls p).nap = false ∧
      (ls p).child = none ∧ (ls p).facts = .none ∧ (ls p).probe = false := by
    rcases hrest with hl | ⟨d, hl⟩ <;> rw [hl] <;> exact ⟨rfl, rfl, rfl, rfl, rfl⟩
  apply Inv.of_update_proc rfl
  · simpa [Kernel.setProc, Hold.base, ← hlocks] using hi.locks
  · simpa [Kernel.setProc, Hold.base, ← hlocks, ← hchild] using hi.own.setSelf (p := p)
      (t := .running) (m := .running) hused hchild (by simp [Stage])
  · simpa [Kernel.setProc, Hold.base, ← hchild] using hi.kin.setActive (q := p) (t := .running)
      hactive (by simp)
  · simpa [Kernel.setProc, Hold.base, ← hlocks, ← hfacts] using hi.watch.setState (q := p)
      (t := .running) (i := (k.proc p).pid) (x := (k.proc p).xstate) hzombie (by simp)
  · simpa [Kernel.setProc, Hold.base, ← hlocks, ← hfacts] using hi.naps.rise (p := p)
      (t := .running) (c := (k.proc p).chan) (by simp) (by simp)
  · simpa [Kernel.setProc, Hold.base, ← hfacts] using hi.story.setState (q := p)
      (t := .running) (i := (k.proc p).pid) (x := (k.proc p).xstate) hzombie (by simp)
  · simpa [Kernel.setProc, Hold.base] using (hi.kills.setState (q := p) (t := .running) hunused
      (by simp)).setMe (p := p) (m := .running) (d := false) (by simp)
  · simpa [Kernel.setProc, Hold.base, ← hprobe] using (hi.tests.setState (q := p) (t := .running)
      (by simp)).setPhase (p := p) (m := .running) fun _ => rfl

theorem boot_cases (ini q : Fin n) :
    (q = ini ∧ (boot ini).proc q = ⟨.runnable, 1, false, none, 0, none⟩) ∨
      (q ≠ ini ∧ (boot ini).proc q = .empty) := by
  by_cases hq : q = ini
  · exact Or.inl ⟨hq, by simp [boot, hq]⟩
  · exact Or.inr ⟨hq, by simp [boot, hq]⟩

theorem inv_boot : Inv nz calm ini (boot ini) fun _ => .idle := by
  have hparent : ∀ q, ((boot ini).proc q).parent = none := by
    intro q
    rcases boot_cases ini q with ⟨-, hq⟩ | ⟨-, hq⟩ <;> simp [hq, Proc.empty]
  have hkilled : ∀ q, ((boot ini).proc q).killed = false := by
    intro q
    rcases boot_cases ini q with ⟨-, hq⟩ | ⟨-, hq⟩ <;> simp [hq, Proc.empty]
  have hstate : ∀ q, ((boot ini).proc q).state ≠ .sleeping ∧ ((boot ini).proc q).state ≠ .zombie := by
    intro q
    rcases boot_cases ini q with ⟨-, hq⟩ | ⟨-, hq⟩ <;> simp [hq, Proc.empty]
  constructor
  · exact ⟨fun l p => by simp [boot, Hold.idle]⟩
  · exact ⟨fun p => (hstate p).1, by simp [Hold.idle], by simp [Hold.idle]⟩
  · refine ⟨fun q _ => hparent q, fun q hlive hne => ?_, by simp [hparent], ?_, by simp [Hold.idle]⟩
    · rcases boot_cases ini q with ⟨hq, -⟩ | ⟨-, hq⟩
      · exact (hne hq).elim
      · simp [hq, Proc.empty, ProcState.Live] at hlive
    · simp [boot]
  · exact ⟨fun _ _ => rfl, fun _ => Facts.good_none ..⟩
  · constructor <;> simp [Hold.idle, Facts.none, hstate]
  · refine ⟨fun q hq => ((hstate q).2 hq).elim, ?_, by simp [hparent], rfl, trivial⟩
    simp [boot, lastExit]
  · refine ⟨fun q hq => ?_, fun _ q _ => hkilled q, by simp [hkilled], ?_, by simp [Hold.idle]⟩
    · rcases boot_cases ini q with ⟨-, hq'⟩ | ⟨-, hq'⟩
      · simp [hq'] at hq
      · simp [hq', Proc.empty]
    · simp [boot, struckOf]
  · exact ⟨fun _ => rfl, by simp [Hold.idle], fun _ q _ => hkilled q, fun _ q _ _ => hkilled q⟩

section
variable {t : List (Label (Fin n) Call)} {σ : Sys (Fin n) (Act n) Act.Answer (Kernel n) Panic Int}
  (hrun : Run ((machine ini).Step fun _ => Guard nz calm) (init ini) t σ)
include hrun

theorem kept_rules : (rules nz calm ini).Kept σ := by
  refine Logic.Kept.run calls ?_ hrun
  refine ⟨⟨fun _ => .idle, inv_boot, fun p => ?_⟩, by simp [init]⟩
  exact Or.inl rfl

theorem kept : (discipline nz calm ini).Kept σ :=
  (kept_rules hrun).weaken fun _ _ _ => Orderly.safe

end

theorem run_guarded {t : List (Label (Fin n) Call)}
    {σ : Sys (Fin n) (Act n) Act.Answer (Kernel n) Panic Int}
    (hrun : Run ((machine ini).Step fun _ _ _ => True) (init ini) t σ) :
    Run ((machine ini).Step fun _ => Guard False False) (init ini) t σ := by
  refine hrun.mono fun _ _ _ h => h.mono fun _ a _ _ => ?_
  cases a with
  | killSlot q pid => exact ⟨False.elim, False.elim⟩
  | _ => trivial

end Xv6.Procs
