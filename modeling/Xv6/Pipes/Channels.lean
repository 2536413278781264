import Xv6.Foundation.Monitor
import Xv6.Pipes.Model

/-!
# The monitor of a channel

A process that sleeps on one channel of a pipe sees a monitor: a `wakeup` of the other channel does
not concern it, and a `sleep` on the other channel gives `pi->lock` back and waits for it. The data
of the monitor are the pipe and its history. What the users of a pipe do is a run of this monitor,
for each of the two channels.
-/

namespace Xv6.Pipes

open Xv6.Foundation Function

set_option autoImplicit false

variable {n : Nat}

/-- The pipe, and what has been seen of it. -/
abbrev Record (n : Nat) := Pipe × List (Event n)

def Turn.next (r : Turn n) (t : List (Event n)) : Monitor.Next (Record n) (PC n) Empty :=
  .goto (r.pipe, r.event.toList ++ t) r.pc

/-- What the holder of `pi->lock` does next, seen from `chan`. -/
def next (chan : Chan) (p : Fin n) (killed : Bool) (d : Record n) :
    PC n → Monitor.Next (Record n) (PC n) Empty
  | .idle => .done d none none
  | .enter k => (begin d.1 k).next d.2
  | .loop k => (stepLoop p killed d.1 k).next d.2
  | .copy m dst i => (stepCopy p d.1 m dst i).next d.2
  | .waking c [] k => .goto (d.1, .woke p c :: d.2) k.pc
  | .waking c (_ :: todo) k =>
    if c = chan then .wake d (.waking c [] k) else .goto d (.waking c todo k)
  | .sleep c .entering k => if c = chan then .sleep (.loop k) else .goto d (.sleep c .locked k)
  | .sleep _ _ k => .done d (some (.loop k)) none
  | .release r => .done (d.1, .returned p r :: d.2) none none

def enters : Option (PC n) → PC n → Bool
  | none, .enter _ => true
  | _, _ => false

def monitor (n : Nat) (chan : Chan) : Monitor.Program (Fin n) (Record n) (PC n) Bool Empty where
  procs := List.finRange n
  enters _ o k _ := enters o k
  outer _ _ _ := none
  next := next chan

/-- Where a process is in the monitor of `chan`. -/
def PC.view (chan : Chan) : PC n → Monitor.PC (Fin n) (PC n)
  | .idle => .idle
  | .enter k => .enter (.enter k)
  | .loop k => .body (.loop k)
  | .copy m dst i => .body (.copy m dst i)
  | .waking c todo k =>
    if c = chan then .waking todo (.waking c [] k) else .body (.waking c todo k)
  | .sleep c .entering k =>
    if c = chan then .sleep .entering (.loop k) else .body (.sleep c .entering k)
  | .sleep c .locked k =>
    if c = chan then .sleep .locked (.loop k) else .body (.sleep c .locked k)
  | .sleep c .released k => if c = chan then .sleep .released (.loop k) else .enter (.loop k)
  | .sleep c .set k => if c = chan then .sleep .set (.loop k) else .enter (.loop k)
  | .sleep c .parked k => if c = chan then .sleep .parked (.loop k) else .enter (.loop k)
  | .sleep _ .reacquire k => .enter (.loop k)
  | .release r => .body (.release r)

/-- The points in `sleep` at which a process can be `SLEEPING`. -/
def PC.parks : PC n → Bool
  | .sleep _ .set _ | .sleep _ .parked _ => true
  | _ => false

def PC.asleepOn (chan : Chan) (pc : PC n) : Bool := pc.parks && pc.sleepsOn chan

@[simps] def view (chan : Chan) (t : List (Event n)) (s : State n) :
    Monitor.State (Fin n) (Record n) (PC n) where
  pc p := (s.pc p).view chan
  sleeping p := s.sleeping p && (s.pc p).asleepOn chan
  lock := s.lock
  data := (s.pipe, t)

variable {s s' : State n} {t : List (Event n)} {e : Option (Event n)} {p q : Fin n} {c b : Chan}
  {pc : PC n}

/-! ## The view of a state -/

@[simp]
theorem wake_pc (s : State n) (chan : Chan) (q : Fin n) : (wake s chan q).pc = s.pc := by
  unfold wake
  split_ifs <;> rfl

theorem view_setPc (h : (s.sleeping p && pc.asleepOn c) = (view c t s).sleeping p) :
    view c t (s.setPc p pc) = (view c t s).setPc p (pc.view c) := by
  unfold view Monitor.State.setPc
  congr 1 <;> funext q <;> by_cases hq : q = p
  · simp [hq]
  · simp [hq]
  · subst hq
    simpa using h
  · simp [hq]

theorem view_setPc_awake (h : (s.pc p).asleepOn c = false) (hpc : pc.asleepOn c = false) :
    view c t (s.setPc p pc) = (view c t s).setPc p (pc.view c) :=
  view_setPc (by simp [h, hpc])

theorem view_sleepSet {k : Loop} :
    view c t ((s.setSleeping p true).setPc p (.sleep c .set k)) =
      ((view c t s).setSleeping p true).setPc p (.sleep .set (.loop k)) := by
  unfold view Monitor.State.setPc
  congr 1 <;> funext q <;> by_cases hq : q = p <;> simp [hq, PC.view, PC.asleepOn, PC.parks, PC.sleepsOn]

theorem view_setSleeping (a : Bool) :
    view c t (s.setSleeping q a) = (view c t s).setSleeping q (a && (s.pc q).asleepOn c) := by
  unfold view Monitor.State.setSleeping
  congr 1
  funext r
  by_cases hr : r = q <;> simp [hr]

theorem sleepsOn_iff (h : pc.asleepOn c) : pc.sleepsOn b ↔ b = c := by
  obtain ⟨-, hc⟩ : pc.parks ∧ pc.sleepsOn c := by simpa [PC.asleepOn] using h
  cases pc with
  | sleep a stage k =>
    obtain rfl : a = c := by simpa [PC.sleepsOn] using hc
    simp [PC.sleepsOn, eq_comm]
  | _ => cases hc

theorem view_wake (s : State n) (q : Fin n) :
    view c t (wake s c q) = (view c t s).setSleeping q false := by
  unfold wake
  split_ifs with h
  · exact view_setSleeping false
  · rw [Monitor.State.setSleeping_eq_self]
    by_contra hq
    obtain ⟨hs, ha⟩ : s.sleeping q ∧ (s.pc q).asleepOn c := by simpa using hq
    exact h ⟨hs, (sleepsOn_iff ha).mpr rfl⟩

theorem view_wake_other (hb : b ≠ c) (s : State n) (q : Fin n) :
    view c t (wake s b q) = view c t s := by
  unfold wake
  split_ifs with h
  · rw [view_setSleeping, Bool.false_and, Monitor.State.setSleeping_eq_self]
    by_contra hq
    obtain ⟨-, ha⟩ : s.sleeping q ∧ (s.pc q).asleepOn c := by simpa using hq
    exact hb ((sleepsOn_iff ha).mp h.2)
  · rfl

theorem ownLocked_view (h : pc.ownLocked = false) : (pc.view c).ownLocked = false := by
  cases pc with
  | sleep b stage k =>
    cases stage with
    | locked | released | set => cases h
    | _ => by_cases hb : b = c <;> simp [PC.view, hb, Monitor.PC.ownLocked]
  | waking b todo k => by_cases hb : b = c <;> simp [PC.view, hb, Monitor.PC.ownLocked]
  | _ => rfl

/-! ## Runs of the monitor -/

/-- Where a turn can lead. -/
def PC.Fresh : PC n → Prop
  | .idle | .enter _ => False
  | .waking _ todo _ => todo = List.finRange n
  | .sleep _ stage _ => stage = .entering
  | _ => True

theorem PC.Fresh.asleepOn (h : pc.Fresh) : pc.asleepOn c = false := by
  cases pc with
  | sleep b stage k =>
    cases h
    rfl
  | _ => rfl

/-- A turn of process `p` on the pipe `pi`. It writes at most the slot at `nwrite`, and only if the
buffer is not full. -/
structure Turn.Sound (p : Fin n) (pi : Pipe) (r : Turn n) : Prop where
  fresh : r.pc.Fresh
  event : ∀ e ∈ r.event, (∃ ch, e = .put p ch) ∨ ∃ ch, e = .took p ch
  data : ∀ j, r.pipe.data j ≠ pi.data j → ¬ pi.Full ∧ j = pi.nwrite % PIPESIZE

theorem Turn.Sound.quiet {pi pi' : Pipe} (hd : pi'.data = pi.data) (hf : pc.Fresh) :
    Turn.Sound p pi ⟨pi', pc, none⟩ :=
  ⟨hf, by simp, fun j hj => absurd (congrFun hd j) hj⟩

theorem begin_sound (pi : Pipe) (k : Call) : (begin pi k : Turn n).Sound p pi := by
  cases k with
  | write | read => exact .quiet rfl trivial
  | close => exact .quiet rfl rfl

theorem stepLoop_sound (p : Fin n) (x : Bool) (pi : Pipe) (k : Loop) :
    (stepLoop p x pi k).Sound p pi := by
  cases k with
  | write m src i =>
    rw [stepLoop]
    split_ifs with _ _ hfull
    · exact .quiet rfl trivial
    · exact .quiet rfl rfl
    · cases src i with
      | none => exact .quiet rfl rfl
      | some ch =>
        refine ⟨trivial, by simp, fun j hj => ⟨hfull, ?_⟩⟩
        by_contra hne
        exact hj (update_of_ne hne ..)
    · exact .quiet rfl rfl
  | read m dst =>
    rw [stepLoop]
    split_ifs
    · exact .quiet rfl trivial
    · exact .quiet rfl rfl
    · exact .quiet rfl trivial

theorem stepCopy_sound (p : Fin n) (pi : Pipe) (m : Int) (dst : Nat → Bool) (i : Nat) :
    (stepCopy p pi m dst i).Sound p pi := by
  rw [stepCopy]
  split_ifs
  · exact ⟨trivial, by simp, fun j hj => absurd rfl hj⟩
  · exact ⟨rfl, by simp, fun j hj => absurd rfl hj⟩
  · exact .quiet rfl rfl

theorem After.pc_fresh (k : After) : (k.pc : PC n).Fresh := by
  cases k with
  | sleep => rfl
  | release => trivial

theorem finRange_ne_nil (p : Fin n) : List.finRange n ≠ [] :=
  List.ne_nil_of_mem (List.mem_finRange p)

section
variable {v v' : Monitor.State (Fin n) (Record n) (PC n)}

theorem run_move (h : Monitor.Move (monitor n c) v none v') :
    Run (Monitor.Step (monitor n c)) v [] v' :=
  .silent .refl h.step

theorem run_settle (hpc : v.pc p = .body pc) (hf : pc.Fresh) :
    Run (Monitor.Step (monitor n c)) v [] (v.setPc p (pc.view c)) := by
  cases pc with
  | idle | enter => cases hf
  | loop | copy | release =>
    rw [PC.view, Monitor.State.setPc_eq_self hpc]
    exact .refl
  | waking b todo k =>
    obtain rfl : todo = List.finRange n := hf
    by_cases hb : b = c
    · obtain ⟨q, rest, hq⟩ := List.exists_cons_of_ne_nil (finRange_ne_nil p)
      rw [PC.view, if_pos hb]
      exact run_move (.wake (x := false) (d := v.data) hpc (by simp [monitor, next, hq, hb]))
    · rw [PC.view, if_neg hb, Monitor.State.setPc_eq_self hpc]
      exact .refl
  | sleep b stage k =>
    obtain rfl : stage = .entering := hf
    by_cases hb : b = c
    · rw [PC.view, if_pos hb]
      exact run_move (.sleep (x := false) hpc (by simp [monitor, next, hb]))
    · rw [PC.view, if_neg hb, Monitor.State.setPc_eq_self hpc]
      exact .refl

theorem run_turn {x : Bool} {r : Turn n} (hpc : v.pc p = .body pc)
    (hn : next c p x v.data pc = r.next v.data.2) (hf : r.pc.Fresh) :
    Run (Monitor.Step (monitor n c)) v []
      ((v.setData (r.pipe, r.event.toList ++ v.data.2)).setPc p (r.pc.view c)) := by
  have hgo := run_move (.goto (x := x) hpc hn)
  have hset := hgo.trans (run_settle (p := p) (by simp) hf)
  simpa [Monitor.State.setPc] using hset

end

theorem run_view_turn {x : Bool} {r : Turn n} (hn : next c p x (s.pipe, t) pc = r.next t)
    (hf : r.pc.Fresh) (ha : (s.pc p).asleepOn c = false) :
    Run (Monitor.Step (monitor n c)) ((view c t s).setPc p (.body pc)) []
      (view c ((s.turn p r).2.toList ++ t) (s.turn p r).1) := by
  have hrun := run_turn (v := (view c t s).setPc p (.body pc)) (update_self ..) hn hf
  have hview : view c (r.event.toList ++ t) (s.turn p r).1 =
      ((view c t s).setData (r.pipe, r.event.toList ++ t)).setPc p (r.pc.view c) :=
    view_setPc_awake (s := s.setPipe r.pipe) ha hf.asleepOn
  rw [State.turn] at hview ⊢
  rw [hview]
  simpa [Monitor.State.setPc, Monitor.State.setData] using hrun

theorem run_stepSleep {stage : Stage} {k : Loop} (hpc : s.pc p = .sleep b stage k)
    (h : stepSleep p s b k stage = some s') :
    Run (Monitor.Step (monitor n c)) (view c t s) [] (view c t s') := by
  have hv : (view c t s).pc p = (PC.sleep b stage k).view c := by rw [view_pc, hpc]
  cases stage with
  | entering =>
    cases h
    rw [view_setPc_awake (by rw [hpc]; rfl) rfl]
    by_cases hb : b = c
    · simp only [PC.view, if_pos hb] at hv ⊢
      exact run_move (.sleepLock hv)
    · simp only [PC.view, if_neg hb] at hv ⊢
      exact run_move (.goto (x := false) hv (by simp [monitor, next, hb]))
  | locked =>
    cases h
    rw [view_setPc_awake (by rw [State.setLock_pc, hpc]; rfl) rfl]
    by_cases hb : b = c
    · simp only [PC.view, if_pos hb] at hv ⊢
      exact run_move (.sleepRelease hv)
    · rw [PC.view, if_neg hb] at hv
      rw [PC.view, if_neg hb]
      have hdone := run_move (.done (x := false) hv
        (show (monitor n c).next p false (s.pipe, t) (.sleep b .locked k) =
          .done (s.pipe, t) (some (.loop k)) none from rfl))
      exact hdone
  | released =>
    cases h
    by_cases hb : b = c
    · subst hb
      rw [view_sleepSet]
      exact run_move (.sleepSet (by simpa [PC.view] using hv))
    · have hnot : (s.pc p).asleepOn c = false := by
        rw [hpc]
        rfl
      have hset : (PC.sleep b .set k : PC n).asleepOn c = false := by simp [PC.asleepOn, PC.sleepsOn, hb]
      rw [view_setPc_awake (s := s.setSleeping p true) hnot hset, view_setSleeping, hnot, Bool.and_false,
        Monitor.State.setSleeping_eq_self (by simp [hnot])]
      simp only [PC.view, if_neg hb] at hv ⊢
      rw [Monitor.State.setPc_eq_self hv]
      exact .refl
  | set =>
    cases h
    rw [view_setPc (by simp [hpc, PC.asleepOn, PC.parks, PC.sleepsOn])]
    by_cases hb : b = c
    · simp only [PC.view, if_pos hb] at hv ⊢
      exact run_move (.sleepPark hv)
    · simp only [PC.view, if_neg hb] at hv ⊢
      rw [Monitor.State.setPc_eq_self hv]
      exact .refl
  | parked =>
    simp only [stepSleep, Option.ite_none_left_eq_some, Option.some.injEq] at h
    obtain ⟨hs, rfl⟩ := h
    have hawake : s.sleeping p = false := by simpa using hs
    rw [view_setPc (by simp [hawake])]
    by_cases hb : b = c
    · simp only [PC.view, if_pos hb] at hv ⊢
      exact run_move (.sleepResume hv (by simp [hawake]))
    · simp only [PC.view, if_neg hb] at hv ⊢
      rw [Monitor.State.setPc_eq_self hv]
      exact .refl
  | reacquire =>
    simp only [stepSleep, Option.ite_none_right_eq_some, Option.some.injEq] at h
    obtain ⟨hl, rfl⟩ := h
    rw [view_setPc_awake (by rw [State.setLock_pc, hpc]; rfl) rfl]
    exact run_move (.enter hv hl)

theorem run_step {call : Call} (h : step p call s = some (s', e)) :
    Run (Monitor.Step (monitor n c)) (view c t s) [] (view c (e.toList ++ t) s') := by
  have hv : (view c t s).pc p = (s.pc p).view c := rfl
  unfold step at h
  split at h
  next hpc =>
    cases h
    rw [hpc] at hv
    rw [Option.toList_none, List.nil_append, view_setPc_awake (by rw [hpc]; rfl) rfl]
    exact run_move (.call (o := none) (by rw [hv]; rfl) rfl)
  next k hpc =>
    obtain ⟨hl, h⟩ := Option.ite_none_right_eq_some.mp h
    rw [hpc] at hv
    have hrun := run_view_turn (s := s.setLock (some p)) (r := begin s.pipe k)
      (show next c p false (s.pipe, t) (.enter k) = _ from rfl) (begin_sound (p := p) s.pipe k).fresh
      (by rw [State.setLock_pc, hpc]; rfl)
    rw [Option.some.inj h] at hrun
    exact (run_move (.enter hv hl)).trans hrun
  next k hpc =>
    have hrun := run_view_turn (r := stepLoop p (s.killed p) s.pipe k)
      (show next c p (s.killed p) (s.pipe, t) (.loop k) = _ from rfl)
      (stepLoop_sound p (s.killed p) s.pipe k).fresh (by rw [hpc]; rfl)
    rw [Option.some.inj h, Monitor.State.setPc_eq_self (by rw [hv, hpc]; rfl)] at hrun
    exact hrun
  next m dst i hpc =>
    have hrun := run_view_turn (r := stepCopy p s.pipe m dst i)
      (show next c p false (s.pipe, t) (.copy m dst i) = _ from rfl)
      (stepCopy_sound p s.pipe m dst i).fresh (by rw [hpc]; rfl)
    rw [Option.some.inj h, Monitor.State.setPc_eq_self (by rw [hv, hpc]; rfl)] at hrun
    exact hrun
  next b k hpc =>
    have hrun := run_view_turn (s := s) (r := ⟨s.pipe, k.pc, some (.woke p b)⟩)
      (show next c p false (s.pipe, t) (.waking b [] k) = _ from rfl) k.pc_fresh (by rw [hpc]; rfl)
    rw [hpc] at hv
    cases h
    by_cases hb : b = c
    · rw [PC.view, if_pos hb] at hv
      exact (run_move (.wakeEnd hv)).trans hrun
    · rw [PC.view, if_neg hb] at hv
      rwa [Monitor.State.setPc_eq_self hv] at hrun
  next b q todo k hpc =>
    rw [hpc] at hv
    split_ifs at h with hq hown
    · cases h
      subst hq
      rw [Option.toList_none, List.nil_append, view_setPc_awake (by rw [hpc]; rfl) rfl]
      by_cases hb : b = c
      · simp only [PC.view, if_pos hb] at hv ⊢
        exact run_move (.wakeSelf hv)
      · simp only [PC.view, if_neg hb] at hv ⊢
        exact run_move (.goto (x := false) hv (by simp [monitor, next, hb]))
    · cases h
      rw [Option.toList_none, List.nil_append, view_setPc_awake (by rw [wake_pc, hpc]; rfl) rfl]
      by_cases hb : b = c
      · subst hb
        rw [view_wake]
        simp only [PC.view, if_true] at hv ⊢
        exact run_move (.wakeOther hv hq (ownLocked_view (by simpa using hown)))
      · rw [view_wake_other hb]
        simp only [PC.view, if_neg hb] at hv ⊢
        exact run_move (.goto (x := false) hv (by simp [monitor, next, hb]))
  next b stage k hpc =>
    simp only [Option.map_eq_some_iff, Prod.mk.injEq] at h
    obtain ⟨_, hs, rfl, rfl⟩ := h
    exact run_stepSleep hpc hs
  next r hpc =>
    cases h
    rw [hpc] at hv
    rw [view_setPc_awake (by rw [State.setLock_pc, hpc]; rfl) rfl]
    have hdone := run_move (.done (x := false) hv
      (show (monitor n c).next p false (s.pipe, t) (.release r) =
        .done (s.pipe, .returned p r :: t) none none from rfl))
    exact hdone

theorem Step.view (h : Step s e s') :
    Run (Monitor.Step (monitor n c)) (view c t s) [] (view c (e.toList ++ t) s') := by
  cases h with
  | proc h => exact run_step h
  | @kill q _ h =>
    simp only [Pipes.kill, Option.ite_none_left_eq_some, Option.some.injEq] at h
    obtain ⟨hown, rfl⟩ := h
    have hview := view_setSleeping (c := c) (t := t) (s := s.setKilled q) (q := q) false
    rw [Option.toList_none, List.nil_append, hview]
    exact run_move (.kill (ownLocked_view (by simpa using hown)))

/-- What the users of a pipe do is a run of the monitor of each channel. -/
theorem Reaches.monitor {data : Nat → UInt8} (h : Reaches data t s) (c : Chan) :
    Monitor.Reaches (monitor n c) ((boot n data).pipe, []) [] (view c t s) := by
  refine Run.invariant (I := fun t s =>
    Monitor.Reaches (Pipes.monitor n c) ((boot n data).pipe, []) [] (Pipes.view c t s)) ?_ ?_ ?_ h
  · exact Run.refl
  · intro t s s' _ ih hs
    exact Run.trans ih (Step.view hs : Run _ (Pipes.view c t s) [] _)
  · intro t s s' e _ ih hs
    exact Run.trans ih (Step.view hs : Run _ (Pipes.view c t s) [] _)

end Xv6.Pipes
