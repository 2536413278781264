import Xv6.Foundation.Monitor

/-!
# Proof outlines of monitors

An outline says what is true while the lock is free, what each thread relies on while it does not
hold it, and what the holder knows at each point. It also says what the sleepers wait for, and at
which points the holder still owes them a `wakeup`. From a valid outline follows what holds along
every run, and that no process is left asleep.
-/

namespace Xv6.Foundation.Monitor

open Xv6.Foundation Function

set_option autoImplicit false

variable {T D K X E : Type}

structure Outline (T D K : Type) where
  /-- While the lock is free. -/
  free : D → Prop
  /-- What a thread relies on that is idle, or goes on at the given point when it gets the lock. -/
  out : T → Option K → D → Prop
  /-- What the holder of the lock knows. -/
  inside : T → K → D → Prop
  /-- What the sleepers wait for has not happened. -/
  blocked : D → Prop
  /-- The holder calls `wakeup` before it gives the lock back. -/
  owes : T → K → D → Prop

namespace Outline
variable (O : Outline T D K)

/-- What the other threads rely on stays true. -/
def Spares (p : T) (d d' : D) : Prop := ∀ q o, q ≠ p → O.out q o d → O.out q o d'

/-- What an idle thread may do to the data, whoever holds the lock. -/
structure Harmless (p : T) (d d' : D) : Prop where
  self : O.out p none d'
  spares : O.Spares p d d'
  free : O.free d → O.free d'
  inside : ∀ q k, q ≠ p → O.inside q k d → O.inside q k d'
  blocked : O.blocked d → O.blocked d'
  owes : ∀ q k, q ≠ p → O.owes q k d → O.owes q k d'

/-- What the next step of the holder has to establish. -/
def Post (procs : List T) (p : T) (k : K) (d : D) : Next D K E → Prop
  | .goto d' k' => O.inside p k' d' ∧ O.Spares p d d' ∧
      (O.blocked d ∨ O.owes p k d → O.blocked d' ∨ O.owes p k' d')
  | .wake d' k' => O.inside p k' d' ∧ O.Spares p d d'
  | .sleep k' => p ∈ procs ∧ O.free d ∧ O.blocked d ∧ O.out p (some k') d
  | .done d' back _ => O.free d' ∧ O.out p back d' ∧ O.Spares p d d' ∧
      (O.blocked d ∨ O.owes p k d → O.blocked d')

structure Valid (P : Program T D K X E) : Prop where
  call : ∀ p o k d, O.out p o d → P.enters p o k d → O.out p (some k) d
  outer : ∀ p x d d', O.out p none d → P.outer p x d = some d' → O.Harmless p d d'
  enter : ∀ p k d, O.free d → O.out p (some k) d → O.inside p k d
  next : ∀ p x k d, O.inside p k d → O.Post P.procs p k d (P.next p x d k)

/-- What is true of the data where thread `p` is at `pc`. -/
def At (procs : List T) (p : T) (d : D) : PC T K → Prop
  | .idle => O.out p none d
  | .enter k => O.out p (some k) d
  | .body k | .waking _ k => O.inside p k d
  | .sleep .entering k | .sleep .locked k =>
    p ∈ procs ∧ O.free d ∧ O.blocked d ∧ O.out p (some k) d
  | .sleep _ k => p ∈ procs ∧ O.out p (some k) d

/-- The holder `p`, at `pc`, is going to wake `q`. -/
def Owes (p q : T) (d : D) : PC T K → Prop
  | .body k => O.owes p k d
  | .waking todo _ => q ∈ todo
  | _ => False

end Outline

/-- Past the release of the lock in `sleep`, and asleep or about to be. -/
def Waits (s : State T D K) (q : T) : Prop :=
  s.sleeping q ∨ ∃ k, s.pc q = .sleep .released k

/-- Every waiting process waits for what has not happened, or is owed a wakeup by the holder. -/
def Served (O : Outline T D K) (s : State T D K) : Prop :=
  ∀ q, Waits s q → O.blocked s.data ∨ ∃ p, s.lock = some p ∧ O.Owes p q s.data (s.pc p)

structure Outlined (O : Outline T D K) (P : Program T D K X E) (s : State T D K) : Prop where
  locks : Locks s
  free : s.lock = none → O.free s.data
  points : ∀ p, O.At P.procs p s.data (s.pc p)
  served : Served O s

variable {O : Outline T D K} {P : Program T D K X E} {s s' : State T D K} {pc : PC T K}
  {procs : List T}

@[simp]
theorem Outline.at_back (procs : List T) (p : T) (d : D) (o : Option K) :
    O.At procs p d (.back o) = O.out p o d := by
  cases o <;> rfl

theorem Outline.at_outside {p : T} {d : D} {o : Option K}
    (h : pc.outside = some o) : O.At procs p d pc = O.out p o d := by
  cases pc with
  | idle | enter =>
    cases h
    rfl
  | _ => cases h

theorem Outline.Spares.at {p q : T} {d d' : D} (h : O.Spares p d d')
    (hq : q ≠ p) (hh : pc.holds = false) (ha : O.At procs q d pc) : O.At procs q d' pc := by
  cases pc with
  | idle => exact h q none hq ha
  | enter k => exact h q (some k) hq ha
  | body k | waking todo k => cases hh
  | sleep stage k =>
    cases stage with
    | entering | locked => cases hh
    | released | set | parked => exact ⟨ha.1, h q (some k) hq ha.2⟩

theorem Outline.Harmless.at {p q : T} {d d' : D} (h : O.Harmless p d d')
    (hq : q ≠ p) (ha : O.At procs q d pc) : O.At procs q d' pc := by
  cases pc with
  | idle => exact h.spares q none hq ha
  | enter k => exact h.spares q (some k) hq ha
  | body k | waking todo k => exact h.inside q k hq ha
  | sleep stage k =>
    cases stage with
    | entering | locked =>
      exact ⟨ha.1, h.free ha.2.1, h.blocked ha.2.2.1, h.spares q (some k) hq ha.2.2.2⟩
    | released | set | parked => exact ⟨ha.1, h.spares q (some k) hq ha.2⟩

theorem Outline.Harmless.owed {p q r : T} {d d' : D} (h : O.Harmless p d d') (hr : r ≠ p)
    (ho : O.Owes r q d pc) : O.Owes r q d' pc := by
  cases pc with
  | body k => exact h.owes r k hr ho
  | _ => exact ho

namespace Served
variable {p q : T}

theorem of_free (h : Served O s) (hl : s.lock = none) (hw : Waits s q) : O.blocked s.data := by
  rcases h q hw with hb | ⟨p, hp, _⟩
  · exact hb
  · rw [hl] at hp
    cases hp

theorem held (h : Served O s) (hl : s.lock = some p) (hw : Waits s q) :
    O.blocked s.data ∨ O.Owes p q s.data (s.pc p) := by
  rcases h q hw with hb | ⟨p', hp, ho⟩
  · exact Or.inl hb
  · obtain rfl : p = p' := Option.some.inj (hl.symm.trans hp)
    exact Or.inr ho

theorem frame (h : Served O s) (hw : ∀ q, Waits s' q → Waits s q) (hd : s'.data = s.data)
    (hlock : s'.lock = s.lock) (hpc : ∀ p, s.lock = some p → s'.pc p = s.pc p) : Served O s' := by
  intro q hq
  rw [hd]
  rcases h q (hw q hq) with hb | ⟨p, hp, ho⟩
  · exact Or.inl hb
  · exact Or.inr ⟨p, hlock.trans hp, by rwa [hpc p hp]⟩

end Served

theorem served_of_blocked (h : ∀ q, Waits s q → O.blocked s.data) : Served O s :=
  fun q hw => Or.inl (h q hw)

theorem served_of_held {p : T} (hl : s.lock = some p)
    (h : ∀ q, Waits s q → O.blocked s.data ∨ O.Owes p q s.data (s.pc p)) : Served O s :=
  fun q hw => (h q hw).imp id fun ho => ⟨p, hl, ho⟩

namespace Outlined

theorem at_pc {p : T} {pc : PC T K} (h : Outlined O P s) (hpc : s.pc p = pc) :
    O.At P.procs p s.data pc := by
  rw [← hpc]
  exact h.points p

theorem waits_procs {q : T} (h : Outlined O P s) (hw : Waits s q) : q ∈ P.procs := by
  rcases hw with hs | ⟨k, hk⟩
  · obtain ⟨k, hk | hk⟩ := h.locks.asleep q hs
    · exact (h.at_pc hk).1
    · exact (h.at_pc hk).1
  · exact (h.at_pc hk).1

/-- While the lock is free, what a sleeping process waits for has not happened. -/
theorem not_left_asleep {q : T} (h : Outlined O P s) (hl : s.lock = none)
    (hs : s.sleeping q) : O.blocked s.data :=
  h.served.of_free hl (Or.inl hs)

/-- The holder of the lock is in a section, or is going to give the lock back in `sleep`. -/
theorem held {p : T} (h : Outlined O P s) (hl : s.lock = some p) :
    (∃ k, O.inside p k s.data) ∨ O.free s.data ∧ ∃ k, O.out p (some k) s.data := by
  have hh := (h.locks.owner p).mpr hl
  have hp := h.points p
  cases hpc : s.pc p with
  | idle | enter =>
    rw [hpc] at hh
    cases hh
  | body k | waking todo k =>
    rw [hpc] at hp
    exact Or.inl ⟨k, hp⟩
  | sleep stage k =>
    rw [hpc] at hp hh
    cases stage with
    | entering | locked => exact Or.inr ⟨hp.2.1, k, hp.2.2.2⟩
    | released | set | parked => cases hh

theorem boot {d : D} (hfree : O.free d) (hout : ∀ p, O.out p none d) :
    Outlined O P (Monitor.boot d) := by
  refine ⟨locks_boot d, fun _ => hfree, hout, ?_⟩
  rintro q (hs | ⟨k, hk⟩)
  · cases hs
  · cases hk

end Outlined

variable [DecidableEq T]

theorem waits_setPc {p q : T} (hp : s.sleeping p = false)
    (hr : ∀ k, pc ≠ .sleep .released k) (hw : Waits (s.setPc p pc) q) : q ≠ p ∧ Waits s q := by
  have hne : q ≠ p := by
    rintro rfl
    rcases hw with hs | ⟨k, hk⟩
    · rw [State.setPc_sleeping, hp] at hs
      cases hs
    · rw [State.setPc_pc, update_self] at hk
      exact hr k hk
  refine ⟨hne, ?_⟩
  rwa [Waits, State.setPc_pc, State.setPc_sleeping, update_of_ne hne] at hw

theorem waits_of_wake {p q : T} (hw : Waits (s.setSleeping p false) q) : Waits s q := by
  refine hw.imp ?_ id
  intro hs
  by_cases hq : q = p
  · simp [hq] at hs
  · simpa [hq] using hs

theorem not_waits_wake {q : T} (hown : (s.pc q).ownLocked = false) :
    ¬ Waits (s.setSleeping q false) q := by
  rintro (hs | ⟨k, hk⟩)
  · simp at hs
  · rw [State.setSleeping_pc] at hk
    rw [hk] at hown
    cases hown

namespace Outlined
variable {p : T} {e : Option E}

section
variable (h : Outlined O P s)
include h

theorem points_setPc (pc : PC T K) (hp : O.At P.procs p s.data pc) :
    ∀ q, O.At P.procs q s.data (update s.pc p pc q) := by
  intro q
  by_cases hq : q = p
  · subst hq
    rwa [update_self]
  · rw [update_of_ne hq]
    exact h.points q

theorem points_setData {pc : PC T K} {d : D} (hl : s.lock = some p) (hs : O.Spares p s.data d)
    (hp : O.At P.procs p d pc) : ∀ q, O.At P.procs q d (update s.pc p pc q) := by
  intro q
  by_cases hq : q = p
  · subst hq
    rwa [update_self]
  · rw [update_of_ne hq]
    refine hs.at hq (Bool.eq_false_iff.mpr fun hh => hq ?_) (h.points q)
    exact Option.some.inj (((h.locks.owner q).mp hh).symm.trans hl)

omit [DecidableEq T] in
theorem awake (hset : ∀ k, s.pc p ≠ .sleep .set k) (hparked : ∀ k, s.pc p ≠ .sleep .parked k) :
    s.sleeping p = false :=
  h.locks.awake hset hparked

theorem holder_pc {pc pc' : PC T K} {q : T} (hpc : s.pc p = pc) (hh : pc.holds = false)
    (hl : s.lock = some q) : update s.pc p pc' q = s.pc q :=
  update_of_ne (h.locks.holder_ne hpc hh hl) ..

end

theorem move_body (hv : O.Valid P) (h : Outlined O P s) {x : X} {k : K} (hpc : s.pc p = .body k)
    (hm : Move P s (stepBody P p s (P.next p x s.data k)).2
      (stepBody P p s (P.next p x s.data k)).1) :
    Outlined O P (stepBody P p s (P.next p x s.data k)).1 := by
  have hl : s.lock = some p := h.locks.lock_of_pc hpc rfl
  have hawake := h.awake (p := p) (by simp [hpc]) (by simp [hpc])
  have hpost := hv.next p x k s.data (h.at_pc hpc)
  have hlocks := h.locks.move hm
  have hheld : ∀ q, Waits s q → O.blocked s.data ∨ O.owes p k s.data := by
    intro q hw
    have hq := h.served.held hl hw
    rwa [hpc] at hq
  cases hn : P.next p x s.data k with
  | goto d k' =>
    rw [hn] at hpost hlocks
    obtain ⟨hin, hsp, hb⟩ := hpost
    refine ⟨hlocks, fun hf => ?_, h.points_setData hl hsp hin, ?_⟩
    · rw [show (stepBody P p s (.goto d k')).1.lock = s.lock from rfl, hl] at hf
      cases hf
    · refine served_of_held hl fun q hw => ?_
      have hw' : Waits s q := (waits_setPc (s := s.setData d) hawake (by simp) hw).2
      simpa [stepBody, Outline.Owes] using hb (hheld q hw')
  | wake d k' =>
    rw [hn] at hpost hlocks
    obtain ⟨hin, hsp⟩ := hpost
    refine ⟨hlocks, fun hf => ?_, h.points_setData hl hsp hin, ?_⟩
    · rw [show (stepBody P p s (.wake d k')).1.lock = s.lock from rfl, hl] at hf
      cases hf
    · refine served_of_held hl fun q hw => Or.inr ?_
      have hw' : Waits s q := (waits_setPc (s := s.setData d) hawake (by simp) hw).2
      simpa [stepBody, Outline.Owes] using h.waits_procs hw'
  | sleep k' =>
    rw [hn] at hpost hlocks
    refine ⟨hlocks, fun hf => ?_, h.points_setPc _ hpost, ?_⟩
    · rw [show (stepBody P p s (.sleep k')).1.lock = s.lock from rfl, hl] at hf
      cases hf
    · exact served_of_blocked fun _ _ => hpost.2.2.1
  | done d back e =>
    rw [hn] at hpost hlocks
    obtain ⟨hfree, hout, hsp, hb⟩ := hpost
    refine ⟨hlocks, fun _ => hfree, h.points_setData hl hsp ?_, ?_⟩
    · rw [Outline.at_back]
      exact hout
    · refine served_of_blocked fun q hw => hb (hheld q ?_)
      refine (waits_setPc (s := (s.setData d).setLock none) hawake ?_ hw).2
      cases back <;> simp [PC.back]

theorem step (hv : O.Valid P) (h : Outlined O P s) (hs : Step P s e s') : Outlined O P s' := by
  have hm := hs.move
  have hlocks := h.locks.move hm
  cases hm with
  | @call p o k ho hen =>
    have hp : O.At P.procs p s.data (s.pc p) := h.points p
    rw [Outline.at_outside ho] at hp
    have hset : ∀ st k', s.pc p ≠ .sleep st k' := by
      intro st k' hk
      rw [hk] at ho
      cases ho
    refine ⟨hlocks, h.free, h.points_setPc _ (hv.call p o k _ hp hen), ?_⟩
    refine h.served.frame (fun q hw => ?_) rfl rfl fun q hl => ?_
    · exact (waits_setPc (h.awake (hset _) (hset _)) (by simp) hw).2
    · exact h.holder_pc rfl (PC.holds_of_outside ho) hl
  | @outer p x d hpc hd =>
    have hh := hv.outer p x _ d (h.at_pc hpc) hd
    refine ⟨hlocks, fun hl => hh.free (h.free hl), fun q => ?_, fun q hw => ?_⟩
    · by_cases hq : q = p
      · subst hq
        rw [State.setData_pc, hpc]
        exact hh.self
      · exact hh.at hq (h.points q)
    · refine (h.served q hw).imp hh.blocked ?_
      rintro ⟨r, hr, ho⟩
      exact ⟨r, hr, hh.owed (h.locks.holder_ne hpc rfl hr) ho⟩
  | @enter p k hpc hl =>
    have hin := hv.enter p k _ (h.free hl) (h.at_pc hpc)
    refine ⟨hlocks, fun hf => by simp at hf, h.points_setPc (.body k) hin, ?_⟩
    refine served_of_blocked fun q hw => ?_
    have hw' : Waits s q := (waits_setPc (s := s.setLock (some p))
      (h.awake (by simp [hpc]) (by simp [hpc])) (by simp) hw).2
    exact h.served.of_free hl hw'
  | @goto p x k k' d hpc hn | @wake p x k k' d hpc hn | @sleep p x k k' hpc hn =>
    have hb := h.move_body (x := x) hv hpc (move_of_stepBody hpc)
    rwa [hn] at hb
  | @done p x k d back e hpc hn =>
    have hb := h.move_body (x := x) hv hpc (move_of_stepBody hpc)
    rwa [hn] at hb
  | @wakeSelf p todo k hpc =>
    have hl : s.lock = some p := h.locks.lock_of_pc hpc rfl
    have hp := h.at_pc hpc
    refine ⟨hlocks, h.free, h.points_setPc (.waking todo k) hp, ?_⟩
    refine served_of_held hl fun q hw => ?_
    obtain ⟨hne, hw'⟩ := waits_setPc (h.awake (by simp [hpc]) (by simp [hpc])) (by simp) hw
    refine (h.served.held hl hw').imp id ?_
    simp [hpc, Outline.Owes, hne]
  | @wakeOther p q' todo k hpc hne hown =>
    have hl : s.lock = some p := h.locks.lock_of_pc hpc rfl
    have hawake : (s.setSleeping q' false).sleeping p = false :=
      (h.locks.wake q').awake (by simp [hpc]) (by simp [hpc])
    have hp := h.at_pc hpc
    refine ⟨hlocks, h.free, h.points_setPc (.waking todo k) hp, ?_⟩
    refine served_of_held hl fun q hw => ?_
    have hw' := (waits_setPc (s := s.setSleeping q' false) hawake (by simp) hw).2
    refine (h.served.held hl (waits_of_wake hw')).imp id ?_
    simp only [hpc, Outline.Owes, State.setPc_pc, update_self, List.mem_cons]
    rintro (rfl | ht)
    · exact absurd hw' (not_waits_wake hown)
    · exact ht
  | @wakeEnd p k hpc =>
    have hl : s.lock = some p := h.locks.lock_of_pc hpc rfl
    have hp := h.at_pc hpc
    refine ⟨hlocks, h.free, h.points_setPc (.body k) hp, ?_⟩
    refine served_of_held hl fun q hw => ?_
    have hw' := (waits_setPc (h.awake (by simp [hpc]) (by simp [hpc])) (by simp) hw).2
    refine (h.served.held hl hw').imp id ?_
    simp [hpc, Outline.Owes]
  | @sleepLock p k hpc =>
    have hp := h.at_pc hpc
    refine ⟨hlocks, h.free, h.points_setPc (.sleep .locked k) hp, ?_⟩
    exact served_of_blocked fun _ _ => hp.2.2.1
  | @sleepRelease p k hpc =>
    have hp := h.at_pc hpc
    refine ⟨hlocks, fun _ => hp.2.1,
      h.points_setPc (.sleep .released k) ⟨hp.1, hp.2.2.2⟩, ?_⟩
    exact served_of_blocked fun _ _ => hp.2.2.1
  | @sleepSet p k hpc =>
    have hp := h.at_pc hpc
    refine ⟨hlocks, h.free, h.points_setPc (.sleep .set k) hp, ?_⟩
    refine h.served.frame (fun q hw => ?_) rfl rfl fun _ hl => h.holder_pc hpc rfl hl
    by_cases hqp : q = p
    · subst hqp
      exact Or.inr ⟨k, hpc⟩
    · simpa [Waits, hqp] using hw
  | @sleepPark p k hpc =>
    have hp := h.at_pc hpc
    refine ⟨hlocks, h.free, h.points_setPc (.sleep .parked k) hp, ?_⟩
    refine h.served.frame (fun q hw => ?_) rfl rfl fun _ hl => h.holder_pc hpc rfl hl
    by_cases hqp : q = p
    · subst hqp
      exact Or.inl (by simpa [Waits] using hw)
    · simpa [Waits, hqp] using hw
  | @sleepResume p k hpc hsl =>
    refine ⟨hlocks, h.free, h.points_setPc (.enter k) (h.at_pc hpc).2, ?_⟩
    exact h.served.frame (fun q hw => (waits_setPc hsl (by simp) hw).2) rfl rfl fun _ hl =>
      h.holder_pc hpc rfl hl
  | @kill q hown =>
    refine ⟨hlocks, h.free, h.points, ?_⟩
    exact h.served.frame (fun q hw => waits_of_wake hw) rfl rfl fun _ _ => rfl

end Outlined

/-- A valid outline describes every state of every run. -/
theorem Reaches.outlined {d : D} {t : List E} (hv : O.Valid P) (hfree : O.free d)
    (hout : ∀ p, O.out p none d) (h : Reaches P d t s) : Outlined O P s :=
  Run.invariant (I := fun _ s => Outlined O P s) (Outlined.boot hfree hout)
    (fun _ _ _ _ hi hs => hi.step hv hs) (fun _ _ _ _ _ hi hs => hi.step hv hs) h

end Xv6.Foundation.Monitor
