import Xv6.Foundation.Outline
import Xv6.Sched.Steps

/-!
# No wakeup is lost

`sleep` takes `p->lock` before it releases its lock, and `wakeup` looks at a process only under
that process's lock. For each channel and lock, what the processes do is therefore a run of a
monitor, in which a `wakeup` under the lock leaves nobody asleep.
-/

namespace Xv6.Sched

open Xv6.Foundation Function

set_option autoImplicit false

/-! ## The monitor of a channel and a lock -/

inductive Turn where
  | wake
  | sleep
  | done
  deriving Inhabited

/-- What a holder of the lock may do. The data say that it is in `wakeup`, or just back from it. -/
def monitor (n : Nat) : Monitor.Program (Fin n) Bool Bool Turn Empty where
  procs := List.finRange n
  enters _ _ k _ := !k
  outer _ _ _ := none
  next _ turn _ woke :=
    if woke then .goto false false
    else match turn with
      | .wake => .wake true true
      | .sleep => .sleep false
      | .done => .done false none none

def outline (n : Nat) : Monitor.Outline (Fin n) Bool Bool where
  free d := d = false
  out _ o _ := ∀ k ∈ o, k = false
  inside _ k d := d = k
  blocked d := d = false
  owes _ _ _ := False

theorem outline_valid (n : Nat) : (outline n).Valid (monitor n) where
  call := by
    rintro p o k d - he _ ⟨⟩
    simpa [monitor] using he
  outer := by
    intro p x d d' _ ho
    cases ho
  enter := fun p k d hf ho => hf.trans (ho k rfl).symm
  next := by
    intro p turn k d hk
    obtain rfl : d = k := hk
    cases d with
    | true => exact ⟨rfl, fun _ _ _ => id, fun _ => Or.inl rfl⟩
    | false =>
      cases turn with
      | wake => exact ⟨rfl, fun _ _ _ => id⟩
      | sleep => exact ⟨List.mem_finRange p, rfl, rfl, by simp [outline]⟩
      | done => exact ⟨rfl, by simp [outline], fun _ _ _ => id, fun _ => rfl⟩

/-- What the monitor sees of a process: its point, whether it sleeps, whether it has the lock. -/
structure Look (n : Nat) where
  pc : Monitor.PC (Fin n) Bool
  asleep : Bool
  has : Bool

section
variable {n : Nat} {v v' : Monitor.State (Fin n) Bool Bool} {p : Fin n}

def seen (v : Monitor.State (Fin n) Bool Bool) (p : Fin n) : Look n :=
  ⟨v.pc p, v.sleeping p, v.lock = some p⟩

/-- What can become of a process in a step of its own, and whom it wakes. -/
inductive Goes (p : Fin n) : Option (Fin n) → Look n → Look n → Prop where
  | stay {u} : Goes p none u u
  | acquire {a} : Goes p none ⟨.idle, a, false⟩ ⟨.body false, a, true⟩
  | release {a} : Goes p none ⟨.body false, a, true⟩ ⟨.idle, a, false⟩
  | sleep {a} : Goes p none ⟨.body false, a, true⟩ ⟨.sleep .released false, a, false⟩
  | set {a h} : Goes p none ⟨.sleep .released false, a, h⟩ ⟨.sleep .parked false, true, h⟩
  | resume {h} : Goes p none ⟨.sleep .parked false, false, h⟩ ⟨.enter false, false, h⟩
  | call {a h} : Goes p none ⟨.idle, a, h⟩ ⟨.enter false, a, h⟩
  | enter {a} : Goes p none ⟨.enter false, a, false⟩ ⟨.body false, a, true⟩
  | wake {a h} : Goes p none ⟨.body false, a, h⟩ ⟨.waking (List.finRange n) true, a, h⟩
  | skip {todo a h} : Goes p none ⟨.waking (p :: todo) true, a, h⟩ ⟨.waking todo true, a, h⟩
  | serve {q todo a h} : q ≠ p →
      Goes p (some q) ⟨.waking (q :: todo) true, a, h⟩ ⟨.waking todo true, a, h⟩
  | woke {a h} : Goes p none ⟨.waking [] true, a, h⟩ ⟨.body false, a, h⟩
  | kill {q u} : q ≠ p → Goes p (some q) u u

attribute [grind intro] Goes

theorem run_move (h : Monitor.Move (monitor n) v none v') : Run (Monitor.Step (monitor n)) v [] v' :=
  .silent .refl h.step

/-- What can become of a process is a run of the monitor. -/
theorem Goes.run {o : Option (Fin n)} {u : Look n} (h : Goes p o (seen v p) u)
    (hown : ∀ q ∈ o, (v.pc q).ownLocked = false) (hl : u.has → ∀ q ≠ p, v.lock ≠ some q) :
    ∃ v', Run (Monitor.Step (monitor n)) v [] v' ∧ seen v' p = u ∧ ∀ q ≠ p, seen v' q =
      ⟨(seen v q).pc, (seen v q).asleep && some q ≠ o, (seen v q).has⟩ := by
  have hfree (hu : u.has) (hp : v.lock ≠ some p) : v.lock = none := by
    refine Option.eq_none_iff_forall_ne_some.mpr fun q hq => ?_
    by_cases hqp : q = p
    · exact hp (hqp ▸ hq)
    · exact hl hu q hqp hq
  generalize hu : seen v p = w at h
  obtain ⟨hpc, ha, hh⟩ : v.pc p = w.pc ∧ v.sleeping p = w.asleep ∧ (v.lock = some p ↔ w.has) := by
    simp [← hu, seen]
  cases h with
  | stay => exact ⟨v, .refl, hu, fun q _ => by simp [seen]⟩
  | acquire =>
    have hlock := hfree rfl (by simpa using hh)
    have hcall := run_move (.call (o := none) (k := false) (by rw [hpc]; rfl) rfl)
    refine ⟨_, hcall.trans (run_move (.enter (p := p) (k := false) (by simp) hlock)), ?_⟩
    simp [seen, update_apply]
    grind
  | release =>
    refine ⟨_, run_move (.done (x := .done) (d := false) hpc rfl), ?_⟩
    simp [seen, update_apply, Monitor.PC.back]
    grind
  | sleep =>
    have henter := run_move (.sleep (x := .sleep) hpc rfl)
    have hlock := henter.trans (run_move (.sleepLock (update_self ..)))
    refine ⟨_, hlock.trans (run_move (.sleepRelease (update_self ..))), ?_⟩
    simp [seen, update_apply]
    grind
  | set =>
    have hset := run_move (.sleepSet hpc)
    refine ⟨_, hset.trans (run_move (.sleepPark (update_self ..))), ?_⟩
    simp [seen, update_apply]
    grind
  | resume =>
    refine ⟨_, run_move (.sleepResume hpc ha), ?_⟩
    simp [seen, update_apply]
    grind
  | call =>
    refine ⟨_, run_move (.call (o := none) (k := false) (by rw [hpc]; rfl) rfl), ?_⟩
    simp [seen, update_apply]
    grind
  | enter =>
    refine ⟨_, run_move (.enter hpc (hfree rfl (by simpa using hh))), ?_⟩
    simp [seen, update_apply]
    grind
  | wake =>
    refine ⟨_, run_move (.wake (x := .wake) (d := true) hpc rfl), ?_⟩
    simp [seen, update_apply, monitor]
    grind
  | skip =>
    refine ⟨_, run_move (.wakeSelf hpc), ?_⟩
    simp [seen, update_apply]
    grind
  | serve hne =>
    refine ⟨_, run_move (.wakeOther hpc hne (hown _ rfl)), ?_⟩
    simp [seen, update_apply]
    grind
  | woke =>
    have hend := run_move (.wakeEnd hpc)
    refine ⟨_, hend.trans (run_move (.goto (x := .wake) (d := false) (update_self ..) rfl)), ?_⟩
    simp [seen, update_apply]
    grind
  | kill hne =>
    refine ⟨_, run_move (.kill (hown _ rfl)), ?_⟩
    simp [seen, update_apply] at hu ⊢
    grind

end

section
variable {P L X : Type} [DecidableEq L] [DecidableEq X]

/-- Where a process is in the monitor; `has` says whether it holds the lock. -/
def PC.view (x : X) (lk : L) (has : Bool) : PC P L X → Monitor.PC P Bool
  | .sleepSet y l => if l = lk then if y = x then .sleep .released false else .idle else plain
  | .sleepSched y l | .sleepTidy y l =>
    if l = lk then if y = x then .sleep .parked false else .idle else plain
  | .sleepUnlock l | .sleepReacquire l => if l = lk then .enter false else plain
  | .wakeup y todo | .wakeupRelease y _ todo => if has ∧ y = x then .waking todo true else plain
  | .wakeupTest y q todo => if has ∧ y = x then .waking (q :: todo) true else plain
  | _ => plain
where plain : Monitor.PC P Bool := if has then .body false else .idle

def PC.parks (x : X) (lk : L) : PC P L X → Bool
  | .sleepSched y l | .sleepTidy y l => l = lk ∧ y = x
  | _ => false

theorem PC.ownLocked_view {x : X} {lk : L} {has : Bool} {pc : PC P L X}
    (h : (pc.view x lk has).ownLocked) : pc.HoldsOwn ∧ ¬ pc.Parked := by
  cases pc <;> grind [PC.view, PC.view.plain, Monitor.PC.ownLocked, PC.HoldsOwn, PC.Parked]

end

section
variable {n : Nat} {C L X : Type} [DecidableEq L] [DecidableEq X] {s s' : State (Fin n) C L X} {c : C}
  {e : Option (Event (Fin n) L X)} {x : X} {lk : L} {v : Monitor.State (Fin n) Bool Bool}
  {p q w : Fin n} {t : List (Event (Fin n) L X)}

def look (x : X) (lk : L) (s : State (Fin n) C L X) (p : Fin n) : Look n where
  pc := (s.pc p).view x lk (lk ∈ s.held p)
  asleep := s.state p = .sleeping ∧ (s.pc p).parks x lk
  has := lk ∈ s.held p

theorem Inv.ownLocked_look (h : Inv s) (hc : s.cpu c = .running p) (hq : (s.pc p).HoldsOther q)
    (hne : q ≠ p) (x : X) (lk : L) : (look x lk s q).pc.ownLocked = false := by
  by_contra hown
  obtain ⟨hholds, hnot⟩ := PC.ownLocked_view (by simpa [look] using hown)
  exact hnot (h.parked_of_locked hc (h.other c p q hc hq) hne hholds)

variable [DecidableEq C]

theorem Move.look_eq (hm : Move c s e s') (hc : ∀ p, s.cpu c ≠ .running p) (q : Fin n) :
    look x lk s' q = look x lk s q := by
  cases hm with
  | resume =>
    simp [look, update_apply]
    grind
  | pick | pass => rfl
  | _ => grind

theorem Move.goes (h : Inv s) (hm : Move c s e s') (hc : s.cpu c = .running p) (x : X) (lk : L) :
    ∃ o, Goes p o (look x lk s p) (look x lk s' p) ∧
      (∀ q ∈ o, (look x lk s q).pc.ownLocked = false) ∧ ∀ q ≠ p, look x lk s' q =
        ⟨(look x lk s q).pc, (look x lk s q).asleep && some q ≠ o, (look x lk s q).has⟩ := by
  have h1 := h.heldLock p lk
  have h2 := h.lockHeld c lk
  have h3 := h.nodup p
  have h4 := h.running c p hc
  have h5 := h.entering p
  have hown q (hq : (s.pc p).HoldsOther q) (hne : q ≠ p) := h.ownLocked_look hc hq hne x lk
  cases hm with
  | @wake _ q b hc' hb hst =>
    have hasleep := h.asleep q hst
    refine ⟨some q, ?_, by grind [PC.HoldsOther], ?_⟩ <;> simp [look, update_apply] <;>
      grind [PC.view, PC.view.plain, PC.parks]
  | @noWake _ q b hc' hb =>
    have hasleep := h.asleep q
    by_cases hx : q ≠ p ∧ lk ∈ s.held p ∧ ∃ rest, s.pc p = .wakeupTest x q rest
    · refine ⟨some q, ?_, by grind [PC.HoldsOther], ?_⟩ <;> simp [look, update_apply] <;>
        grind [PC.view, PC.view.plain, PC.parks]
    · refine ⟨none, ?_⟩
      simp [look, update_apply]
      grind [PC.view, PC.view.plain, PC.parks]
  | _ =>
    refine ⟨none, ?_⟩
    simp [look, update_apply]
    grind [PC.view, PC.view.plain, PC.parks, List.Nodup.mem_erase_iff]

def Shows (x : X) (lk : L) (s : State (Fin n) C L X) (v : Monitor.State (Fin n) Bool Bool) : Prop :=
  ∀ p, seen v p = look x lk s p

/-- A step is a run of the monitor. -/
theorem Move.view (h : Inv s) (hv : Shows x lk s v) (hm : Move c s e s') :
    ∃ v', Run (Monitor.Step (monitor n)) v [] v' ∧ Shows x lk s' v' := by
  by_cases hc : ∃ p, s.cpu c = .running p
  · obtain ⟨p, hc⟩ := hc
    obtain ⟨o, hgo, hown, hrest⟩ := hm.goes h hc x lk
    have hlook := fun q => (hv q).symm
    simp only [hlook] at hgo hown hrest
    obtain ⟨v', hrun, hp, hothers⟩ := hgo.run hown fun hhas q hne hlock => by
      have hheld := (h.move hm).heldLock
      have hq := congrArg Look.has (hrest q hne)
      simp only [look, seen, hlock, decide_eq_true_eq] at hq hhas
      grind
    refine ⟨v', hrun, fun q => ?_⟩
    by_cases hqp : q = p
    · rw [hqp, hp]
    · rw [hothers q hqp, hrest q hqp]
  · exact ⟨v, .refl, fun q => (hv q).trans (hm.look_eq (not_exists.mp hc) q).symm⟩

theorem Reaches.inv (h : Reaches t s) : Inv s := by
  induction h with
  | refl => exact inv_boot
  | silent _ hs ih | event _ hs ih =>
    obtain ⟨c, ch, hs⟩ := hs
    exact ih.move (move_of_step hs)

/-- What the processes do is a run of the monitor of each channel and lock. -/
theorem Reaches.monitor (h : Reaches t s) (x : X) (lk : L) :
    ∃ v, Shows x lk s v ∧ Monitor.Reaches (monitor n) false [] v := by
  induction h with
  | refl =>
    refine ⟨_, fun q => ?_, .refl⟩
    simp [seen, look, boot, Monitor.boot, PC.view, PC.view.plain, PC.parks]
  | silent hr hs ih | event hr hs ih =>
    obtain ⟨v, hv, hreach⟩ := ih
    obtain ⟨c, ch, hs⟩ := hs
    obtain ⟨v', hrun, hv'⟩ := (move_of_step hs).view (Reaches.inv hr) hv
    exact ⟨v', hv', Run.trans hreach hrun⟩

/-- A `wakeup(x)` under `lk` leaves nobody asleep in `sleep(x, lk)`. -/
theorem Reaches.woke (h : Reaches t s) (hm : Move c s (some (.woke w x)) s') (hlk : lk ∈ s.held w)
    (hst : s'.state q = .sleeping) (hq : s'.pc q = .sleepSched x lk ∨ s'.pc q = .sleepTidy x lk) :
    False := by
  cases hm with
  | wakeupDone hc hw =>
    have hne : q ≠ w := by
      rintro rfl
      simp at hq
    simp only [State.setPc_pc, update_of_ne hne] at hq
    obtain ⟨v, hv, hr⟩ := h.monitor x lk
    have ho := Monitor.Reaches.outlined (outline_valid n) rfl (by simp [outline]) hr
    have hpc : v.pc w = .waking [] true := by
      simpa [seen, look, hw, PC.view, hlk] using congrArg Look.pc (hv w)
    have hlock : v.lock = some w := by simpa [seen, look, hlk] using congrArg Look.has (hv w)
    have hd : v.data = true := ho.at_pc hpc
    have hs : v.sleeping q := by
      refine (congrArg Look.asleep (hv q)).trans ?_
      rcases hq with hq | hq <;> simpa [look, hq, PC.parks] using hst
    rcases ho.served q (Or.inl hs) with hb | ⟨p, hl, hp⟩
    · rw [show v.data = false from hb] at hd
      cases hd
    · cases hlock.symm.trans hl
      rw [hpc] at hp
      exact List.not_mem_nil hp

end

/-! ## Histories -/

section
variable {n : Nat} {C L X : Type} [DecidableEq C] [DecidableEq L] {s s' : State (Fin n) C L X} {c : C}
  {e : Option (Event (Fin n) L X)} {lk : L} {q w : Fin n} {t t' : List (Event (Fin n) L X)} {x : X}

/-- In `sleep(x, lk)`, up to the wakeup. -/
def PC.InSleep (x : X) (lk : L) : PC (Fin n) L X → Prop
  | .sleepEnter x' lk' | .sleepRelease x' lk' | .sleepSet x' lk' | .sleepSched x' lk'
  | .sleepTidy x' lk' => x' = x ∧ lk' = lk
  | _ => False

theorem Move.inSleep (hm : Move c s e s') (hq : (s'.pc q).InSleep x lk) : e = some (.slept q x lk) ∨
      (s.pc q).InSleep x lk ∧ ∀ x' lk', e ≠ some (.slept q x' lk') := by
  cases hm with
  | pick | resume | pass | acquire | release => simpa using hq
  | _ =>
    simp [update_apply] at hq ⊢
    grind [PC.InSleep]

theorem Move.held (hm : Move c s e s') (hw : lk ∈ s.held w)
    (hnot : ∀ x, ¬ (s.pc w).InSleep x lk) (hrel : e ≠ some (.released w lk))
    (hslept : ∀ x, e ≠ some (.slept w x lk)) : lk ∈ s'.held w ∧ ∀ x, ¬ (s'.pc w).InSleep x lk := by
  refine ⟨?_, fun x hx => ?_⟩
  · cases hm with
    | release =>
      simp [update_apply] at hrel ⊢
      grind
    | acquire | sleepReacquire =>
      simp [update_apply]
      grind
    | @sleepRelease p x l hc hpc =>
      have hl : w = p → lk ≠ l := by
        rintro rfl rfl
        exact hnot x (by rw [hpc]; exact ⟨rfl, rfl⟩)
      simp [update_apply]
      grind
    | _ => exact hw
  · rcases hm.inSleep hx with he | ⟨hold, -⟩
    · exact hslept x he
    · exact hnot x hold

theorem Move.acquired {p : Fin n} (hm : Move c s (some (.acquired p lk)) s') :
    lk ∈ s'.held p ∧ s'.pc p = .run := by
  cases hm with
  | acquire hc hpc => exact ⟨by simp, hpc⟩
  | sleepReacquire => exact ⟨by simp, by simp⟩

section Run
variable [DecidableEq X]

/-- Once `q` has entered `sleep(x, lk)`, let `w` acquire `lk`, keep it, and run `wakeup(x)` to its
end: then `q` is not asleep in that `sleep` any more. -/
theorem wakeup_not_lost {q w : Fin n} {x : X} {lk : L} {t₁ t₂ t₃ : List (Event (Fin n) L X)}
    (h : Reaches (t₃ ++ .acquired w lk :: t₂ ++ .slept q x lk :: t₁) s)
    (hkeep : ∀ e ∈ t₃, e ≠ .released w lk ∧ ∀ y, e ≠ .slept w y lk)
    (hsame : ∀ e ∈ t₃ ++ t₂, ∀ y m, e ≠ .slept q y m)
    (hreturn : Step s (some (.woke w x)) s') :
    ¬ (s'.state q = .sleeping ∧ s'.chan q = some x) := by
  rintro ⟨hst, -⟩
  obtain ⟨c, ch, hs⟩ := hreturn
  have hm := move_of_step hs
  have hlk : lk ∈ s.held w ∧ ∀ y, ¬ (s.pc w).InSleep y lk := by
    have h : Reaches (t₃ ++ .acquired w lk :: (t₂ ++ .slept q x lk :: t₁)) s := by simpa using h
    refine Run.since (I := fun s => lk ∈ s.held w ∧ ∀ y, ¬ (s.pc w).InSleep y lk) ?_ ?_ h
    · rintro s s' ⟨c, ch, hs⟩
      obtain ⟨hheld, hpc⟩ := (move_of_step hs).acquired
      exact ⟨hheld, by simp [hpc, PC.InSleep]⟩
    · rintro s s' o ho ⟨hheld, hnot⟩ ⟨c, ch, hs⟩
      refine (move_of_step hs).held hheld hnot ?_ fun y => ?_
      · rintro rfl
        exact (hkeep _ (ho _ rfl)).1 rfl
      · rintro rfl
        exact (hkeep _ (ho _ rfl)).2 y rfl
  -- the sleep that `q` is in is the one it entered before `w` acquired the lock
  have hlast : ∀ y m, (s.pc q).InSleep y m → y = x ∧ m = lk := by
    refine Run.since (I := fun s => ∀ y m, (s.pc q).InSleep y m → y = x ∧ m = lk) ?_ ?_ h
    · rintro s s' ⟨c, ch, hs⟩ y m hq
      rcases (move_of_step hs).inSleep hq with he | ⟨-, hne⟩
      · cases he
        exact ⟨rfl, rfl⟩
      · exact absurd rfl (hne x lk)
    · rintro s s' o ho hI ⟨c, ch, hs⟩ y m hq
      rcases (move_of_step hs).inSleep hq with rfl | ⟨hold, -⟩
      · have hmem := ho _ rfl
        simp only [List.mem_append, List.mem_cons, reduceCtorEq, false_or] at hmem
        exact absurd rfl (hsame _ (List.mem_append.mpr hmem) y m)
      · exact hI y m hold
  obtain ⟨y, m, hpc, -⟩ := (h.inv.move hm).asleep q hst
  have hin : (s'.pc q).InSleep y m := by
    rcases hpc with hpc | hpc <;> rw [hpc] <;> exact ⟨rfl, rfl⟩
  obtain ⟨rfl, rfl⟩ : y = x ∧ m = lk := by
    rcases hm.inSleep hin with he | ⟨hold, -⟩
    · cases he
    · exact hlast y m hold
  exact h.woke hm hlk.1 hst hpc

end Run

end

def exec {n : Nat} {C L X : Type} [DecidableEq C] [DecidableEq L] [DecidableEq X]
    (choice : C × Choice (Fin n) L X) (s : State (Fin n) C L X) :
    Option (State (Fin n) C L X × Option (Event (Fin n) L X)) :=
  step choice.1 choice.2 s

/-- Process 0 sleeps on CPU 0, then process 1 acquires the lock on CPU 1 and runs `wakeup` up to
its return. -/
def sleepAndWake : List (Fin 2 × Choice (Fin 2) Unit Unit) :=
  [(0, .pick 0), (0, .go), (0, .go), (0, .acquire ()), (0, .sleep () ()), (0, .go), (0, .go),
    (0, .go), (0, .go), (0, .go), (1, .pick 1), (1, .go), (1, .go), (1, .acquire ()),
    (1, .wakeup ()), (1, .go), (1, .go), (1, .go), (1, .go)]

def beforeReturn : State (Fin 2) (Fin 2) Unit Unit × List (Event (Fin 2) Unit Unit) :=
  (trace exec sleepAndWake (boot 2 (Fin 2) Unit Unit, [])).getD (boot 2 (Fin 2) Unit Unit, [])

def afterReturn : State (Fin 2) (Fin 2) Unit Unit :=
  ((step 1 .go beforeReturn.1).map Prod.fst).getD beforeReturn.1

theorem wakeup_not_lost_two :
    ¬ (afterReturn.state 0 = .sleeping ∧ afterReturn.chan 0 = some ()) := by
  have htrace : trace exec sleepAndWake (boot 2 (Fin 2) Unit Unit, []) =
      some (beforeReturn.1, [] ++ .acquired 1 () :: [] ++ .slept 0 () () :: [.acquired 0 ()]) := rfl
  exact wakeup_not_lost (Run.trace (fun l _ _ _ h => ⟨l.1, l.2, h⟩) Run.refl htrace) (by simp) (by simp) ⟨1, .go, rfl⟩

end Xv6.Sched
