import Mathlib.Logic.Function.Basic
import Xv6.Foundation.Run

/-!
# Threads over a shared state

A thread runs a program, a tree of atomic actions. An action is executed on the shared state in
one step; it answers, waits, or stops the whole machine. A `Logic` proves an invariant of every
interleaving one program at a time: each thread has a private ghost value, the invariant relates
the shared state to the ghost values of all threads, and an action of a thread changes its own
ghost value only.
-/

namespace Xv6.Foundation

open Function

set_option autoImplicit false

variable {P A S E C L α β : Type} {R : A → Type}

inductive Prog (A : Type) (R : A → Type) (α : Type) where
  | ret (a : α)
  | act (a : A) (k : R a → Prog A R α)

namespace Prog

def bind : Prog A R α → (α → Prog A R β) → Prog A R β
  | .ret a, f => f a
  | .act a k, f => .act a fun r => (k r).bind f

instance : Monad (Prog A R) where
  pure := .ret
  bind := bind

def lift (a : A) : Prog A R (R a) := .act a .ret

def when (c : Bool) (m : Prog A R Unit) : Prog A R Unit :=
  if c then m else pure ()

end Prog

inductive Outcome (S E α : Type) where
  | ok (r : α) (s : S)
  | panic (e : E)
  | blocked

/-- Runs a program with nothing in between. -/
def Prog.run (exec : (a : A) → S → Outcome S E (R a)) : Prog A R α → S → Outcome S E α
  | .ret a, s => .ok a s
  | .act a k, s =>
    match exec a s with
    | .ok r s' => run exec (k r) s'
    | .panic e => .panic e
    | .blocked => .blocked

theorem Prog.run_lift {exec : (a : A) → S → Outcome S E (R a)} {a : A} {s : S} :
    (Prog.lift a : Prog A R (R a)).run exec s = exec a s := by
  rw [Prog.lift, Prog.run]
  cases exec a s <;> rfl

variable {f : α → Prog A R β}

theorem Prog.run_bind {exec : (a : A) → S → Outcome S E (R a)} {m : Prog A R α} {s s' : S} {a : α} (h : m.run exec s = .ok a s') :
    (m >>= f).run exec s = (f a).run exec s' := by
  induction m generalizing s with
  | ret b =>
    cases h
    rfl
  | act b k ih =>
    show Prog.run exec (.act b fun r => k r >>= f) s = _
    rw [Prog.run] at h ⊢
    cases hb : exec b s with
    | ok r s₁ =>
      rw [hb] at h
      exact ih r h
    | panic e | blocked =>
      rw [hb] at h
      cases h

/-- If the program returns, then as `Q` says. -/
def Prog.Post (exec : (a : A) → S → Outcome S E (R a)) (m : Prog A R α) (s : S)
    (Q : α → S → Prop) : Prop :=
  ∀ a s', m.run exec s = .ok a s' → Q a s'

theorem Prog.Post.bind {exec : (a : A) → S → Outcome S E (R a)} {m : Prog A R α} {s : S} {Q : β → S → Prop}
    (h : m.Post exec s fun a s' => (f a).Post exec s' Q) : (m >>= f).Post exec s Q := by
  induction m generalizing s with
  | ret a => exact h a s rfl
  | act b k ih =>
    intro c s' hrun
    change Prog.run exec (.act b fun r => k r >>= f) s = _ at hrun
    rw [Prog.run] at hrun
    cases hb : exec b s with
    | ok r s₁ =>
      rw [hb] at hrun
      refine ih r (fun a s₂ ha => h a s₂ ?_) c s' hrun
      rw [Prog.run, hb]
      exact ha
    | panic e | blocked =>
      rw [hb] at hrun
      cases hrun

/-- The actions that a program takes when it runs with nothing in between. -/
def Prog.actions (exec : (a : A) → S → Outcome S E (R a)) : Prog A R α → S → List A
  | .ret _, _ => []
  | .act a k, s =>
    a :: match exec a s with
      | .ok r s' => actions exec (k r) s'
      | .panic _ => []
      | .blocked => []

/-- The program returns `a`, and all it does is `ok`. -/
structure Prog.RunsTo (exec : (a : A) → S → Outcome S E (R a)) (ok : A → Prop) (m : Prog A R α) (s : S)
    (a : α) (s' : S) : Prop where
  run : m.run exec s = .ok a s'
  actions : ∀ b ∈ m.actions exec s, ok b

section RunsTo
variable {exec : (a : A) → S → Outcome S E (R a)} {ok : A → Prop} {s s' s₁ : S}

theorem Prog.RunsTo.pure {a : α} : (pure a : Prog A R α).RunsTo exec ok s a s :=
  ⟨rfl, by simp [Pure.pure, Prog.actions]⟩

theorem Prog.RunsTo.act {a : A} {k : R a → Prog A R α} {r : R a} {b : α} (ha : ok a)
    (he : exec a s = .ok r s₁) (h : (k r).RunsTo exec ok s₁ b s') :
    (Prog.act a k).RunsTo exec ok s b s' := by
  refine ⟨?_, fun c hc => ?_⟩
  · rw [Prog.run, he]
    exact h.run
  · rw [Prog.actions, he] at hc
    rcases List.mem_cons.mp hc with rfl | hc
    · exact ha
    · exact h.actions c hc

theorem Prog.RunsTo.lift {a : A} {r : R a} (ha : ok a) (he : exec a s = .ok r s') :
    (Prog.lift a : Prog A R (R a)).RunsTo exec ok s r s' :=
  .act ha he .pure

theorem Prog.RunsTo.bind {m : Prog A R α} {f : α → Prog A R β} {a : α} {b : β}
    (hm : m.RunsTo exec ok s a s₁) (hf : (f a).RunsTo exec ok s₁ b s') :
    (m >>= f).RunsTo exec ok s b s' := by
  refine ⟨(Prog.run_bind hm.run).trans hf.run, ?_⟩
  induction m generalizing s with
  | ret c =>
    cases hm.run
    exact hf.actions
  | act c k ih =>
    have hrun := hm.run
    have hacts := hm.actions
    rw [Prog.run] at hrun
    rw [Prog.actions] at hacts
    intro d hd
    change d ∈ Prog.actions exec (.act c fun r => k r >>= f) s at hd
    rw [Prog.actions] at hd
    cases he : exec c s with
    | ok r s₂ =>
      rw [he] at hrun hacts hd
      rcases List.mem_cons.mp hd with rfl | hd
      · exact hacts _ List.mem_cons_self
      · exact ih r ⟨hrun, fun x hx => hacts x (List.mem_cons_of_mem _ hx)⟩ d hd
    | panic e | blocked =>
      rw [he] at hrun
      cases hrun

end RunsTo

/-- How actions execute, what happens when a thread begins a call, if it may make one, and the
program that each call runs. -/
structure Machine (P A : Type) (R : A → Type) (S E C α : Type) where
  exec : P → (a : A) → S → Outcome S E (R a)
  enter : P → S → Option S
  prog : C → Prog A R α

structure Sys (P A : Type) (R : A → Type) (S E α : Type) where
  shared : S
  thread : P → Prog A R α
  panicked : Option E

inductive Label (P C : Type) where
  | call (p : P) (c : C)
  | run (p : P)

def Sys.next? (σ : Sys P A R S E α) (p : P) : Option A :=
  match σ.thread p with
  | .ret _ => none
  | .act a _ => some a

def Sys.Idle (σ : Sys P A R S E α) (p : P) : Prop := σ.next? p = none

instance (σ : Sys P A R S E α) (p : P) : Decidable (σ.Idle p) :=
  inferInstanceAs (Decidable (σ.next? p = none))

namespace Machine
variable [DecidableEq P] (M : Machine P A R S E C α) {guard : P → A → S → Bool}
  {init σ σ' : Sys P A R S E α} {t ls : List (Label P C)}

/-- One atomic action of a thread, with its program cut open. -/
def stepProg (σ : Sys P A R S E α) (p : P) : Prog A R α → Option (Sys P A R S E α)
  | .ret _ => none
  | .act a k =>
    match M.exec p a σ.shared with
    | .ok r s => some { σ with shared := s, thread := Function.update σ.thread p (k r) }
    | .panic e => some { σ with panicked := some e }
    | .blocked => none

def step (σ : Sys P A R S E α) (l : Label P C) : Option (Sys P A R S E α) :=
  if σ.panicked.isSome then none
  else
    match l with
    | .call p c =>
      if σ.Idle p then
        (M.enter p σ.shared).map fun s =>
          { σ with shared := s, thread := Function.update σ.thread p (M.prog c) }
      else none
    | .run p => M.stepProg σ p (σ.thread p)

/-- What a step can be: the begin of a call, an action that answers, or one that panics. -/
theorem step_cases {σ σ' : Sys P A R S E α} {l : Label P C} (h : M.step σ l = some σ') :
    (∃ p c s, l = .call p c ∧ σ.Idle p ∧ M.enter p σ.shared = some s ∧
      σ' = { σ with shared := s, thread := update σ.thread p (M.prog c) }) ∨
    (∃ p a k r s, l = .run p ∧ σ.thread p = .act a k ∧ M.exec p a σ.shared = .ok r s ∧
      σ' = { σ with shared := s, thread := update σ.thread p (k r) }) ∨
    (∃ p a k e, l = .run p ∧ σ.thread p = .act a k ∧ M.exec p a σ.shared = .panic e ∧
      σ' = { σ with panicked := some e }) := by
  unfold step at h
  split_ifs at h
  cases l with
  | call p c =>
    simp only at h
    split_ifs at h with hidle
    obtain ⟨s, hs, rfl⟩ := Option.map_eq_some_iff.mp h
    exact Or.inl ⟨p, c, s, rfl, hidle, hs, rfl⟩
  | run p =>
    simp only at h
    cases hm : σ.thread p with
    | ret b =>
      rw [hm] at h
      cases h
    | act a k =>
      rw [hm] at h
      simp only [stepProg] at h
      cases he : M.exec p a σ.shared with
      | ok r s =>
        rw [he] at h
        exact Or.inr (Or.inl ⟨p, a, k, r, s, rfl, hm, he, (Option.some.inj h).symm⟩)
      | panic e =>
        rw [he] at h
        exact Or.inr (Or.inr ⟨p, a, k, e, rfl, hm, he, (Option.some.inj h).symm⟩)
      | blocked =>
        rw [he] at h
        cases h

/-- The action that the step takes is admitted by `guard`. -/
def Meets (guard : P → A → S → Prop) (σ : Sys P A R S E α) (l : Label P C) : Prop :=
  match l with
  | .call _ _ => True
  | .run p => ∀ a, σ.next? p = some a → guard p a σ.shared

/-- Steps all of whose actions are admitted. -/
def Step (guard : P → A → S → Prop) (σ : Sys P A R S E α) (l : Option (Label P C))
    (σ' : Sys P A R S E α) : Prop :=
  ∃ l', l = some l' ∧ M.step σ l' = some σ' ∧ Meets guard σ l'

theorem Step.mono {M : Machine P A R S E C α} {guard guard' : P → A → S → Prop}
    (hguard : ∀ p a s, guard p a s → guard' p a s) {σ σ' : Sys P A R S E α}
    {l : Option (Label P C)} (h : M.Step guard σ l σ') : M.Step guard' σ l σ' := by
  obtain ⟨l, rfl, hstep, hmeets⟩ := h
  refine ⟨l, rfl, hstep, ?_⟩
  cases l with
  | call p c => trivial
  | run p => exact fun a ha => hguard p a _ (hmeets a ha)

/-- `Meets`, for a guard that can be evaluated. -/
def admits (guard : P → A → S → Bool) (σ : Sys P A R S E α) : Label P C → Bool
  | .call _ _ => true
  | .run p => ((σ.next? p).map fun a => guard p a σ.shared).getD true

/-- Executes a list of labels and checks every action against `guard`. -/
def runs (guard : P → A → S → Bool) : List (Label P C) → Sys P A R S E α →
    Option (Sys P A R S E α)
  | [], σ => some σ
  | l :: ls, σ => if admits guard σ l then (M.step σ l).bind (runs guard ls) else none

omit [DecidableEq P] in
theorem meets_of_admits {σ : Sys P A R S E α} {l : Label P C}
    (h : admits guard σ l = true) : Meets (fun p a s => guard p a s) σ l := by
  cases l with
  | call p c => trivial
  | run p =>
    intro a ha
    simpa [admits, ha] using h

theorem run_of_runs (ht : Run (M.Step fun p a s => guard p a s) init t σ)
    (h : M.runs guard ls σ = some σ') :
    Run (M.Step fun p a s => guard p a s) init (ls.reverse ++ t) σ' := by
  induction ls generalizing σ t with
  | nil =>
    obtain rfl := Option.some.inj h
    exact ht
  | cons l ls ih =>
    simp only [runs] at h
    split at h
    · rename_i hadm
      obtain ⟨σ₁, hstep, hrest⟩ := Option.bind_eq_some_iff.mp h
      have := ih (ht.event ⟨l, rfl, hstep, meets_of_admits hadm⟩) hrest
      simpa using this
    · cases h

theorem run_of_any {M : Machine P A R S E C α} (ht : Run (M.Step fun _ _ _ => True) init t σ)
    (h : M.runs (fun _ _ _ => true) ls σ = some σ') :
    Run (M.Step fun _ _ _ => True) init (ls.reverse ++ t) σ' := by
  refine (M.run_of_runs ?_ h).mono fun _ _ _ hs => hs.mono fun _ _ _ _ => trivial
  exact ht.mono fun _ _ _ hs => hs.mono fun _ _ _ _ => rfl

end Machine

/-- A proof method for one machine: the actions that are assumed, the invariant, what every action
is to meet, the errors that may stop the machine, and what a thread is left with by a call. -/
structure Logic (M : Machine P A R S E C α) (L : Type) where
  guard : P → A → S → Prop
  inv : S → (P → L) → Prop
  safe : P → A → S → Prop
  stops : E → Prop
  done : P → α → L → Prop

namespace Logic
variable [DecidableEq P] {M : Machine P A R S E C α} (Λ : Logic M L)

/-- An action of `p` is safe and, if it answers, leads to `Q` with the invariant kept. -/
def After (p : P) (a : A) (Q : R a → L → Prop) (s : S) (ls : P → L) : Prop :=
  Λ.safe p a s ∧
    match M.exec p a s with
    | .ok r s' => ∃ l, Λ.inv s' (Function.update ls p l) ∧ Q r l
    | .panic e => Λ.stops e
    | .blocked => True

/-- A program of `p` may run in every interleaving, from ghost value `l`. -/
def wp (p : P) : Prog A R β → L → (β → L → Prop) → Prop
  | .ret b, l, Q => Q b l
  | .act a k, l, Q => ∀ s ls, Λ.inv s ls → ls p = l → Λ.guard p a s →
      Λ.After p a (fun r l' => wp p (k r) l' Q) s ls

variable {Λ} {p : P} {l : L} {Q : β → L → Prop} {σ : Sys P A R S E α}

theorem After.mono {a : A} {Q Q' : R a → L → Prop} {s : S} {ls : P → L}
    (h : Λ.After p a Q s ls) (hq : ∀ r l, Q r l → Q' r l) : Λ.After p a Q' s ls := by
  refine ⟨h.1, ?_⟩
  have h2 := h.2
  split at h2
  · obtain ⟨l, hi, hl⟩ := h2
    exact ⟨l, hi, hq _ _ hl⟩
  · exact h2
  · trivial

theorem wp_mono {m : Prog A R β} {Q Q' : β → L → Prop} (h : Λ.wp p m l Q)
    (hq : ∀ b l, Q b l → Q' b l) : Λ.wp p m l Q' := by
  induction m generalizing l with
  | ret b => exact hq _ _ h
  | act a k ih => exact fun s ls hi hl hg => (h s ls hi hl hg).mono fun r l' => ih r

theorem wp_bind {γ : Type} {m : Prog A R γ} {f : γ → Prog A R β}
    (h : Λ.wp p m l fun a l' => Λ.wp p (f a) l' Q) : Λ.wp p (m >>= f) l Q := by
  induction m generalizing l with
  | ret a => exact h
  | act a k ih => exact fun s ls hi hl hg => (h s ls hi hl hg).mono fun r l' => ih r

theorem wp_lift {a : A} {Q : R a → L → Prop}
    (h : ∀ s ls, Λ.inv s ls → ls p = l → Λ.guard p a s → Λ.After p a Q s ls) :
    Λ.wp p (.lift a) l Q := h

theorem wp_ite {c : Prop} [Decidable c] {m m' : Prog A R β}
    (ht : c → Λ.wp p m l Q) (hf : ¬ c → Λ.wp p m' l Q) : Λ.wp p (if c then m else m') l Q := by
  split
  · exact ht ‹_›
  · exact hf ‹_›

theorem wp_when {c : Bool} {m : Prog A R Unit} {Q : Unit → L → Prop}
    (ht : c = true → Λ.wp p m l Q) (hf : c = false → Q () l) : Λ.wp p (.when c m) l Q := by
  cases c with
  | true => exact ht rfl
  | false => exact hf rfl

variable (Λ)

/-- A thread may take its ghost value for another one at any time. -/
def Shift (p : P) (l l' : L) : Prop :=
  ∀ s ls, Λ.inv s ls → ls p = l → Λ.inv s (Function.update ls p l')

variable {Λ}

/-- A single action, with a change of the ghost value after it. -/
theorem wp_lift_shift {a : A} {Q Q' : R a → L → Prop} (h : Λ.wp p (.lift a) l Q)
    (hs : ∀ r l, Q r l → ∃ l', Λ.Shift p l l' ∧ Q' r l') : Λ.wp p (.lift a) l Q' := by
  intro s ls hi hl hg
  have hafter := h s ls hi hl hg
  refine ⟨hafter.1, ?_⟩
  have h2 := hafter.2
  split at h2
  · obtain ⟨l₁, hinv, hq⟩ := h2
    obtain ⟨l₂, hshift, hq'⟩ := hs _ _ hq
    refine ⟨l₂, ?_, hq'⟩
    have := hshift _ _ hinv (update_self ..)
    rwa [update_idem] at this
  · exact h2
  · trivial

variable (Λ)

/-- The invariant, with every thread in the middle of a program it may run. -/
def Kept (σ : Sys P A R S E α) : Prop :=
  (∃ ls, Λ.inv σ.shared ls ∧ ∀ p, Λ.wp p (σ.thread p) (ls p) (Λ.done p)) ∧
    ∀ e, σ.panicked = some e → Λ.stops e

variable {Λ}

theorem exists_done_of_idle (hidle : σ.Idle p)
    (h : Λ.wp p (σ.thread p) l (Λ.done p)) : ∃ r, σ.thread p = .ret r ∧ Λ.done p r l := by
  unfold Sys.Idle Sys.next? at hidle
  cases hm : σ.thread p with
  | ret b =>
    rw [hm] at h
    exact ⟨b, rfl, h⟩
  | act a k => simp [hm] at hidle

variable (Λ)

/-- Every call may be made by a thread that has ended its last one. -/
def Calls : Prop :=
  ∀ p c r s s' ls, Λ.inv s ls → Λ.done p r (ls p) → M.enter p s = some s' →
    ∃ l, Λ.inv s' (Function.update ls p l) ∧ Λ.wp p (M.prog c) l (Λ.done p)

variable {Λ}

theorem Kept.step {σ σ' : Sys P A R S E α} {lab : Option (Label P C)} (hcalls : Λ.Calls)
    (h : Λ.Kept σ) (hs : M.Step Λ.guard σ lab σ') : Λ.Kept σ' := by
  obtain ⟨lab, rfl, hstep, hmeets⟩ := hs
  obtain ⟨⟨ls, hinv, hwp⟩, hstop⟩ := h
  -- the thread that moves has a new ghost value, the others keep theirs
  have hupdate : ∀ p m l, Λ.wp p m l (Λ.done p) → ∀ q, Λ.wp q (update σ.thread p m q)
      (update ls p l q) (Λ.done q) := by
    intro p m l hl q
    by_cases hq : q = p
    · subst hq
      simpa using hl
    · simpa [hq] using hwp q
  rcases M.step_cases hstep with ⟨p, c, s, rfl, hidle, henter, rfl⟩ |
    ⟨p, a, k, r, s, rfl, hm, he, rfl⟩ | ⟨p, a, k, e, rfl, hm, he, rfl⟩
  · obtain ⟨r, -, hdone⟩ := exists_done_of_idle hidle (hwp p)
    obtain ⟨l, hinv', hl⟩ := hcalls p c r _ _ ls hinv hdone henter
    exact ⟨⟨_, hinv', hupdate p _ l hl⟩, hstop⟩
  · have hp := hwp p
    rw [hm] at hp
    have hafter := (hp σ.shared ls hinv rfl (hmeets a (by simp [Sys.next?, hm]))).2
    rw [he] at hafter
    obtain ⟨l, hinv', hl⟩ := hafter
    exact ⟨⟨_, hinv', hupdate p _ l hl⟩, hstop⟩
  · have hp := hwp p
    rw [hm] at hp
    have hafter := (hp σ.shared ls hinv rfl (hmeets a (by simp [Sys.next?, hm]))).2
    rw [he] at hafter
    refine ⟨⟨ls, hinv, hwp⟩, fun e' he' => ?_⟩
    obtain rfl := Option.some.inj he'
    exact hafter

/-- The invariant holds in every state of every run of admitted steps. -/
theorem Kept.run {init σ : Sys P A R S E α} {t : List (Label P C)} (hcalls : Λ.Calls)
    (h : Λ.Kept init) (hr : Run (M.Step Λ.guard) init t σ) : Λ.Kept σ :=
  hr.invariant (I := fun _ σ => Λ.Kept σ) h (fun _ _ _ _ hk hs => hk.step hcalls hs)
    fun _ _ _ _ _ hk hs => hk.step hcalls hs

theorem wp_weaken {safe : P → A → S → Prop} (hsafe : ∀ a s, Λ.safe p a s → safe p a s)
    {m : Prog A R β} (h : Λ.wp p m l Q) : ({ Λ with safe := safe } : Logic M L).wp p m l Q := by
  induction m generalizing l with
  | ret b => exact h
  | act a k ih =>
    intro s ls hi hl hg
    have ha := h s ls hi hl hg
    exact ⟨hsafe a s ha.1, (ha.mono fun r l' => ih r).2⟩

theorem Kept.weaken {safe : P → A → S → Prop} (hsafe : ∀ p a s, Λ.safe p a s → safe p a s) (h : Λ.Kept σ) : ({ Λ with safe := safe } : Logic M L).Kept σ := by
  obtain ⟨⟨ls, hinv, hwp⟩, hstop⟩ := h
  exact ⟨⟨ls, hinv, fun p => wp_weaken (hsafe p) (hwp p)⟩, hstop⟩

theorem Kept.safe {a : A} (h : Λ.Kept σ) (ha : σ.next? p = some a)
    (hg : Λ.guard p a σ.shared) : Λ.safe p a σ.shared := by
  obtain ⟨⟨ls, hinv, hwp⟩, -⟩ := h
  have hp := hwp p
  unfold Sys.next? at ha
  cases hm : σ.thread p with
  | ret b => simp [hm] at ha
  | act a' k =>
    obtain rfl : a' = a := by simpa [hm] using ha
    rw [hm] at hp
    exact (hp σ.shared ls hinv rfl hg).1

end Logic

end Xv6.Foundation
