import Mathlib.Algebra.Ring.Nat
import Mathlib.Tactic.Common

/-!
# Runs of a labelled transition system

A step emits at most one event. `Run step init t s` says that `s` is reached from `init` with
history `t`, the newest event first.
-/

namespace Xv6.Foundation

set_option autoImplicit false

-- The parties of a small system are numbered by literals.
instance neZero_one : NeZero 1 := ⟨by decide⟩

instance neZero_two : NeZero 2 := ⟨by decide⟩

instance neZero_three : NeZero 3 := ⟨by decide⟩

variable {σ ε : Type}

inductive Run (step : σ → Option ε → σ → Prop) (init : σ) : List ε → σ → Prop where
  | refl : Run step init [] init
  | silent {t s s'} : Run step init t s → step s none s' → Run step init t s'
  | event {t s s' e} : Run step init t s → step s (some e) s' → Run step init (e :: t) s'

namespace Run
variable {step : σ → Option ε → σ → Prop} {init : σ} {t : List ε} {s : σ}

/-- What holds at first, and is kept by every step, holds at the end of every run. -/
theorem invariant {I : List ε → σ → Prop} (hinit : I [] init)
    (hsilent : ∀ t s s', Run step init t s → I t s → step s none s' → I t s')
    (hevent : ∀ t s s' e, Run step init t s → I t s → step s (some e) s' → I (e :: t) s') (h : Run step init t s) : I t s := by
  induction h with
  | refl => exact hinit
  | silent hr hs ih => exact hsilent _ _ _ hr ih hs
  | event hr hs ih => exact hevent _ _ _ _ hr ih hs

theorem trans {t' : List ε} {s' : σ} (h : Run step init t s) (h' : Run step s t' s') :
    Run step init (t' ++ t) s' := by
  induction h' with
  | refl => exact h
  | silent _ hs ih => exact ih.silent hs
  | event _ hs ih => exact ih.event hs

theorem mono {step' : σ → Option ε → σ → Prop} (hstep : ∀ s e s', step s e s' → step' s e s') (h : Run step init t s) : Run step' init t s := by
  induction h with
  | refl => exact .refl
  | silent _ hs ih => exact ih.silent (hstep _ _ _ hs)
  | event _ hs ih => exact ih.event (hstep _ _ _ hs)

/-- A run of one system, step by step a run of another. -/
theorem simulate {τ : Type} {step' : τ → Option ε → τ → Prop} {I : σ → Prop} {f : σ → τ}
    (hstep : ∀ s e s', I s → step s e s' → I s' ∧ step' (f s) e (f s')) (hinit : I init) (h : Run step init t s) : I s ∧ Run step' (f init) t (f s) := by
  induction h with
  | refl => exact ⟨hinit, .refl⟩
  | silent _ hs ih => exact ⟨(hstep _ _ _ ih.1 hs).1, ih.2.silent (hstep _ _ _ ih.1 hs).2⟩
  | event _ hs ih => exact ⟨(hstep _ _ _ ih.1 hs).1, ih.2.event (hstep _ _ _ ih.1 hs).2⟩

theorem exists_step {t₁ t₂ : List ε} {e : ε} (h : Run step init (t₂ ++ e :: t₁) s) :
    ∃ s₁ s₂, Run step init t₁ s₁ ∧ step s₁ (some e) s₂ := by
  generalize ht : t₂ ++ e :: t₁ = t at h
  induction h generalizing t₂ with
  | refl => simp at ht
  | silent _ _ ih => exact ih ht
  | @event t s s' e' hr hs ih =>
    cases t₂ with
    | nil =>
      obtain ⟨rfl, rfl⟩ := List.cons.inj ht
      exact ⟨s, s', hr, hs⟩
    | cons d t₂ => exact ih (List.cons.inj ht).2

/-- What a step has established holds as long as the events after it keep it. -/
theorem since {I : σ → Prop} {t₁ t₂ : List ε} {e : ε} (hstep : ∀ s s', step s (some e) s' → I s')
    (hkeep : ∀ s s' o, (∀ d ∈ o, d ∈ t₂) → I s → step s o s' → I s')
    (h : Run step init (t₂ ++ e :: t₁) s) : I s := by
  generalize ht : t₂ ++ e :: t₁ = t at h
  induction h generalizing t₂ with
  | refl => simp at ht
  | silent _ hs ih => exact hkeep _ _ _ (by simp) (ih hkeep ht) hs
  | event _ hs ih =>
    cases t₂ with
    | nil =>
      obtain ⟨rfl, rfl⟩ := List.cons.inj ht
      exact hstep _ _ hs
    | cons d t₂ =>
      obtain ⟨rfl, hrest⟩ := List.cons.inj ht
      refine hkeep _ _ _ (by simp) (ih (fun s s' o ho => ?_) hrest) hs
      exact hkeep s s' o fun d hd => List.mem_cons_of_mem _ (ho d hd)

end Run

section Trace
variable {ℓ : Type} (exec : ℓ → σ → Option (σ × Option ε))

def trace : List ℓ → σ × List ε → Option (σ × List ε)
  | [], r => some r
  | l :: rest, (s, t) => (exec l s).bind fun (s', e) => trace rest (s', e.toList ++ t)

variable {exec}

theorem Run.trace {step : σ → Option ε → σ → Prop} {init s s' : σ} {t t' : List ε} {ls : List ℓ}
    (hexec : ∀ l s s' e, exec l s = some (s', e) → step s e s') (h : Run step init t s)
    (hs : trace exec ls (s, t) = some (s', t')) : Run step init t' s' := by
  induction ls generalizing s t with
  | nil =>
    cases hs
    exact h
  | cons l ls ih =>
    obtain ⟨⟨s₁, e⟩, hstep, hrest⟩ := Option.bind_eq_some_iff.mp hs
    cases e with
    | none => exact ih (Run.silent h (hexec _ _ _ _ hstep)) hrest
    | some e => exact ih (Run.event h (hexec _ _ _ _ hstep)) hrest

def after (exec : ℓ → σ → Option (σ × Option ε)) (ls : List ℓ) (s : σ) : σ :=
  ((trace exec ls (s, [])).map Prod.fst).getD s

theorem Run.after {step : σ → Option ε → σ → Prop} {s : σ} {ls : List ℓ}
    (hexec : ∀ l s s' e, exec l s = some (s', e) → step s e s')
    (hs : (Foundation.trace exec ls (s, [])).isSome = true) :
    ∃ t, Run step s t (Foundation.after exec ls s) := by
  obtain ⟨⟨s', t⟩, ht⟩ := Option.isSome_iff_exists.mp hs
  refine ⟨t, ?_⟩
  rw [Foundation.after, ht]
  exact Run.trace hexec Run.refl ht

end Trace

end Xv6.Foundation
