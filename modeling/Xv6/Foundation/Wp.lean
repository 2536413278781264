import Mathlib.Tactic.Common

/-!
# Weakest preconditions for state with failure

A computation ends with a value or with an error, and keeps its state in both
cases: a machine that stops half way leaves behind what it had already written.
`wp f Q E s` says that a run from `s` ends in `Q` or, if it fails, in `E`.
-/

namespace Xv6.Foundation

set_option autoImplicit false

variable {ε σ α β : Type}

def wp (f : EStateM ε σ α) (Q : α → σ → Prop) (E : ε → σ → Prop) (s : σ) : Prop :=
  match f s with
  | .ok a s' => Q a s'
  | .error e s' => E e s'

theorem wp_of_ok {f : EStateM ε σ α} {s s' : σ} {a : α} {Q : α → σ → Prop} {E : ε → σ → Prop}
    (h : f s = .ok a s') : wp f Q E s ↔ Q a s' := by
  simp [wp, h]

theorem wp_of_error {f : EStateM ε σ α} {s s' : σ} {e : ε} {Q : α → σ → Prop} {E : ε → σ → Prop}
    (h : f s = .error e s') : wp f Q E s ↔ E e s' := by
  simp [wp, h]

/-- A run known by its end can be computed by the rules below. -/
theorem ok_iff_wp {f : EStateM ε σ α} {s s' : σ} {a : α} :
    f s = .ok a s' ↔ wp f (fun b t => b = a ∧ t = s') (fun _ _ => False) s := by
  unfold wp
  split <;> simp_all

theorem error_iff_wp {f : EStateM ε σ α} {s s' : σ} {e : ε} :
    f s = .error e s' ↔ wp f (fun _ _ => False) (fun d t => d = e ∧ t = s') s := by
  unfold wp
  split <;> simp_all

theorem wp_mono {f : EStateM ε σ α} {s : σ} {Q Q' : α → σ → Prop} {E E' : ε → σ → Prop}
    (h : wp f Q E s) (hq : ∀ a s', Q a s' → Q' a s') (he : ∀ e s', E e s' → E' e s') :
    wp f Q' E' s := by
  unfold wp at *
  split at h
  · exact hq _ _ h
  · exact he _ _ h

theorem wp_and {f : EStateM ε σ α} {s : σ} {Q Q' : α → σ → Prop} {E E' : ε → σ → Prop}
    (h : wp f Q E s) (h' : wp f Q' E' s) :
    wp f (fun a s' => Q a s' ∧ Q' a s') (fun e s' => E e s' ∧ E' e s') s := by
  unfold wp at *
  split <;> simp_all

theorem wp_congr {f : EStateM ε σ α} {s : σ} {P Q Q' : α → σ → Prop} {E : ε → σ → Prop}
    (hP : wp f P (fun _ _ => True) s) (h : ∀ a s', P a s' → (Q a s' ↔ Q' a s')) :
    wp f Q E s ↔ wp f Q' E s := by
  unfold wp at *
  split at hP
  · exact h _ _ hP
  · exact Iff.rfl

@[simp] theorem wp_pure (a : α) (Q : α → σ → Prop) (E : ε → σ → Prop) (s : σ) :
    wp (pure a : EStateM ε σ α) Q E s ↔ Q a s := Iff.rfl

@[simp] theorem wp_bind (f : EStateM ε σ α) (g : α → EStateM ε σ β) (Q : β → σ → Prop)
    (E : ε → σ → Prop) (s : σ) : wp (f >>= g) Q E s ↔ wp f (fun a s' => wp (g a) Q E s') E s := by
  simp only [wp, bind, EStateM.bind]
  cases f s <;> rfl

@[simp] theorem wp_map (f : EStateM ε σ α) (g : α → β) (Q : β → σ → Prop) (E : ε → σ → Prop)
    (s : σ) : wp (g <$> f) Q E s ↔ wp f (fun a => Q (g a)) E s := by
  rw [← bind_pure_comp, wp_bind]
  rfl

@[simp] theorem wp_throw (e : ε) (Q : α → σ → Prop) (E : ε → σ → Prop) (s : σ) :
    wp (throw e : EStateM ε σ α) Q E s ↔ E e s := Iff.rfl

@[simp] theorem wp_get (Q : σ → σ → Prop) (E : ε → σ → Prop) (s : σ) :
    wp (get : EStateM ε σ σ) Q E s ↔ Q s s := Iff.rfl

@[simp] theorem wp_set (t : σ) (Q : PUnit → σ → Prop) (E : ε → σ → Prop) (s : σ) :
    wp (set t : EStateM ε σ PUnit) Q E s ↔ Q ⟨⟩ t := Iff.rfl

@[simp] theorem wp_modify (g : σ → σ) (Q : PUnit → σ → Prop) (E : ε → σ → Prop) (s : σ) :
    wp (modify g : EStateM ε σ PUnit) Q E s ↔ Q ⟨⟩ (g s) := Iff.rfl

theorem wp_ite {c : Prop} [Decidable c] {f g : EStateM ε σ α} {Q : α → σ → Prop}
    {E : ε → σ → Prop} {s : σ} (ht : c → wp f Q E s) (hf : ¬ c → wp g Q E s) :
    wp (if c then f else g) Q E s := by
  split
  · exact ht ‹_›
  · exact hf ‹_›

/-- A call made in a context that needs less than the callee promises. -/
theorem wp_seq {f : EStateM ε σ α} {g : α → EStateM ε σ β} {s : σ}
    {Q : α → σ → Prop} {R : β → σ → Prop} {E E' : ε → σ → Prop}
    (h : wp f Q E s) (hq : ∀ a s', Q a s' → wp (g a) R E' s') (he : ∀ e s', E e s' → E' e s') :
    wp (f >>= g) R E' s := by
  rw [wp_bind]
  exact wp_mono h hq he

section Rules
variable {f : EStateM ε σ α} {g : α → EStateM ε σ β} {s : σ} {Q Q' : α → σ → Prop}
  {R : β → σ → Prop} {E : ε → σ → Prop}

theorem wp_post (h : wp f Q E s) (hq : ∀ a s', Q a s' → Q' a s') : wp f Q' E s :=
  wp_mono h hq fun _ _ he => he

theorem wp_then (h : wp f Q E s) (hq : ∀ a s', Q a s' → wp (g a) R E s') : wp (f >>= g) R E s :=
  wp_seq h hq fun _ _ he => he

theorem wp_sure_post (h : wp f Q (fun _ _ => False) s) (hq : ∀ a s', Q a s' → Q' a s') :
    wp f Q' E s :=
  wp_mono h hq fun _ _ hf => hf.elim

theorem wp_sure (h : wp f Q (fun _ _ => False) s) (hq : ∀ a s', Q a s' → wp (g a) R E s') :
    wp (f >>= g) R E s :=
  wp_seq h hq fun _ _ hf => hf.elim

end Rules

/-- `check c e` stops with `e` when the test `c` fires, as the code's `if(c) panic(e)` does. -/
def check (c : Bool) (e : ε) : EStateM ε σ Unit := if c then throw e else pure ()

@[simp] theorem wp_check (c : Bool) (e : ε) (Q : Unit → σ → Prop) (E : ε → σ → Prop) (s : σ) :
    wp (check c e) Q E s ↔ (c = true → E e s) ∧ (c = false → Q () s) := by
  cases c <;> simp [check]

def when (c : Bool) (f : EStateM ε σ Unit) : EStateM ε σ Unit := if c then f else pure ()

@[simp] theorem wp_when (c : Bool) (f : EStateM ε σ Unit) (Q : Unit → σ → Prop)
    (E : ε → σ → Prop) (s : σ) :
    wp (when c f) Q E s ↔ (c = true → wp f Q E s) ∧ (c = false → Q () s) := by
  cases c <;> simp [when]

end Xv6.Foundation
