import Mathlib.Tactic.Common

/-!
# Loops with fuel

A loop or a recursion that is not bounded in advance takes fuel, and answers nothing when it runs
out. `Settles f a` says that it ends with `a`: enough fuel gives `a`, and so does more.
-/

namespace Xv6.Foundation

set_option autoImplicit false

variable {α β : Type}

def Settles (f : Nat → Option α) (a : α) : Prop := ∃ n, ∀ k, n ≤ k → f k = some a

namespace Settles
variable {f : Nat → Option α} {a b : α}

theorem of_eq (h : ∀ k, f k = some a) : Settles f a := ⟨0, fun k _ => h k⟩

theorem of_add {n : Nat} (h : ∀ k, f (k + n) = some a) : Settles f a := by
  refine ⟨n, fun k hk => ?_⟩
  rw [← Nat.sub_add_cancel hk]
  exact h _

/-- One call, which hands one unit less to the rest. -/
theorem call {g : Nat → Option α} (h : Settles g a) (hcall : ∀ k, f (k + 1) = g k) :
    Settles f a := by
  obtain ⟨n, hn⟩ := h
  refine ⟨n + 1, fun k hk => ?_⟩
  obtain ⟨j, rfl⟩ : ∃ j, k = j + 1 := ⟨k - 1, by omega⟩
  rw [hcall, hn j (by omega)]

theorem bind {g : Nat → α → Option β} {b : β} (h : Settles f a) (hg : Settles (g · a) b) :
    Settles (fun k => (f k).bind (g k)) b := by
  obtain ⟨n, hn⟩ := h
  obtain ⟨m, hm⟩ := hg
  refine ⟨n + m, fun k hk => ?_⟩
  show (f k).bind (g k) = some b
  rw [hn k (by omega), Option.bind_some]
  exact hm k (by omega)

theorem unique (h : Settles f a) (h' : Settles f b) : a = b := by
  obtain ⟨n, hn⟩ := h
  obtain ⟨m, hm⟩ := h'
  exact Option.some.inj ((hn _ (Nat.le_add_right n m)).symm.trans (hm _ (Nat.le_add_left m n)))

end Settles

/-- The loop ends, with the answer to the question `p`. -/
def Decides (f : Nat → Option Bool) (p : Prop) : Prop := ∃ r, Settles f r ∧ (r = true ↔ p)

namespace Decides
variable {f g : Nat → Option Bool} {p q : Prop}

theorem of_eq {r : Bool} (h : ∀ k, f k = some r) (hr : r = true ↔ p) : Decides f p :=
  ⟨r, .of_eq h, hr⟩

theorem congr (h : Decides f p) (hpq : p ↔ q) : Decides f q := by
  obtain ⟨r, hs, hr⟩ := h
  exact ⟨r, hs, hr.trans hpq⟩

theorem call (h : Decides g p) (hcall : ∀ k, f (k + 1) = g k) : Decides f p := by
  obtain ⟨r, hs, hr⟩ := h
  exact ⟨r, hs.call hcall, hr⟩

theorem or_else (h : Decides f p) (hg : ¬ p → Decides g q) :
    Decides (fun k => (f k).bind fun found => if found then some true else g k) (p ∨ q) := by
  obtain ⟨r, hs, hr⟩ := h
  cases r with
  | true => exact ⟨true, hs.bind (.of_eq fun _ => rfl), by simp [hr.mp rfl]⟩
  | false =>
    have hp : ¬ p := fun hp => nomatch hr.mpr hp
    obtain ⟨r, hs', hr'⟩ := hg hp
    exact ⟨r, hs.bind hs', by simp [hr', hp]⟩

end Decides

end Xv6.Foundation
