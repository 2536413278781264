import Mathlib.Data.List.Basic

/-!
# Positional numerals

`ofNumeral value b s` reads `s` to the base `b`, most significant digit first; `value` says which
symbols are digits and what they stand for. `ofNumeralFrom` goes on from the digits already read.
-/

namespace Xv6.Foundation

set_option autoImplicit false

variable {γ : Type} (value : γ → Option Nat) (b : Nat)

def ofNumeralFrom : Nat → List γ → Option Nat
  | v, [] => some v
  | v, c :: s => (value c).bind fun i => ofNumeralFrom (b * v + i) s

def ofNumeral (s : List γ) : Option Nat := ofNumeralFrom value b 0 s

variable {value b}

theorem ofNumeralFrom_append (v : Nat) (s t : List γ) : ofNumeralFrom value b v (s ++ t) =
      (ofNumeralFrom value b v s).bind fun w => ofNumeralFrom value b w t := by
  induction s generalizing v with
  | nil => rfl
  | cons c s ih =>
    rw [List.cons_append, ofNumeralFrom, ofNumeralFrom, Option.bind_assoc]
    exact Option.bind_congr fun i _ => ih _

theorem ofNumeral_div_mod {s : List γ} {c : γ} {x : Nat} (hs : ofNumeral value b s = some (x / b))
    (hc : value c = some (x % b)) : ofNumeral value b (s ++ [c]) = some x := by
  unfold ofNumeral at hs ⊢
  rw [ofNumeralFrom_append, hs, Option.bind_some, ofNumeralFrom, hc, Option.bind_some,
    ofNumeralFrom, Nat.div_add_mod]

theorem ofNumeral_head {s : List γ} {c : γ} {x : Nat}
    (h : ofNumeral value b (c :: s) = some x) : value c ≠ none := by
  intro hc
  rw [ofNumeral, ofNumeralFrom, hc] at h
  exact nomatch h

end Xv6.Foundation
