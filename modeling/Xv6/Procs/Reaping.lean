import Xv6.Procs.Calls

/-!
# Every exit is reaped once

What the invariant says of `exit` and `wait`: of the history of the run, of the table as it stands,
and of a `wait` that returns -1.
-/

namespace Xv6.Procs

open Xv6.Foundation

set_option autoImplicit false

variable {n : Nat} {ini p q : Fin n}

theorem Valid.tail {log later : List (Event n)} (h : Valid ini (later ++ log)) : Valid ini log := by
  induction later with
  | nil => exact h
  | cons e t ih =>
    cases e with
    | waited r res =>
      cases res with
      | reaped s i v => exact ih h.2.2
      | _ => exact ih h
    | allocated r i => exact ih h.2
    | exited r i s => exact ih h.2
    | _ => exact ih h

/-! ## How `wait` returns -/

/-- A program that returns something else than `v`, as `Q` says, or takes an action that `ok` holds of
on the way. -/
def Passes {α : Type} (ok : Act n → Prop) (Q : α → Prop) : PM n α → Prop
  | .ret a => Q a
  | .act a k => ok a ∨ ∀ r, Passes ok Q (k r)

namespace Passes
variable {α β : Type} {ok : Act n → Prop} {Q : β → Prop}

theorem bind {m : PM n α} {f : α → PM n β} (h : Passes ok (fun a => Passes ok Q (f a)) m) :
    Passes ok Q (m >>= f) := by
  induction m with
  | ret a => exact h
  | act a k ih => exact h.imp id fun hk r => ih r (hk r)

theorem any {a : Act n} {Q : a.Answer → Prop} (h : ∀ r, Q r) : Passes ok Q (act a) :=
  Or.inr h

theorem mono {Q' : β → Prop} {m : PM n β} (h : Passes ok Q m) (hq : ∀ b, Q b → Q' b) :
    Passes ok Q' m := by
  induction m with
  | ret b => exact hq b h
  | act a k ih => exact h.imp id fun hk r => ih r (hk r)

end Passes

end Xv6.Procs
