import Mathlib.Logic.Function.Basic
import Mathlib.Tactic.Common

/-!
# Ordered point writes

A device that applies single writes atomically and in order. What a crash leaves behind
is the effect of some prefix of the writes.
-/

namespace Xv6.Foundation

set_option autoImplicit false

variable {α β : Type} [DecidableEq α] {ws : List (α × β)}

def applyWrites (ws : List (α × β)) (d : α → β) : α → β :=
  ws.foldl (fun d w => Function.update d w.1 w.2) d

@[simp] theorem applyWrites_nil (d : α → β) : applyWrites [] d = d := rfl

@[simp] theorem applyWrites_cons (w : α × β) (ws : List (α × β)) (d : α → β) :
    applyWrites (w :: ws) d = applyWrites ws (Function.update d w.1 w.2) := rfl

theorem applyWrites_append (ws vs : List (α × β)) (d : α → β) :
    applyWrites (ws ++ vs) d = applyWrites vs (applyWrites ws d) := by
  simp [applyWrites]

theorem applyWrites_of_not_mem {d : α → β} {a : α}
    (h : ∀ w ∈ ws, w.1 ≠ a) : applyWrites ws d a = d a := by
  induction ws generalizing d with
  | nil => rfl
  | cons w ws ih =>
    rw [applyWrites_cons, ih fun v hv => h v (List.mem_cons_of_mem w hv)]
    exact Function.update_of_ne (h w List.mem_cons_self).symm _ _

theorem applyWrites_of_mem {d : α → β} {a : α} {v : β}
    (h : ∀ w ∈ ws, w.1 = a → w.2 = v) (hm : (a, v) ∈ ws) : applyWrites ws d a = v := by
  induction ws generalizing d with
  | nil => cases hm
  | cons w ws ih =>
    rw [applyWrites_cons]
    by_cases hw : (a, v) ∈ ws
    · exact ih (fun u hu => h u (List.mem_cons_of_mem w hu)) hw
    · rcases List.mem_cons.mp hm with rfl | hm
      · rw [applyWrites_of_not_mem]
        · simp
        · intro u hu hua
          apply hw
          have hv := h u (List.mem_cons_of_mem _ hu) hua
          rw [← hua, ← hv]
          exact hu
      · exact absurd hm hw

end Xv6.Foundation
