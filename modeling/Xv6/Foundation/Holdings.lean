import Mathlib.Data.Fintype.BigOperators
import Xv6.Foundation.Threads

/-!
# What threads hold

Each thread holds a multiset of tokens. `gather` is the multiset of all tokens with their owners;
an invariant that counts tokens there is kept by a thread that exchanges some of its own.
-/

namespace Xv6.Foundation

open Function

set_option autoImplicit false

variable {P T L : Type}

def owned (p : P) (X : Multiset T) : Multiset (P × T) := X.map (Prod.mk p)

section Owned
variable {p q : P} {t : T} {X Y : Multiset T}

@[simp]
theorem owned_zero : owned p (0 : Multiset T) = 0 := rfl

@[simp]
theorem owned_singleton : owned p ({t} : Multiset T) = {(p, t)} := rfl

@[simp]
theorem owned_cons : owned p (t ::ₘ X) = (p, t) ::ₘ owned p X := Multiset.map_cons _ _ _

@[simp]
theorem owned_add : owned p (X + Y) = owned p X + owned p Y := Multiset.map_add _ _ _

@[simp]
theorem mem_owned : (q, t) ∈ owned p X ↔ q = p ∧ t ∈ X := by
  simp only [owned, Multiset.mem_map, Prod.mk.injEq]
  constructor
  · rintro ⟨a, ha, rfl, rfl⟩
    exact ⟨rfl, ha⟩
  · rintro ⟨rfl, ht⟩
    exact ⟨t, ht, rfl, rfl⟩

theorem countP_owned (π : P × T → Prop) [DecidablePred π] :
    (owned p X).countP π = X.countP fun t => π (p, t) := by
  rw [owned, Multiset.countP_map, ← Multiset.countP_eq_card_filter]

end Owned

section Gather
variable [Fintype P] {p q : P} {t : T} {f : P → Multiset T} {X Y F : Multiset T}

def gather (f : P → Multiset T) : Multiset (P × T) := ∑ p, owned p (f p)

@[simp]
theorem mem_gather : (p, t) ∈ gather f ↔ t ∈ f p := by
  simp [gather, Multiset.mem_sum]

theorem gather_zero (h : ∀ p, f p = 0) : gather f = 0 := by
  simp [gather, h]

theorem countP_gather (π : P × T → Prop) [DecidablePred π] :
    (gather f).countP π = ∑ p, (f p).countP fun t => π (p, t) := by
  rw [gather, ← Multiset.coe_countPAddMonoidHom, map_sum]
  simp only [Multiset.coe_countPAddMonoidHom, countP_owned]

variable [DecidableEq P]

/-- All tokens but those that `p` shows, if it keeps `F` covered. -/
def others (f : P → Multiset T) (p : P) (F : Multiset T) : Multiset (P × T) :=
  owned p F + ∑ q ∈ Finset.univ.erase p, owned q (f q)

theorem gather_eq (h : f p = F) : gather f = others f p F := by
  rw [gather, ← Finset.add_sum_erase _ _ (Finset.mem_univ p), h, others]

theorem gather_eq_cons (h : f p = t ::ₘ F) : gather f = (p, t) ::ₘ others f p F := by
  rw [gather_eq h, others, others, owned_cons, Multiset.cons_add]

theorem gather_update : gather (update f p F) = others f p F := by
  rw [gather_eq (update_self ..)]
  have hrest : ∑ q ∈ Finset.univ.erase p, owned q (update f p F q) =
      ∑ q ∈ Finset.univ.erase p, owned q (f q) :=
    Finset.sum_congr rfl fun q hq => by rw [update_of_ne (Finset.ne_of_mem_erase hq)]
  rw [others, hrest, others]

theorem gather_update_cons : gather (update f p (t ::ₘ F)) = (p, t) ::ₘ others f p F := by
  rw [gather_update, others, others, owned_cons, Multiset.cons_add]

theorem countP_gather_of_owner (π : T → Prop) [DecidablePred π] :
    (gather f).countP (fun x => x.1 = p ∧ π x.2) = (f p).countP π := by
  rw [countP_gather, Finset.sum_eq_single p]
  · simp
  · intro q _ hq
    simp [hq]
  · simp

end Gather

variable [DecidableEq P]

theorem field_update {β : Type} (field : L → β) (ls : P → L) (p : P) (l : L) :
    (fun q => field (update ls p l q)) =
      update (fun q => field (ls q)) p (field l) :=
  (comp_update field ls p l)

theorem field_update_same {β : Type} (field : L → β) {ls : P → L} {p : P} {l : L}
    (h : field l = field (ls p)) :
    (fun q => field (update ls p l q)) = fun q => field (ls q) := by
  rw [field_update, h]
  exact update_eq_self p _

end Xv6.Foundation
