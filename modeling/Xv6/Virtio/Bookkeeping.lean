import Xv6.Virtio.Owners

/-!
# The driver's bookkeeping in every run
-/

namespace Xv6.Virtio

open Xv6.Foundation Function

set_option autoImplicit false

theorem sized : Ring.Sized NUM (2 ^ 16) := ⟨by decide, by decide, by decide⟩

variable {P B : Type}

namespace State
variable (s : State P B)

def chain (p : P) : Option Chain := (s.pc p).chain
def request (p : P) : Option (Request B) := (s.pc p).request
def told (p : P) : Bool := (s.pc p).told

end State

/-- One ring: the entries between the consumer's index and the producer's. -/
structure Holds (ring : Nat → Nat) (out into : Nat) (xs : List Nat) : Prop where
  out_lt : out < 2 ^ 16
  into_eq : into = (out + xs.length) % 2 ^ 16
  window : Ring.Window NUM (2 ^ 16) ring out xs

namespace Holds
variable {ring : Nat → Nat} {out into : Nat} {xs : List Nat} (h : Holds ring out into xs)
include h

theorem slot_into : into % NUM = Ring.slot NUM (2 ^ 16) out xs.length := by
  rw [h.into_eq, Ring.slot]

theorem count_eq : Ring.count (2 ^ 16) out into = xs.length := by
  have hout := h.out_lt
  have hle : xs.length ≤ 8 := h.window.length_le
  have hinto := h.into_eq
  rw [Ring.count]
  omega

theorem empty_iff : out = into ↔ xs = [] := by
  have hout := h.out_lt
  have hle : xs.length ≤ 8 := h.window.length_le
  have hinto := h.into_eq
  rw [← List.length_eq_zero_iff]
  omega

theorem slot_ne (hlt : xs.length < NUM) {j : Nat} (hj : j < Ring.count (2 ^ 16) out into) :
    Ring.slot NUM (2 ^ 16) out j ≠ into % NUM := by
  rw [h.count_eq] at hj
  rw [h.slot_into]
  exact Ring.slot_ne sized out hj (by omega)

theorem write (hlt : xs.length < NUM) (x : Nat) :
    Holds (update ring (into % NUM) x) out into xs := by
  refine ⟨h.out_lt, h.into_eq, ?_⟩
  rw [h.slot_into]
  exact (h.window.push sized hlt x).of_append

theorem bump (hlt : xs.length < NUM) {x : Nat} (hx : ring (into % NUM) = x) :
    Holds ring out ((into + 1) % 2 ^ 16) (xs ++ [x]) := by
  refine ⟨h.out_lt, ?_, ?_⟩
  · rw [h.into_eq, Nat.mod_add_mod, List.length_append, List.length_singleton, Nat.add_assoc]
  · have hpush := h.window.push sized hlt x
    subst hx
    rwa [← h.slot_into, update_eq_self] at hpush

theorem push (hlt : xs.length < NUM) (x : Nat) :
    Holds (update ring (into % NUM) x) out ((into + 1) % 2 ^ 16) (xs ++ [x]) :=
  (h.write hlt x).bump hlt (update_self ..)

theorem pop (hne : out ≠ into) : ∃ ys, xs = ring (out % NUM) :: ys ∧
    Holds ring ((out + 1) % 2 ^ 16) into ys := by
  cases xs with
  | nil => exact absurd (h.empty_iff.mpr rfl) hne
  | cons x ys =>
    have hfront := h.window.front
    rw [Ring.slot, Nat.add_zero, Nat.mod_eq_of_lt h.out_lt] at hfront
    refine ⟨ys, by rw [hfront], Nat.mod_lt _ (by decide), ?_, h.window.pop⟩
    rw [h.into_eq, Nat.mod_add_mod]
    simp only [List.length_cons, Nat.add_assoc, Nat.add_comm 1]

end Holds

structure Inv (s : State P B) (A U : List Nat) : Prop where
  calm : s.panicked = none
  chains : Chains s.disk.free s.disk.desc s.chain
  owners : Owners s.disk.info s.busy s.chain s.request s.told A s.inFlight U
  avail : Holds s.disk.availRing s.fetched s.disk.availIdx A
  used : Holds s.disk.usedRing s.disk.seen s.disk.usedIdx U
  lock : ∀ p, (s.pc p).holds = true → s.lock = some (.proc p)
  stored : ∀ p r c, s.pc p = .bump r c → s.disk.availRing (s.disk.availIdx % NUM) = c.i0

namespace Inv
variable {s s' : State P B} {A U : List Nat}

theorem init (P B : Type) : Inv (init P B) [] [] := by
  have hring : Holds (fun _ => 0) 0 0 [] := ⟨by decide, rfl, .nil _ _⟩
  have hchain : ∀ p c, (Virtio.init P B).chain p ≠ some c := nofun
  have hrequest : ∀ p r, (Virtio.init P B).request p ≠ some r := nofun
  constructor
  · rfl
  · constructor
    · exact fun p c h => absurd h (hchain p c)
    · exact fun p c h => absurd h (hchain p c)
    · exact fun p q c e i h => absurd h (hchain p c)
    · intro i hi hf
      simp [Virtio.init, hi] at hf
    · exact fun p c h => absurd h (hchain p c)
  · constructor
    · exact List.nodup_nil
    · exact fun i h => absurd h List.not_mem_nil
    · exact fun p c h => absurd h (hchain p c)
    · exact fun p r c h => absurd h (hrequest p r)
    · exact fun p r c h => absurd h (hrequest p r)
    · exact fun i h => absurd h List.not_mem_nil
    · exact fun p q r r' h => absurd h (hrequest p r)
  · exact hring
  · exact hring
  · exact fun p h => absurd h Bool.false_ne_true
  · nofun

/-- A request that the device does not know of leaves room for its head. -/
theorem room (h : Inv s A U) {p : P} {c : Chain} (hp : s.chain p = some c)
    (ht : s.told p = false) : c.i0 ∉ A ++ (s.inFlight ++ U) ∧ A.length < NUM := by
  have hnot : c.i0 ∉ A ++ (s.inFlight ++ U) := by
    intro hm
    obtain ⟨q, e, hq, htq, he⟩ := h.owners.owner _ hm
    rw [h.chains.head_inj hq hp he, ht] at htq
    cases htq
  have hlt := h.owners.length_lt h.chains (h.chains.taken p c hp _ c.head_mem).1 hnot
  rw [List.length_append] at hlt
  exact ⟨hnot, by omega⟩

theorem room_used (h : Inv s A U) {i : Nat} (hi : i ∈ s.inFlight) : U.length < NUM := by
  have hmem : i ∈ A ++ (s.inFlight ++ U) := List.mem_append_right _ (List.mem_append_left _ hi)
  have hsub : A ++ (s.inFlight ++ U) ⊆ List.range NUM :=
    fun j hj => List.mem_range.mpr (h.owners.heads_lt h.chains j hj)
  have hle := (h.owners.nodup.subperm hsub).length_le
  have hpos := List.length_pos_of_mem hi
  rw [List.length_append, List.length_append, List.length_range] at hle
  omega

end Inv

/-! ## How a step changes what is observed of the processes -/

/-- The same request at the same stage, as far as the device is concerned. -/
structure Alike (x y : PC B) : Prop where
  chain : y.chain = x.chain
  request : y.request = x.request
  told : y.told = x.told
  bump : ∀ r c, y = .bump r c → x = .bump r c

theorem Alike.refl (x : PC B) : Alike x x := ⟨rfl, rfl, rfl, fun _ _ h => h⟩

theorem alike_wakeFree (x : PC B) : Alike x x.wakeFree := by
  cases x with
  | asleepFree r => exact ⟨rfl, rfl, rfl, nofun⟩
  | _ => exact .refl _

theorem alike_wakeBuf [DecidableEq B] (b : B) (x : PC B) : Alike x (x.wakeBuf b) := by
  cases x with
  | asleep r c =>
    simp only [PC.wakeBuf]
    split
    · exact ⟨rfl, rfl, rfl, nofun⟩
    · exact .refl _
  | _ => exact .refl _

theorem wakeFree_holds (x : PC B) : x.wakeFree.holds = x.holds := by
  cases x <;> rfl

theorem wakeBuf_holds [DecidableEq B] (b : B) (x : PC B) : (x.wakeBuf b).holds = x.holds := by
  cases x with
  | asleep r c =>
    simp only [PC.wakeBuf]
    split <;> rfl
  | _ => rfl

section Views
variable {s s' : State P B}

theorem chain_alike (h : ∀ p, Alike (s.pc p) (s'.pc p)) : s'.chain = s.chain :=
  funext fun p => (h p).chain

theorem request_alike (h : ∀ p, Alike (s.pc p) (s'.pc p)) : s'.request = s.request :=
  funext fun p => (h p).request

theorem told_alike (h : ∀ p, Alike (s.pc p) (s'.pc p)) : s'.told = s.told :=
  funext fun p => (h p).told

variable [DecidableEq P] (s) (p : P) (x : PC B)

theorem chain_goto : (s.goto p x).chain = update s.chain p x.chain :=
  comp_update PC.chain s.pc p x

theorem request_goto : (s.goto p x).request = update s.request p x.request :=
  comp_update PC.request s.pc p x

theorem told_goto : (s.goto p x).told = update s.told p x.told :=
  comp_update PC.told s.pc p x

variable {s p x}

theorem update_same {α : Type} {f : P → α} {a : α} (h : f p = a) : update f p a = f := by
  rw [← h, update_eq_self]

theorem alike_goto (h : Alike (s.pc p) x) (q : P) : Alike (s.pc q) ((s.goto p x).pc q) := by
  by_cases hq : q = p
  · subst hq
    simpa [State.goto] using h
  · simpa [State.goto, hq] using Alike.refl (s.pc q)

theorem lock_goto {o : Option (Holder P)} (hothers : ∀ q, q ≠ p → (s.pc q).holds = false)
    (hself : x.holds = true → o = some (.proc p)) :
    ∀ q, ((s.goto p x).pc q).holds = true → o = some (.proc q) := by
  intro q hq
  by_cases hqp : q = p
  · subst hqp
    exact hself (by simpa [State.goto] using hq)
  · rw [State.goto] at hq
    simp only [update_of_ne hqp, hothers q hqp] at hq
    cases hq

theorem bump_goto (hx : ∀ r c, x ≠ .bump r c) {q : P} {r : Request B} {c : Chain}
    (hq : (s.goto p x).pc q = .bump r c) : q ≠ p ∧ s.pc q = .bump r c := by
  by_cases hqp : q = p
  · subst hqp
    simp only [State.goto, update_self] at hq
    exact absurd hq (hx r c)
  · simp only [State.goto, update_of_ne hqp] at hq
    exact ⟨hqp, hq⟩

end Views

/-! ## Steps -/

namespace Inv
variable {s s' : State P B} {A U : List Nat}

section
variable (h : Inv s A U)
include h

theorem quiet (hdisk : s'.disk = s.disk) (hfetched : s'.fetched = s.fetched)
    (hflight : s'.inFlight = s.inFlight) (hbusy : s'.busy = s.busy)
    (hpanicked : s'.panicked = s.panicked) (halike : ∀ p, Alike (s.pc p) (s'.pc p))
    (hlock : ∀ p, (s'.pc p).holds = true → s'.lock = some (.proc p)) : Inv s' A U := by
  refine ⟨hpanicked.trans h.calm, ?_, ?_, ?_, ?_, hlock, ?_⟩
  · rw [hdisk, chain_alike halike]
    exact h.chains
  · rw [hdisk, hflight, hbusy, chain_alike halike, request_alike halike, told_alike halike]
    exact h.owners
  · rw [hdisk, hfetched]
    exact h.avail
  · rw [hdisk]
    exact h.used
  · rw [hdisk]
    exact fun p r c hp => h.stored p r c ((halike p).bump r c hp)

theorem free_lock (hl : s.lock = none) (p : P) : (s.pc p).holds = false := by
  rw [← Bool.not_eq_true]
  intro hp
  rw [h.lock p hp] at hl
  cases hl

theorem intr_lock (hl : s.lock = some .intr) (p : P) : (s.pc p).holds = false := by
  rw [← Bool.not_eq_true]
  intro hp
  rw [h.lock p hp] at hl
  cases hl

theorem other_lock {p q : P} (hp : (s.pc p).holds = true) (hq : q ≠ p) :
    (s.pc q).holds = false := by
  rw [← Bool.not_eq_true]
  intro hq'
  have he := (h.lock q hq').symm.trans (h.lock p hp)
  exact hq (Holder.proc.inj (Option.some.inj he))

theorem bump_other {p q : P} (hp : (s.pc p).holds = true) (hq : q ≠ p)
    (r : Request B) (c : Chain) : s.pc q ≠ .bump r c := by
  intro he
  have := h.other_lock hp hq
  rw [he] at this
  cases this

/-! ### The device -/

theorem fetch (hne : s.fetched ≠ s.disk.availIdx) : ∃ A', Inv { s with
      fetched := (s.fetched + 1) % 2 ^ 16
      inFlight := s.inFlight ++ [s.disk.availRing (s.fetched % NUM)] } A' U := by
  obtain ⟨A', hA, havail⟩ := h.avail.pop hne
  refine ⟨A', h.calm, h.chains, ?_, havail, h.used, h.lock, h.stored⟩
  refine h.owners.move ?_ (fun _ => rfl) h.owners.status
  rw [hA, List.append_assoc, List.singleton_append]
  have hmid : (A' ++ s.inFlight ++ s.disk.availRing (s.fetched % NUM) :: U).Perm
      (s.disk.availRing (s.fetched % NUM) :: (A' ++ s.inFlight ++ U)) := List.perm_middle
  simpa only [List.append_assoc, List.cons_append] using hmid.symm

theorem complete {i : Nat} (hi : i ∈ s.inFlight) :
    ∃ U', Inv { s with disk := pushUsed s.disk i, inFlight := s.inFlight.erase i } A U' := by
  refine ⟨U ++ [i], h.calm, h.chains, ?_, h.avail, h.used.push (h.room_used hi) i, h.lock,
    h.stored⟩
  refine h.owners.move ?_ ?_ ?_
  · refine List.Perm.append_left A ?_
    have hperm := (List.perm_cons_erase hi).append_right U
    refine hperm.trans ?_
    rw [← List.append_assoc]
    have hswap : ([i] ++ (s.inFlight.erase i ++ U)).Perm (s.inFlight.erase i ++ U ++ [i]) :=
      List.perm_append_comm
    simpa using hswap
  · intro j
    by_cases hj : j = i
    · subst hj
      simp [pushUsed]
    · simp [pushUsed, hj]
  · intro j hj
    by_cases hji : j = i
    · subst hji
      simp [pushUsed]
    · rcases List.mem_append.mp hj with hj | hj
      · simpa [pushUsed, hji] using h.owners.status j hj
      · exact absurd (List.mem_singleton.mp hj) hji

/-! ### The handler -/

theorem used_front (hne : s.disk.seen ≠ s.disk.usedIdx) :
    ∃ p r c, s.request p = some r ∧ s.chain p = some c ∧ s.told p = true ∧
      c.i0 = s.disk.usedRing (s.disk.seen % NUM) ∧ s.busy r.b = true ∧
      (s.disk.info c.i0).b = some r.b ∧ (s.disk.info c.i0).status = 0 := by
  obtain ⟨U', hU, -⟩ := h.used.pop hne
  have hmem : s.disk.usedRing (s.disk.seen % NUM) ∈ U := by
    rw [hU]
    exact List.mem_cons_self
  obtain ⟨p, r, c, hr, hp, ht, hc, hb, hbusy⟩ := h.owners.request_of_head
    (List.mem_append_right A (List.mem_append_right s.inFlight hmem))
  exact ⟨p, r, c, hr, hp, ht, hc, hbusy, hc ▸ hb, hc ▸ h.owners.status _ hmem⟩

omit h in
theorem intrTurn_eq [DecidableEq B] (hne : s.disk.seen ≠ s.disk.usedIdx) {c : Chain}
    {r : Request B} (hc : c.i0 = s.disk.usedRing (s.disk.seen % NUM))
    (hb : (s.disk.info c.i0).b = some r.b) (hst : (s.disk.info c.i0).status = 0) :
    intrTurn s = { s with
      disk := { s.disk with seen := (s.disk.seen + 1) % 2 ^ 16 }
      busy := update s.busy r.b false
      pc := fun q => (s.pc q).wakeBuf r.b } := by
  rw [intrTurn, if_neg hne]
  simp only [← hc, hst, ne_eq, not_true_eq_false, if_false, hb]

theorem turn [DecidableEq B] (hl : s.lock = some .intr) : ∃ U', Inv (intrTurn s) A U' := by
  by_cases he : s.disk.seen = s.disk.usedIdx
  · rw [intrTurn, if_pos he]
    refine ⟨U, h.quiet rfl rfl rfl rfl rfl (fun p => .refl _) ?_⟩
    intro p hp
    rw [h.intr_lock hl p] at hp
    cases hp
  · obtain ⟨p, r, c, hr, hp, ht, hc, hbusy, hb, hst⟩ := h.used_front he
    obtain ⟨U', hU, hused⟩ := h.used.pop he
    rw [intrTurn_eq he hc hb hst]
    have halike := fun q => alike_wakeBuf r.b (s.pc q)
    refine ⟨U', h.calm, ?_, ?_, h.avail, hused, ?_, ?_⟩
    · rw [chain_alike halike]
      exact h.chains
    · rw [chain_alike halike, request_alike halike, told_alike halike]
      rw [← hc] at hU
      exact h.owners.consume hU hb
    · intro q hq
      rw [wakeBuf_holds] at hq
      exact h.lock q hq
    · exact fun q r' e hq => h.stored q r' e ((halike q).bump r' e hq)

end

/-! ### The processes -/

variable [DecidableEq P] {p : P} {r : Request B} {c : Chain}

variable (h : Inv s A U)
include h

theorem call (hp : s.pc p = .idle) (hfresh : ∀ q, (s.pc q).request.map Request.b ≠ some r.b) :
    Inv (s.goto p (.acquire r)) A U := by
  have hchain : s.chain p = none := congrArg PC.chain hp
  have htold : s.told p = false := congrArg PC.told hp
  refine ⟨h.calm, ?_, ?_, h.avail, h.used, ?_, ?_⟩
  · rw [chain_goto]
    exact (update_same hchain).symm ▸ h.chains
  · rw [chain_goto, told_goto, request_goto]
    show Owners _ _ (update s.chain p none) _ (update s.told p false) _ _ _
    rw [update_same hchain, update_same htold]
    refine h.owners.call hchain fun q r' hq hb => hfresh q ?_
    rw [show (s.pc q).request = some r' from hq, Option.map_some, hb]
  · intro q hq
    by_cases hqp : q = p
    · subst hqp
      simp [State.goto, PC.holds] at hq
    · simp only [State.goto, update_of_ne hqp] at hq
      exact h.lock q hq
  · exact fun q r' e hq => h.stored q r' e (bump_goto (fun _ _ he => by cases he) hq).2

theorem acquire {x : PC B} (hl : s.lock = none) (hx : Alike (s.pc p) x) :
    Inv ({ s with lock := some (.proc p) }.goto p x) A U :=
  h.quiet rfl rfl rfl rfl rfl (alike_goto hx)
    (lock_goto (fun q _ => h.free_lock hl q) fun _ => rfl)

theorem store (hp : s.pc p = .store r c) :
    Inv ({ s with disk := storeHead s.disk c }.goto p (.bump r c)) A U := by
  have hholds : (s.pc p).holds = true := congrArg PC.holds hp
  have hchain : s.chain p = some c := congrArg PC.chain hp
  have hrequest : s.request p = some r := congrArg PC.request hp
  have htold : s.told p = false := congrArg PC.told hp
  refine ⟨h.calm, ?_, ?_, h.avail.write (h.room hchain htold).2 c.i0, h.used,
    lock_goto (fun q hq => h.other_lock hholds hq) fun _ => h.lock p hholds, ?_⟩
  · rw [chain_goto]
    exact (update_same hchain).symm ▸ h.chains
  · rw [chain_goto, request_goto, told_goto]
    show Owners _ _ (update s.chain p (some c)) (update s.request p (some r))
      (update s.told p false) _ _ _
    rw [update_same hchain, update_same hrequest, update_same htold]
    exact h.owners
  · intro q r' e hq
    by_cases hqp : q = p
    · subst hqp
      simp only [State.goto, update_self] at hq
      cases hq
      exact update_self ..
    · simp only [State.goto, update_of_ne hqp] at hq
      exact absurd hq (h.bump_other hholds hqp r' e)

theorem bump (hp : s.pc p = .bump r c) :
    Inv ({ s with disk := bumpAvail s.disk }.goto p (.test r c)) (A ++ [c.i0]) U := by
  have hholds : (s.pc p).holds = true := congrArg PC.holds hp
  have hchain : s.chain p = some c := congrArg PC.chain hp
  have hrequest : s.request p = some r := congrArg PC.request hp
  have htold : s.told p = false := congrArg PC.told hp
  obtain ⟨hnot, hlt⟩ := h.room hchain htold
  refine ⟨h.calm, ?_, ?_, h.avail.bump hlt (h.stored p r c hp), h.used,
    lock_goto (fun q hq => h.other_lock hholds hq) fun _ => h.lock p hholds, ?_⟩
  · rw [chain_goto]
    exact (update_same hchain).symm ▸ h.chains
  · rw [chain_goto, request_goto, told_goto]
    show Owners _ _ (update s.chain p (some c)) (update s.request p (some r))
      (update s.told p true) _ _ _
    rw [update_same hchain, update_same hrequest]
    exact h.owners.tell hchain hnot htold fun q e hq he => h.chains.head_inj hq hchain he
  · intro q r' e hq
    obtain ⟨hqp, hq⟩ := bump_goto (fun _ _ he => by cases he) hq
    exact absurd hq (h.bump_other hholds hqp r' e)

theorem alloc [DecidableEq B] (hp : s.pc p = .alloc r) : Inv (allocTurn p r s) A U := by
  have hholds : (s.pc p).holds = true := congrArg PC.holds hp
  have hchain : s.chain p = none := congrArg PC.chain hp
  have hrequest : s.request p = some r := congrArg PC.request hp
  have htold : s.told p = false := congrArg PC.told hp
  have hothers := fun q hq => h.other_lock (q := q) hholds hq
  rcases alloc3Desc_cases s.disk with ⟨c, hc, hfree, halloc⟩ | ⟨desc, hdesc, halloc⟩
  · simp only [allocTurn, halloc]
    refine ⟨h.calm, ?_, ?_, h.avail, h.used, lock_goto hothers fun _ => h.lock p hholds, ?_⟩
    · rw [chain_goto]
      exact h.chains.alloc hchain hc hfree (.format hc r) fun i hi => format_desc_of_not_mem r hi
    · rw [chain_goto, request_goto, told_goto]
      show Owners _ _ (update s.chain p (some c)) (update s.request p (some r))
        (update s.told p false) _ _ _
      rw [update_same hrequest, update_same htold]
      refine h.owners.alloc hchain hrequest htold ?_ rfl
      intro q e hq he
      have hf := (hfree c.i0 c.head_mem).2
      rw [← he, (h.chains.taken q e hq _ e.head_mem).2] at hf
      cases hf
    · intro q r' e hq
      obtain ⟨hqp, hq⟩ := bump_goto (fun _ _ he => by cases he) hq
      exact absurd hq (h.bump_other hholds hqp r' e)
  · -- `sleep(&disk.free[0])`, after the descriptors found were given back
    simp only [allocTurn, halloc]
    have hscrub : Inv { s with disk := s.disk.taken [] desc } A U := by
      refine ⟨h.calm, ?_, h.owners, h.avail, h.used, h.lock, h.stored⟩
      exact h.chains.scrub hdesc
    have halike : ∀ q, Alike (s.pc q)
        ((if (allocDesc s.disk).isSome then fun q => (s.pc q).wakeFree else s.pc) q) := by
      intro q
      split
      · exact alike_wakeFree _
      · exact .refl _
    have hidle : ∀ q, q ≠ p →
        ((if (allocDesc s.disk).isSome then fun q => (s.pc q).wakeFree else s.pc) q).holds =
          false := by
      intro q hq
      split
      · rw [wakeFree_holds]
        exact hothers q hq
      · exact hothers q hq
    refine hscrub.quiet rfl rfl rfl rfl rfl ?_ (lock_goto hidle nofun)
    intro q
    by_cases hqp : q = p
    · subst hqp
      simp only [State.goto, update_self, hp]
      exact ⟨rfl, rfl, rfl, nofun⟩
    · simp only [State.goto, update_of_ne hqp]
      exact halike q

theorem test (hp : s.pc p = .test r c) : Inv (testTurn p r c s) A U := by
  have hholds : (s.pc p).holds = true := congrArg PC.holds hp
  have hchain : s.chain p = some c := congrArg PC.chain hp
  have hrequest : s.request p = some r := congrArg PC.request hp
  have htold : s.told p = true := congrArg PC.told hp
  have hothers := fun q hq => h.other_lock (q := q) hholds hq
  by_cases hbusy : s.busy r.b = true
  · rw [testTurn, if_pos hbusy]
    refine h.quiet rfl rfl rfl rfl rfl (alike_goto ?_) (lock_goto hothers nofun)
    show Alike (s.pc p) _
    rw [hp]
    exact ⟨rfl, rfl, rfl, nofun⟩
  · have hnot : c.i0 ∉ A ++ (s.inFlight ++ U) :=
      fun hm => hbusy ((h.owners.flag p r c hrequest hchain).mpr fun _ => hm)
    obtain ⟨desc, hdesc, hfree⟩ := freeChain_linked (d := clearInfo s.disk c.i0)
      (h.chains.nodup p c hchain) (h.chains.taken p c hchain) (h.chains.linked p c hchain)
    rw [testTurn, if_neg hbusy, hfree]
    have halike := fun q => alike_wakeFree (s.pc q)
    refine ⟨h.calm, ?_, ?_, h.avail, h.used, lock_goto ?_ nofun, ?_⟩
    · rw [chain_goto]
      have hsame : (fun q => (s.pc q).wakeFree.chain) = s.chain := funext fun q => (halike q).chain
      show Chains _ _ (update (fun q => (s.pc q).wakeFree.chain) p none)
      rw [hsame]
      exact h.chains.release hchain hdesc
    · rw [chain_goto, request_goto, told_goto]
      have hsame : (fun q => (s.pc q).wakeFree.chain) = s.chain := funext fun q => (halike q).chain
      have hsame' : (fun q => (s.pc q).wakeFree.request) = s.request :=
        funext fun q => (halike q).request
      have hsame'' : (fun q => (s.pc q).wakeFree.told) = s.told := funext fun q => (halike q).told
      show Owners _ _ (update (fun q => (s.pc q).wakeFree.chain) p none)
        (update (fun q => (s.pc q).wakeFree.request) p none)
        (update (fun q => (s.pc q).wakeFree.told) p false) _ _ _
      rw [hsame, hsame', hsame'']
      exact h.owners.release hchain hnot fun q e hq he => h.chains.head_inj hq hchain he
    · intro q hq
      show (s.pc q).wakeFree.holds = false
      rw [wakeFree_holds]
      exact hothers q hq
    · intro q r' e hq
      obtain ⟨hqp, hq⟩ := bump_goto (fun _ _ he => by cases he) hq
      exact absurd ((halike q).bump r' e hq) (h.bump_other hholds hqp r' e)

theorem step [Fintype P] [DecidableEq B] {l : Option (Label P B)}
    (hs : Step s l s') : ∃ A' U', Inv s' A' U' := by
  obtain ⟨l, -, -, hs⟩ := hs
  cases l with
  | call p r =>
    simp only [exec] at hs
    split at hs
    · split at hs <;> cases hs
      exact ⟨A, U, h.call ‹_› ‹_›⟩
    · cases hs
  | acquire p =>
    simp only [exec] at hs
    split at hs
    · split at hs <;> cases hs
      · exact ⟨A, U, h.acquire ‹_› (by rw [‹s.pc p = _›]; exact ⟨rfl, rfl, rfl, nofun⟩)⟩
      · exact ⟨A, U, h.acquire ‹_› (by rw [‹s.pc p = _›]; exact ⟨rfl, rfl, rfl, nofun⟩)⟩
    · cases hs
  | alloc p =>
    simp only [exec] at hs
    split at hs <;> cases hs
    exact ⟨A, U, h.alloc ‹_›⟩
  | store p =>
    simp only [exec] at hs
    split at hs <;> cases hs
    exact ⟨A, U, h.store ‹_›⟩
  | bump p =>
    simp only [exec] at hs
    split at hs <;> cases hs
    exact ⟨_, U, h.bump ‹_›⟩
  | test p =>
    simp only [exec] at hs
    split at hs <;> cases hs
    exact ⟨A, U, h.test ‹_›⟩
  | intr =>
    simp only [exec] at hs
    split at hs <;> cases hs
    refine ⟨A, U, h.quiet rfl rfl rfl rfl rfl (fun p => .refl _) ?_⟩
    intro p hp
    rw [h.free_lock ‹_› p] at hp
    cases hp
  | turn =>
    simp only [exec] at hs
    split at hs <;> cases hs
    obtain ⟨U', hU⟩ := h.turn ‹_›
    exact ⟨A, U', hU⟩
  | fetch =>
    simp only [exec] at hs
    split at hs <;> cases hs
    obtain ⟨A', hA⟩ := h.fetch ‹_›
    exact ⟨A', U, hA⟩
  | complete i =>
    simp only [exec] at hs
    split at hs <;> cases hs
    obtain ⟨U', hU⟩ := h.complete ‹_›
    exact ⟨A, U', hU⟩

end Inv

section
variable [Fintype P] [DecidableEq P] [DecidableEq B]

theorem inv_of_run {t : List (Label P B)} {s : State P B} (h : Run Step (init P B) t s) :
    ∃ A U, Inv s A U := by
  induction h with
  | refl => exact ⟨[], [], .init P B⟩
  | silent _ hs ih =>
    obtain ⟨A, U, hi⟩ := ih
    exact hi.step hs
  | event _ hs ih =>
    obtain ⟨A, U, hi⟩ := ih
    exact hi.step hs

/-- In every run: nothing panics; a descriptor is free or in exactly one chain of three; the slot that
the driver or the device is about to write holds no entry to be consumed; the handler clears the busy
flag of the buffer whose request was completed; and a failed `alloc3_desc` leaves the free descriptors
as they were. -/
theorem virtio_bookkeeping {t : List (Label P B)} {s : State P B} (h : Run Step (init P B) t s) :
    s.panicked = none ∧
    (∀ i < NUM, s.disk.free i = true ∧ (∀ p c, s.chain p = some c → i ∉ c.list) ∨
      s.disk.free i = false ∧ ∃ p c, s.chain p = some c ∧ i ∈ c.list ∧
        ∀ q e, s.chain q = some e → i ∈ e.list → q = p) ∧
    (∀ p c, s.chain p = some c → c.list.Nodup ∧ ∀ i ∈ c.list, i < NUM) ∧
    (∀ p r c, s.pc p = .store r c → ∀ j < Ring.count (2 ^ 16) s.fetched s.disk.availIdx,
      Ring.slot NUM (2 ^ 16) s.fetched j ≠ s.disk.availIdx % NUM) ∧
    (∀ i ∈ s.inFlight, ∀ j < Ring.count (2 ^ 16) s.disk.seen s.disk.usedIdx,
      Ring.slot NUM (2 ^ 16) s.disk.seen j ≠ s.disk.usedIdx % NUM) ∧
    (s.disk.seen ≠ s.disk.usedIdx → ∃ p r c, s.request p = some r ∧ s.chain p = some c ∧
      c.i0 = s.disk.usedRing (s.disk.seen % NUM) ∧ s.busy r.b = true ∧
      (intrTurn s).busy = Function.update s.busy r.b false) ∧
    ∀ d, alloc3Desc s.disk = .ok (none, d) → d.free = s.disk.free := by
  obtain ⟨A, U, hi⟩ := inv_of_run h
  refine ⟨hi.calm, ?_, ?_, ?_, ?_, ?_, ?_⟩
  · intro i hlt
    cases hf : s.disk.free i with
    | true =>
      refine .inl ⟨rfl, fun p c hp hm => ?_⟩
      rw [(hi.chains.taken p c hp i hm).2] at hf
      cases hf
    | false =>
      obtain ⟨p, c, hp, hm⟩ := hi.chains.covered i hlt hf
      exact .inr ⟨rfl, p, c, hp, hm, fun q e hq hm' => hi.chains.disjoint q p e c i hq hp hm' hm⟩
  · exact fun p c hp => ⟨hi.chains.nodup p c hp, fun i hm => (hi.chains.taken p c hp i hm).1⟩
  · intro p r c hp j hj
    have hroom := hi.room (p := p) (c := c) (congrArg PC.chain hp)
      (congrArg PC.told hp)
    exact hi.avail.slot_ne hroom.2 hj
  · exact fun i hm j hj => hi.used.slot_ne (hi.room_used hm) hj
  · intro hne
    obtain ⟨p, r, c, hr, hp, -, hc, hbusy, hb, hst⟩ := hi.used_front hne
    exact ⟨p, r, c, hr, hp, hc, hbusy, by rw [Inv.intrTurn_eq hne hc hb hst]⟩
  · intro d hd
    rcases alloc3Desc_cases s.disk with ⟨c, -, -, hc⟩ | ⟨desc, -, hc⟩
    · rw [hc] at hd
      cases hd
    · rw [hc] at hd
      cases hd
      simp [Disk.taken]

end

/-- Two requests of two processes; the device finishes the second one first. -/
def twoRequests : List (Label (Fin 2) (Fin 2)) :=
  [.call 0 ⟨0, true⟩, .call 1 ⟨1, false⟩, .acquire 0, .alloc 0, .store 0, .bump 0, .test 0,
    .acquire 1, .alloc 1, .store 1, .bump 1, .test 1, .fetch, .fetch, .complete 3, .intr]

theorem virtio_bookkeeping_two :
    ∃ (t : List (Label (Fin 2) (Fin 2))) (s : State (Fin 2) (Fin 2)),
      Run Step (init (Fin 2) (Fin 2)) t s ∧ s.disk.seen ≠ s.disk.usedIdx ∧
      ∃ p r c, s.request p = some r ∧ s.chain p = some c ∧
        c.i0 = s.disk.usedRing (s.disk.seen % NUM) ∧ s.busy r.b = true ∧
        (intrTurn s).busy = Function.update s.busy r.b false := by
  have hsome : (trace (fun l s => if s.panicked = none then (exec s l).map fun s' => (s', some l)
      else none) twoRequests (init (Fin 2) (Fin 2), [])).map
        (fun r => (decide (r.1.disk.seen ≠ r.1.disk.usedIdx))) = some true := by
    decide +kernel
  obtain ⟨⟨s, t⟩, hs, hne⟩ := Option.map_eq_some_iff.mp hsome
  have hrun : Run Step (init (Fin 2) (Fin 2)) t s := by
    refine .trace ?_ .refl hs
    intro l s s' e he
    split at he
    · obtain ⟨s'', hexec, hpair⟩ := Option.map_eq_some_iff.mp he
      cases hpair
      exact ⟨l, rfl, ‹_›, hexec⟩
    · cases he
  have hne' := of_decide_eq_true hne
  exact ⟨t, s, hrun, hne', (virtio_bookkeeping hrun).2.2.2.2.2.1 hne'⟩

end Xv6.Virtio
