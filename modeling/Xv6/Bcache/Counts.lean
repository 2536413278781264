import Mathlib.Algebra.Order.BigOperators.Group.Finset
import Mathlib.Data.Multiset.Count
import Xv6.Bcache.Model
import Xv6.Foundation.Counting

/-!
# What reference counts count

`refcnt` is the number of references that processes have to a buffer, and one more if the log has
pinned it. So the buffers in use are no more than the references and the pins.
-/

namespace Xv6.Bcache

open Xv6.Foundation Xv6.Disk Function

set_option autoImplicit false

def pinOf (pins : List Nat) : Option Nat → Nat
  | none => 0
  | some b => if b ∈ pins then 1 else 0

theorem pinOf_some_of_mem {pins : List Nat} {b : Nat} (h : b ∈ pins) : pinOf pins (some b) = 1 :=
  if_pos h

theorem pinOf_some_of_not_mem {pins : List Nat} {b : Nat} (h : b ∉ pins) :
    pinOf pins (some b) = 0 :=
  if_neg h

theorem pinOf_congr {pins pins' : List Nat} {x : Option Nat}
    (h : ∀ b, x = some b → (b ∈ pins ↔ b ∈ pins')) : pinOf pins x = pinOf pins' x := by
  cases x with
  | none => rfl
  | some b => simp only [pinOf, h b rfl]

variable {P : Type} [Fintype P]

def refsTo (refs : P → Multiset Nat) (i : Nat) : Nat := ∑ p, (refs p).count i

structure Counts (s : Cache P) (pins : List Nat) : Prop where
  lru_mem : ∀ i, i ∈ s.lru ↔ i < NBUF
  unique : ∀ i < NBUF, ∀ j < NBUF, ∀ b, (s.buf i).block = some b → (s.buf j).block = some b → i = j
  refs_lt : ∀ p, ∀ i ∈ s.refs p, i < NBUF
  pins_nodup : pins.Nodup
  pins_cached : ∀ b ∈ pins, ∃ i < NBUF, (s.buf i).block = some b
  refcnt : ∀ i < NBUF, (s.buf i).refcnt = refsTo s.refs i + pinOf pins (s.buf i).block

section
variable (refs : P → Multiset Nat) (p : P) (i j : Nat)

theorem refsTo_pos (hi : i ∈ refs p) : 0 < refsTo refs i := by
  have hp : 0 < (refs p).count i := Multiset.count_pos.mpr hi
  exact hp.trans_le (Finset.single_le_sum (f := fun q => (refs q).count i)
    (fun _ _ => Nat.zero_le _) (Finset.mem_univ p))

variable [DecidableEq P]

theorem refsTo_cons : refsTo (update refs p (i ::ₘ refs p)) j =
    refsTo refs j + if j = i then 1 else 0 := by
  have h := sum_update_add (fun X : Multiset Nat => X.count j) refs p (i ::ₘ refs p)
  rw [Multiset.count_cons] at h
  rw [refsTo, refsTo]
  omega

theorem refsTo_erase (hi : i ∈ refs p) : refsTo (update refs p ((refs p).erase i)) j +
    (if j = i then 1 else 0) = refsTo refs j := by
  have h := refsTo_cons (update refs p ((refs p).erase i)) p i j
  rw [update_self, update_idem, Multiset.cons_erase hi,
    update_eq_self] at h
  exact h.symm

end

namespace Counts
variable {s s' : Cache P} {pins : List Nat}

theorem congr_mem (h : Counts s pins) (hlru : ∀ i, i ∈ s'.lru ↔ i ∈ s.lru)
    (hrefs : s'.refs = s.refs) (hblock : ∀ i, (s'.buf i).block = (s.buf i).block)
    (hrefcnt : ∀ i, (s'.buf i).refcnt = (s.buf i).refcnt) : Counts s' pins := by
  constructor
  · simpa only [hlru] using h.lru_mem
  · simpa only [hblock] using h.unique
  · simpa only [hrefs] using h.refs_lt
  · exact h.pins_nodup
  · simpa only [hblock] using h.pins_cached
  · simpa only [hblock, hrefcnt, hrefs] using h.refcnt

theorem congr (h : Counts s pins) (hlru : s'.lru = s.lru) (hrefs : s'.refs = s.refs)
    (hblock : ∀ i, (s'.buf i).block = (s.buf i).block)
    (hrefcnt : ∀ i, (s'.buf i).refcnt = (s.buf i).refcnt) : Counts s' pins :=
  h.congr_mem (fun i => by rw [hlru]) hrefs hblock hrefcnt

section
variable (h : Counts s pins)
include h

theorem lt_of_cached {b i : Nat} (hb : s.cached b = some i) :
    i < NBUF ∧ (s.buf i).block = some b := by
  have hfound := List.find?_some hb
  exact ⟨(h.lru_mem i).mp (List.mem_of_find?_eq_some hb), by simpa using hfound⟩

theorem lt_of_unused {i : Nat} (hi : s.unused = some i) : i < NBUF ∧ (s.buf i).refcnt = 0 := by
  have hfound := List.find?_some hi
  have hm := List.mem_of_find?_eq_some hi
  exact ⟨(h.lru_mem i).mp (List.mem_reverse.mp hm), by simpa using hfound⟩

theorem sum_pinOf_le : ∑ i ∈ Finset.range NBUF, pinOf pins (s.buf i).block ≤ pins.length := by
  have hone : ∀ i, pinOf pins (s.buf i).block =
      if ∃ b ∈ pins, (s.buf i).block = some b then 1 else 0 := by
    intro i
    cases hb : (s.buf i).block with
    | none => simp [pinOf]
    | some b => simp [pinOf]
  simp only [hone]
  rw [← Finset.card_filter]
  refine (Finset.card_le_card_of_injOn (t := pins.toFinset) (fun i => (s.buf i).block.getD 0)
    ?_ ?_).trans (List.toFinset_card_le pins)
  · intro i hi
    obtain ⟨b, hb, hblock⟩ := (Finset.mem_filter.mp hi).2
    simpa [hblock] using hb
  · intro i hi j hj hij
    obtain ⟨hi, b, -, hb⟩ := Finset.mem_filter.mp hi
    obtain ⟨hj, c, -, hc⟩ := Finset.mem_filter.mp hj
    simp only [hb, hc, Option.getD_some] at hij
    subst hij
    exact h.unique i (Finset.mem_range.mp hi) j (Finset.mem_range.mp hj) b hb hc

theorem sum_refsTo : ∑ i ∈ Finset.range NBUF, refsTo s.refs i = ∑ p, (s.refs p).card := by
  simp only [refsTo]
  rw [Finset.sum_comm]
  refine Finset.sum_congr rfl fun p _ => Multiset.sum_count_eq_card ?_
  exact fun i hi => Finset.mem_range.mpr (h.refs_lt p i hi)

/-- The buffers in use are at most the references and the pins. -/
theorem exists_unused (hroom : pins.length + ∑ p, (s.refs p).card < NBUF) : s.unused ≠ none := by
  intro hnone
  have hused : ∀ i ∈ Finset.range NBUF, 1 ≤ refsTo s.refs i + pinOf pins (s.buf i).block := by
    intro i hi
    have hlt := Finset.mem_range.mp hi
    have hno := List.find?_eq_none.mp hnone i (List.mem_reverse.mpr ((h.lru_mem i).mpr hlt))
    rw [beq_iff_eq] at hno
    rw [← h.refcnt i hlt]
    omega
  have hsum := Finset.sum_le_sum hused
  rw [← Finset.card_eq_sum_ones, Finset.card_range, Finset.sum_add_distrib, h.sum_refsTo] at hsum
  have hpins := h.sum_pinOf_le
  omega

end

section
variable [DecidableEq P] (h : Counts s pins) {l : Log}
include h

theorem recount {p : P} {i n : Nat} {X : Multiset Nat} {lru pins' : List Nat}
    (hlru : ∀ j, j ∈ lru ↔ j ∈ s.lru) (hX : ∀ j ∈ X, j < NBUF) (hnodup : pins'.Nodup)
    (hcached : ∀ b ∈ pins', b ∈ pins ∨ ∃ j < NBUF, (s.buf j).block = some b)
    (hcount : ∀ j < NBUF, (if j = i then n else (s.buf j).refcnt) =
      refsTo (update s.refs p X) j + pinOf pins' (s.buf j).block) :
    Counts ⟨update s.buf i { s.buf i with refcnt := n }, lru, l,
      update s.refs p X⟩ pins' := by
  have hblock : ∀ j, (update s.buf i { s.buf i with refcnt := n } j).block =
      (s.buf j).block := by
    intro j
    by_cases hj : j = i
    · subst hj
      rw [update_self]
    · rw [update_of_ne hj]
  constructor
  · exact fun j => (hlru j).trans (h.lru_mem j)
  · simpa only [hblock] using h.unique
  · intro q j hj
    by_cases hq : q = p
    · subst hq
      exact hX j (by simpa using hj)
    · exact h.refs_lt q j (by simpa [hq] using hj)
  · exact hnodup
  · intro b hb
    simp only [hblock]
    rcases hcached b hb with hb | hb
    · exact h.pins_cached b hb
    · exact hb
  · intro j hj
    simp only [hblock, ← hcount j hj]
    by_cases hji : j = i
    · subst hji
      simp
    · simp [hji]

theorem hit {p : P} {i : Nat} (hi : i < NBUF) :
    Counts ((s.setBuf i { s.buf i with refcnt := (s.buf i).refcnt + 1 }).setRefs p
      (i ::ₘ s.refs p)) pins := by
  apply h.recount (fun _ => Iff.rfl) ?_ h.pins_nodup (fun b hb => .inl hb) ?_
  · intro j hj
    rcases Multiset.mem_cons.mp hj with rfl | hj
    · exact hi
    · exact h.refs_lt p j hj
  · intro j hj
    have := h.refcnt j hj
    rw [refsTo_cons]
    split
    · subst j
      omega
    · omega

theorem put {p : P} {i : Nat} (hi : i ∈ s.refs p) : Counts (putSection p i s) pins := by
  have hlt := h.refs_lt p i hi
  apply h.recount ?_ ?_ h.pins_nodup (fun b hb => .inl hb) ?_
  · intro j
    split
    · by_cases hj : j = i
      · subst hj
        simpa [h.lru_mem] using hlt
      · simp [hj, List.mem_erase_of_ne hj]
    · exact Iff.rfl
  · exact fun j hj => h.refs_lt p j (Multiset.mem_of_mem_erase hj)
  · intro j hj
    have hc := h.refcnt j hj
    have he := refsTo_erase s.refs p i j hi
    split at he
    · subst j
      rw [if_pos rfl]
      omega
    · rw [if_neg ‹_›]
      omega

theorem recount_same {i n : Nat} {pins' : List Nat} (p : P) (hnodup : pins'.Nodup)
    (hcached : ∀ b ∈ pins', b ∈ pins ∨ ∃ j < NBUF, (s.buf j).block = some b)
    (hcount : ∀ j < NBUF, (if j = i then n else (s.buf j).refcnt) =
      refsTo s.refs j + pinOf pins' (s.buf j).block) :
    Counts ((s.setBuf i { s.buf i with refcnt := n }).setLog l) pins' := by
  have hsame := h.recount (p := p) (i := i) (n := n) (X := s.refs p) (l := l)
    (fun _ => Iff.rfl) (h.refs_lt p) hnodup hcached
  rw [update_eq_self] at hsame
  exact hsame hcount

theorem pin {p : P} {i b : Nat} (hi : i ∈ s.refs p) (hb : (s.buf i).block = some b)
    (hnew : b ∉ pins) :
    Counts ((s.setBuf i { s.buf i with refcnt := (s.buf i).refcnt + 1 }).setLog l)
      (pins ++ [b]) := by
  have hlt := h.refs_lt p i hi
  apply h.recount_same p
  · exact h.pins_nodup.append (by simp) (by simpa using hnew)
  · intro c hc
    rcases List.mem_append.mp hc with hc | hc
    · exact .inl hc
    · exact .inr ⟨i, hlt, by rw [hb, List.mem_singleton.mp hc]⟩
  · intro j hj
    have hc := h.refcnt j hj
    by_cases hji : j = i
    · subst hji
      rw [hb, pinOf_some_of_not_mem hnew] at hc
      rw [if_pos rfl, hb, pinOf_some_of_mem (by simp)]
      omega
    · rw [if_neg hji, hc]
      rw [pinOf_congr fun c hbj => ?_]
      have hcb : c ≠ b := by
        rintro rfl
        exact hji (h.unique j hj i hlt c hbj hb)
      simp [hcb]

theorem unpin {p : P} {i b : Nat} {rest : List Nat} (hpins : pins = b :: rest)
    (hi : i ∈ s.refs p) (hb : (s.buf i).block = some b) :
    Counts ((s.setBuf i { s.buf i with refcnt := (s.buf i).refcnt - 1 }).setLog l) rest := by
  subst hpins
  have hlt := h.refs_lt p i hi
  obtain ⟨hnot, hnodup⟩ := List.nodup_cons.mp h.pins_nodup
  apply h.recount_same p hnodup
  · exact fun c hc => .inl (List.mem_cons_of_mem b hc)
  · intro j hj
    have hc := h.refcnt j hj
    by_cases hji : j = i
    · subst hji
      rw [hb, pinOf_some_of_mem List.mem_cons_self] at hc
      rw [if_pos rfl, hb, pinOf_some_of_not_mem hnot]
      omega
    · rw [if_neg hji, hc]
      rw [pinOf_congr fun c hbj => ?_]
      have hcb : c ≠ b := by
        rintro rfl
        exact hji (h.unique j hj i hlt c hbj hb)
      simp [hcb]

theorem recycle {p : P} {i : Nat} {x : Slot P} (hlt : i < NBUF) (hzero : (s.buf i).refcnt = 0)
    (hx : x.refcnt = 1) (hno : ∀ b, x.block = some b → ∀ j < NBUF, (s.buf j).block ≠ some b) :
    Counts ((s.setBuf i x).setRefs p (i ::ₘ s.refs p)) pins := by
  have hnew : pinOf pins x.block = 0 := by
    cases hb : x.block with
    | none => rfl
    | some b =>
      refine pinOf_some_of_not_mem fun hm => ?_
      obtain ⟨j, hj, hbj⟩ := h.pins_cached b hm
      exact hno b hb j hj hbj
  have hcount := h.refcnt i hlt
  constructor
  · exact h.lru_mem
  · intro j hj k hk c hjc hkc
    simp only [Cache.setRefs, Cache.setBuf] at hjc hkc
    by_cases hji : j = i <;> by_cases hki : k = i
    · rw [hji, hki]
    · subst hji
      rw [update_self] at hjc
      rw [update_of_ne hki] at hkc
      exact absurd hkc (hno c hjc k hk)
    · subst hki
      rw [update_self] at hkc
      rw [update_of_ne hji] at hjc
      exact absurd hjc (hno c hkc j hj)
    · rw [update_of_ne hji] at hjc
      rw [update_of_ne hki] at hkc
      exact h.unique j hj k hk c hjc hkc
  · intro q j hj
    by_cases hq : q = p
    · subst hq
      simp only [Cache.setRefs, update_self, Multiset.mem_cons] at hj
      rcases hj with rfl | hj
      · exact hlt
      · exact h.refs_lt q j hj
    · exact h.refs_lt q j (by simpa [Cache.setRefs, Cache.setBuf, hq] using hj)
  · exact h.pins_nodup
  · intro c hc
    obtain ⟨j, hj, hbj⟩ := h.pins_cached c hc
    have hji : j ≠ i := by
      rintro rfl
      rw [hbj, pinOf_some_of_mem hc] at hcount
      omega
    exact ⟨j, hj, by simpa [Cache.setRefs, Cache.setBuf, hji] using hbj⟩
  · intro j hj
    simp only [Cache.setRefs, Cache.setBuf, refsTo_cons]
    by_cases hji : j = i
    · subst hji
      rw [update_self, if_pos rfl, hnew]
      omega
    · rw [update_of_ne hji, if_neg hji]
      exact h.refcnt j hj

theorem miss {p : P} {i b : Nat} (hi : s.unused = some i) (hb : s.cached b = none) :
    Counts ((s.setBuf i { s.buf i with block := some b, valid := false, refcnt := 1 }).setRefs p
      (i ::ₘ s.refs p)) pins := by
  obtain ⟨hlt, hzero⟩ := h.lt_of_unused hi
  refine h.recycle hlt hzero rfl ?_
  rintro c ⟨⟩ j hj he
  have := List.find?_eq_none.mp hb j ((h.lru_mem j).mpr hj)
  simp [he] at this

end

end Counts

end Xv6.Bcache
