import Xv6.Malloc.FreeList

/-!
# Taking a block from the free list

`malloc` walks once around the list. If no block is large enough it asks `sbrk` for more memory,
frees it, and then finds a block.
-/

namespace Xv6.Malloc

open Xv6.Foundation

set_option autoImplicit false

variable {base : Nat} {h : Heap} {l : List Nat} {n : Nat}

/-! ## The block that is taken -/

/-- What is left when the block `q` of `n` units has been taken. -/
structure Taken (base : Nat) (h : Heap) (l : List Nat) (n q : Nat) (h' : Heap) (l' : List Nat) :
    Prop where
  free : FreeList base h' l'
  size : (h'.hdr q).size = n
  above : base < q
  apart : ∀ a ∈ l', h'.stop a ≤ q ∨ h'.stop q ≤ a
  units : units h' (base :: l') ∪ Set.Ico q (h'.stop q) = units h (base :: l)
  same : ∀ a, a ∉ base :: l → a ≠ q → h'.hdr a = h.hdr a

theorem FreeList.mem_of_base_lt {a : Nat} (ha : a ∈ base :: l) (hlt : base < a) : a ∈ l :=
  (List.mem_cons.mp ha).resolve_left hlt.ne'

section
variable {prevp p : Nat} {w v : List Nat}

/-- The blocks around `p`. -/
structure Around (h : Heap) (base prevp p : Nat) (w v : List Nat) : Prop where
  before : ∀ a ∈ w ++ [prevp], h.stop a < p
  behind : ∀ a ∈ v, h.stop p < a
  gap_w : w.Pairwise (h.stop · < ·)
  gap_v : v.Pairwise (h.stop · < ·)
  prev_lt : ∀ a ∈ w, h.stop a < prevp
  prev_v : ∀ a ∈ v, h.stop prevp < a
  chain : (p :: (v ++ [base])).IsChain (h.next · = ·)
  lt : base < p

theorem FreeList.around (hf : FreeList base h l) (hcut : base :: l = w ++ prevp :: p :: v) :
    Around h base prevp p w v := by
  have hgap := hf.gap
  rw [hcut, List.pairwise_append, List.pairwise_cons, List.pairwise_cons] at hgap
  obtain ⟨hw, ⟨hprev, hp, hv⟩, hcross⟩ := hgap
  have hbefore : ∀ a ∈ w ++ [prevp], h.stop a < p := by
    intro a ha
    rcases List.mem_append.mp ha with ha | ha
    · exact hcross a ha p (by simp)
    · rw [List.mem_singleton.mp ha]
      exact hprev p List.mem_cons_self
  refine ⟨hbefore, hp, hw, hv, fun a ha => hcross a ha prevp List.mem_cons_self,
    fun a ha => hprev a (List.mem_cons_of_mem p ha), ?_, ?_⟩
  · have hchain := ((circular_split hcut).mp hf.ring).2
    exact (List.isChain_cons.mp hchain).2
  · have hprevp : prevp ∈ base :: l := by
      rw [hcut]
      simp
    exact (hf.base_le hprevp).trans_lt ((h.le_stop prevp).trans_lt (hprev p List.mem_cons_self))

theorem take_exact (hf : FreeList base h l) (hcut : base :: l = w ++ prevp :: p :: v)
    (hsize : (h.hdr p).size = n) :
    ∃ l', Taken base h l n p ((h.setPtr prevp (h.next p)).setFreep prevp) l' := by
  have har := hf.around hcut
  set h' := (h.setPtr prevp (h.next p)).setFreep prevp with hh'
  have hag : AgreeOff prevp h h' := fun a ha => h.setPtr_hdr_of_ne _ ha
  have hsame : ∀ a, (h'.hdr a).size = (h.hdr a).size := by
    intro a
    by_cases ha : a = prevp
    · subst ha
      show ((h.setPtr a (h.next p)).hdr a).size = _
      rw [Heap.setPtr_hdr_self]
    · rw [hag a ha]
  have hstop : ∀ a, h'.stop a = h.stop a := fun a => by rw [Heap.stop, hsame, Heap.stop]
  have hne : p ≠ prevp := by
    have := har.before prevp (by simp)
    have := h.le_stop prevp
    omega
  have hprevl : prevp ∈ base :: l := by
    rw [hcut]
    simp
  have hvl : ∀ a ∈ v, a ∈ l := fun a ha => by
    have := har.behind a ha
    have := h.le_stop p
    have := har.lt
    exact FreeList.mem_of_base_lt (by rw [hcut]; simp [ha]) (by omega)
  have htail : Tail base h' prevp v := by
    obtain ⟨hnext, hchain⟩ := List.isChain_cons.mp har.chain
    refine .of_agree hag (fun hm => ?_) hchain har.gap_v ?_ fun a ha => ?_
    · have := har.prev_v prevp hm
      have := h.le_stop prevp
      omega
    · show ((h.setPtr prevp (h.next p)).hdr prevp).ptr = _
      rw [Heap.setPtr_hdr_self]
      exact hnext _ (List.head?_eq_some_head _)
    · rw [hstop]
      exact har.prev_v a ha
  obtain ⟨l', hl', hf'⟩ : ∃ l', base :: l' = w ++ prevp :: v ∧ FreeList base h' l' := by
    refine hf.of_cut hcut (fun a ha => hag a ?_) htail ?_ ?_ (fun a ha => ?_) ?_
    · have := har.prev_lt a ha
      have := h.le_stop a
      omega
    · rintro rfl
      rw [hsame]
      exact hf.base_size
    · intro hb
      have hl := (List.mem_cons.mp hprevl).resolve_left hb
      rw [hsame, hstop]
      exact ⟨hf.pos _ hl, hf.below _ hl⟩
    · rw [hsame, hstop]
      exact ⟨hf.pos a (hvl a ha), hf.below a (hvl a ha)⟩
    · show prevp ∈ _
      simp
  have hsub : ∀ a ∈ l', a ∈ w ++ [prevp] ∨ a ∈ v := by
    intro a ha
    have hm : a ∈ w ++ prevp :: v := hl' ▸ List.mem_cons_of_mem base ha
    rw [List.append_cons] at hm
    exact List.mem_append.mp hm
  refine ⟨l', hf', by rw [hsame, hsize], har.lt, fun a ha => ?_, ?_, fun a ha _ => ?_⟩
  · rw [hstop, hstop]
    rcases hsub a ha with ha | ha
    · exact .inl (har.before a ha).le
    · exact .inr (har.behind a ha).le
  · rw [hl', hcut, units_congr fun a _ => hstop a, hstop, units_insert]
  · exact hag a fun he => ha (he ▸ hprevl)

theorem take_split (hf : FreeList base h l) (hcut : base :: l = w ++ prevp :: p :: v) (hn : 0 < n)
    (hsize : n < (h.hdr p).size) : Taken base h l n (p + UNIT * ((h.hdr p).size - n))
      (((h.setSize p ((h.hdr p).size - n)).setSize (p + UNIT * ((h.hdr p).size - n)) n).setFreep
        prevp) l := by
  have har := hf.around hcut
  have hpl : p ∈ l := FreeList.mem_of_base_lt (by rw [hcut]; simp) har.lt
  have hfit := hf.size_lt hpl
  set q := p + UNIT * ((h.hdr p).size - n) with hq
  set h' := ((h.setSize p ((h.hdr p).size - n)).setSize q n).setFreep prevp with hh'
  have hpq : p < q ∧ q < h.stop p ∧ q + UNIT * n = h.stop p := by
    unfold Heap.stop UNIT at *
    omega
  have hag : ∀ a, a ≠ p → a ≠ q → h'.hdr a = h.hdr a := fun a hap haq => by
    show ((h.setSize p _).setSize q n).hdr a = _
    rw [Heap.setSize_hdr_of_ne _ _ haq, h.setSize_hdr_of_ne _ hap]
  have hp' : h'.hdr p = { h.hdr p with size := (h.hdr p).size - n } := by
    show ((h.setSize p _).setSize q n).hdr p = _
    rw [Heap.setSize_hdr_of_ne _ _ hpq.1.ne, Heap.setSize_hdr_self, Nat.mod_eq_of_lt (by omega)]
  have hq' : h'.hdr q = { h.hdr q with size := n } := by
    show ((h.setSize p _).setSize q n).hdr q = _
    rw [Heap.setSize_hdr_self, h.setSize_hdr_of_ne _ hpq.1.ne', Nat.mod_eq_of_lt (by omega)]
  have hptr : h'.next = h.next := by
    funext a
    by_cases hap : a = p
    · rw [hap, Heap.next, hp', Heap.next]
    · by_cases haq : a = q
      · rw [haq, Heap.next, hq', Heap.next]
      · rw [Heap.next, hag a hap haq, Heap.next]
  have hstopp : h'.stop p = q := by rw [Heap.stop, hp']
  have hstopq : h'.stop q = h.stop p := by rw [Heap.stop, hq', ← hpq.2.2]
  -- no block begins inside of `p`
  have hout : ∀ a ∈ base :: l, a = p ∨ h.stop a < p ∨ h.stop p < a := by
    intro a ha
    rw [hcut, List.append_cons, List.mem_append, List.mem_cons] at ha
    rcases ha with ha | rfl | ha
    · exact .inr (.inl (har.before a ha))
    · exact .inl rfl
    · exact .inr (.inr (har.behind a ha))
  have hother : ∀ a ∈ base :: l, a ≠ p → h'.hdr a = h.hdr a := fun a ha hap =>
    hag a hap fun he => by
      have := hout a ha
      have := h.le_stop a
      omega
  have hstop : ∀ a ∈ base :: l, a ≠ p → h'.stop a = h.stop a := fun a ha hap => by
    rw [Heap.stop, hother a ha hap, Heap.stop]
  have hle : ∀ a ∈ base :: l, h'.stop a ≤ h.stop a := fun a ha => by
    by_cases hap : a = p
    · rw [hap, hstopp]
      exact hpq.2.1.le
    · exact (hstop a ha hap).le
  refine ⟨⟨?_, ?_, ?_, fun a ha => ?_, fun a ha => ?_, ?_⟩, by rw [hq'], ?_, fun a ha => ?_, ?_,
    fun a ha haq => hag a (fun he => ha (he ▸ List.mem_cons_of_mem base hpl)) haq⟩
  · rw [hptr]
    exact hf.ring
  · exact hf.gap.imp_of_mem fun ha _ hab => (hle _ ha).trans_lt hab
  · rw [hother base List.mem_cons_self har.lt.ne]
    exact hf.base_size
  · by_cases hap : a = p
    · rw [hap, hp']
      exact Nat.sub_pos_of_lt hsize
    · rw [hother a (List.mem_cons_of_mem base ha) hap]
      exact hf.pos a ha
  · exact (hle a (List.mem_cons_of_mem base ha)).trans (hf.below a ha)
  · show prevp ∈ _
    rw [hcut]
    simp
  · exact har.lt.trans hpq.1
  · rw [hstopq]
    rcases hout a (List.mem_cons_of_mem base ha) with rfl | hap | hap
    · exact .inl hstopp.le
    · have := hle a (List.mem_cons_of_mem base ha)
      exact .inl (by omega)
    · exact .inr hap.le
  · rw [hstopq]
    ext x
    constructor
    · rintro (⟨a, ha, hax, hx⟩ | hx)
      · exact ⟨a, ha, hax, hx.trans_le (hle a ha)⟩
      · exact ⟨p, List.mem_cons_of_mem base hpl, hpq.1.le.trans hx.1, hx.2⟩
    · rintro ⟨a, ha, hax, hx⟩
      by_cases hap : a = p
      · subst hap
        rcases Nat.lt_or_ge x q with hxq | hxq
        · exact .inl ⟨a, ha, hax, by rwa [hstopp]⟩
        · exact .inr ⟨hxq, hx⟩
      · exact .inl ⟨a, ha, hax, by rwa [hstop a ha hap]⟩

end

/-! ## The loop -/

section
variable {S : Type} {sbrk : Int → S → Option Nat × S} {s : S} {res : Nat × Heap × S}

theorem FreeList.cut_next (hf : FreeList base h l) {prevp : Nat} (hprev : prevp ∈ base :: l)
    (hne : h.next prevp ≠ base) : ∃ w v, base :: l = w ++ prevp :: h.next prevp :: v := by
  obtain ⟨w, r, hcut⟩ := List.append_of_mem hprev
  have hnext := hf.ring.next_eq hcut
  cases r with
  | nil => exact absurd hnext hne
  | cons b r =>
    have hb : h.next prevp = b := hnext
    exact ⟨w, r, by rw [hb, hcut]⟩

theorem take_spec (hf : FreeList base h l) {prevp : Nat} (hprev : prevp ∈ base :: l) (hn : 0 < n)
    (hsize : n ≤ (h.hdr (h.next prevp)).size) :
    ∃ q h' l', take h n prevp (h.next prevp) = (q + UNIT, h') ∧ Taken base h l n q h' l' := by
  have hne : h.next prevp ≠ base := by
    intro he
    rw [he, hf.base_size] at hsize
    omega
  obtain ⟨w, v, hcut⟩ := hf.cut_next hprev hne
  by_cases heq : (h.hdr (h.next prevp)).size = n
  · obtain ⟨l', ht⟩ := take_exact hf hcut heq
    exact ⟨_, _, l', by rw [take, if_pos heq], ht⟩
  · have ht := take_split hf hcut hn (by omega)
    refine ⟨_, _, l, ?_, ht⟩
    have hfit : (h.hdr (h.next prevp)).size - n < 2 ^ 32 := by
      have := hf.size_lt ((List.mem_cons.mp (hf.ring.next_mem hprev)).resolve_left hne)
      omega
    rw [take, if_neg heq]
    simp only [Heap.stop, Heap.setSize_hdr_self, Nat.mod_eq_of_lt hfit]

theorem mallocLoop_take {fuel prevp p : Nat} (hp : n ≤ (h.hdr p).size) :
    mallocLoop sbrk n (fuel + 1) h s prevp p = some ((take h n prevp p).1, (take h n prevp p).2, s) := by
  rw [mallocLoop, if_pos hp]

theorem mallocLoop_next {fuel prevp p : Nat} (hp : ¬ n ≤ (h.hdr p).size) (hne : p ≠ h.freep) :
    mallocLoop sbrk n (fuel + 1) h s prevp p = mallocLoop sbrk n fuel h s p (h.next p) := by
  rw [mallocLoop, if_neg hp, if_neg hne]

theorem mallocLoop_found (sbrk : Int → S → Option Nat × S) (s : S) {r : List Nat} {prevp : Nat}
    (hchain : (prevp :: (r ++ [h.freep])).IsChain (h.next · = ·)) (hr : h.freep ∉ r)
    (hex : ∃ a ∈ r ++ [h.freep], n ≤ (h.hdr a).size) :
    ∃ x ∈ prevp :: r, n ≤ (h.hdr (h.next x)).size ∧
      Settles (mallocLoop sbrk n · h s prevp (h.next prevp))
        ((take h n x (h.next x)).1, (take h n x (h.next x)).2, s) := by
  have htake : ∀ prevp, n ≤ (h.hdr (h.next prevp)).size →
      Settles (mallocLoop sbrk n · h s prevp (h.next prevp))
        ((take h n prevp (h.next prevp)).1, (take h n prevp (h.next prevp)).2, s) :=
    fun _ hfit => .call (g := fun _ => some _) (.of_eq fun _ => rfl) fun _ => mallocLoop_take hfit
  obtain ⟨a, ha, hsize⟩ := hex
  induction r generalizing prevp with
  | nil =>
    have hnext : h.next prevp = h.freep := (List.isChain_cons.mp hchain).1 _ rfl
    rw [List.mem_singleton.mp ha, ← hnext] at hsize
    exact ⟨prevp, List.mem_cons_self, hsize, htake prevp hsize⟩
  | cons b r ih =>
    obtain ⟨hnext, hrest⟩ := List.isChain_cons.mp hchain
    have hnext : h.next prevp = b := hnext b rfl
    by_cases hfit : n ≤ (h.hdr b).size
    · rw [← hnext] at hfit
      exact ⟨prevp, List.mem_cons_self, hfit, htake prevp hfit⟩
    · have hne : b ≠ h.freep := fun he => hr (he ▸ List.mem_cons_self)
      have ha' : a ∈ r ++ [h.freep] :=
        (List.mem_cons.mp ha).resolve_left fun he => hfit (he ▸ hsize)
      obtain ⟨x, hx, hxsize, hsettles⟩ :=
        ih hrest (fun hm => hr (List.mem_cons_of_mem b hm)) ha'
      refine ⟨x, List.mem_cons_of_mem prevp hx, hxsize, hsettles.call fun k => ?_⟩
      rw [hnext]
      exact mallocLoop_next hfit hne

/-- What the loop does when it is back at `freep`. -/
def growLoop (sbrk : Int → S → Option Nat × S) (n fuel : Nat) (h : Heap) (s : S) :
    Option (Nat × Heap × S) :=
  (morecore sbrk h s n fuel).bind fun
    | (none, h, s) => some (0, h, s)
    | (some p, h, s) => mallocLoop sbrk n fuel h s p (h.next p)

theorem mallocLoop_none {r : List Nat} {prevp : Nat}
    (hchain : (prevp :: (r ++ [h.freep])).IsChain (h.next · = ·)) (hr : h.freep ∉ r)
    (hall : ∀ a ∈ r ++ [h.freep], ¬ n ≤ (h.hdr a).size)
    (hgrow : Settles (growLoop sbrk n · h s) res) :
    Settles (mallocLoop sbrk n · h s prevp (h.next prevp)) res := by
  induction r generalizing prevp with
  | nil =>
    have hnext : h.next prevp = h.freep := (List.isChain_cons.mp hchain).1 _ rfl
    refine hgrow.call fun k => ?_
    rw [hnext, mallocLoop, if_neg (hall _ (by simp)), if_pos rfl]
    rfl
  | cons b r ih =>
    obtain ⟨hnext, hrest⟩ := List.isChain_cons.mp hchain
    have hnext : h.next prevp = b := hnext b rfl
    have hne : b ≠ h.freep := fun he => hr (he ▸ List.mem_cons_self)
    refine (ih hrest (fun hm => hr (List.mem_cons_of_mem b hm))
      fun a ha => hall a (List.mem_cons_of_mem b ha)).call fun k => ?_
    rw [hnext]
    exact mallocLoop_next (hall b List.mem_cons_self) hne

theorem FreeList.walk (hf : FreeList base h l) :
    ∃ r, (h.freep :: (r ++ [h.freep])).IsChain (h.next · = ·) ∧ h.freep ∉ r ∧
      ∀ a, a ∈ h.freep :: r ↔ a ∈ base :: l := by
  obtain ⟨r, hr, hperm⟩ := hf.ring.from_mem hf.freep
  exact ⟨r, hr, (List.nodup_cons.mp (hperm.nodup_iff.mpr hf.nodup)).1, fun a => hperm.mem_iff⟩

theorem mallocLoop_served (sbrk : Int → S → Option Nat × S) (s : S) (hf : FreeList base h l) (hn : 0 < n)
    (hex : ∃ a ∈ l, n ≤ (h.hdr a).size) :
    ∃ q h' l', Settles (mallocLoop sbrk n · h s h.freep (h.next h.freep)) (q + UNIT, h', s) ∧
      Taken base h l n q h' l' := by
  obtain ⟨r, hchain, hr, hmem⟩ := hf.walk
  obtain ⟨a, ha, hsize⟩ := hex
  have ha' : a ∈ r ++ [h.freep] := by
    rcases List.mem_cons.mp ((hmem a).mpr (List.mem_cons_of_mem base ha)) with rfl | har
    · simp
    · exact List.mem_append_left _ har
  obtain ⟨x, hx, hxsize, hsettles⟩ := mallocLoop_found sbrk s hchain hr
    ⟨a, ha', hsize⟩
  obtain ⟨q, h', l', htake, htaken⟩ := take_spec hf ((hmem x).mp hx) hn hxsize
  rw [htake] at hsettles
  exact ⟨q, h', l', hsettles, htaken⟩

theorem mallocLoop_grows (hf : FreeList base h l) (hn : 0 < n)
    (hall : ∀ a ∈ l, ¬ n ≤ (h.hdr a).size) (hgrow : Settles (growLoop sbrk n · h s) res) :
    Settles (mallocLoop sbrk n · h s h.freep (h.next h.freep)) res := by
  obtain ⟨r, hchain, hr, hmem⟩ := hf.walk
  refine mallocLoop_none hchain hr (fun a ha => ?_) hgrow
  have hain : a ∈ base :: l := by
    rw [← hmem]
    rcases List.mem_append.mp ha with ha | ha
    · exact List.mem_cons_of_mem _ ha
    · rw [List.mem_singleton.mp ha]
      exact List.mem_cons_self
  rcases List.mem_cons.mp hain with rfl | hal
  · rw [hf.base_size]
    omega
  · exact hall a hal

theorem FreeList.congr {h' : Heap} (hf : FreeList base h l)
    (hag : ∀ a ∈ base :: l, h'.hdr a = h.hdr a) (hfreep : h'.freep = h.freep) :
    FreeList base h' l := by
  have hstop : ∀ a ∈ base :: l, h'.stop a = h.stop a := fun a ha => by
    rw [Heap.stop, hag a ha, Heap.stop]
  have hin : ∀ a ∈ l, a ∈ base :: l := fun a ha => List.mem_cons_of_mem base ha
  constructor
  · refine chain_congr (w := base :: l) hf.ring fun a ha => ?_
    rw [Heap.next, Heap.next, hag a ha]
  · refine hf.gap.imp_of_mem fun ha _ hab => ?_
    rwa [hstop _ ha]
  · rw [hag base List.mem_cons_self]
    exact hf.base_size
  · intro a ha
    rw [hag a (hin a ha)]
    exact hf.pos a ha
  · intro a ha
    rw [hstop a (hin a ha)]
    exact hf.below a ha
  · rw [hfreep]
    exact hf.freep

/-- The units that `morecore` asks for. -/
def moreUnits (n : Nat) : Nat := if n < 4096 then 4096 else n

theorem le_moreUnits (n : Nat) : n ≤ moreUnits n := by
  unfold moreUnits
  split <;> omega

theorem growLoop_fails {s' : S} (hs : sbrk (toInt (moreUnits n * UNIT)) s = (none, s')) :
    Settles (growLoop sbrk n · h s) (0, h, s') := by
  refine .of_eq fun k => ?_
  have hmore : morecore sbrk h s n k = some (none, h, s') := by
    unfold moreUnits at hs
    simp only [morecore, hs]
  rw [growLoop, hmore, Option.bind_some]

theorem growLoop_spec (hf : FreeList base h l) (hn : 0 < n) {s' : S} {a : Nat}
    (hs : sbrk (toInt (moreUnits n * UNIT)) s = (some a, s')) (hbase : base < a)
    (habove : ∀ b ∈ l, h.stop b ≤ a) (hlim : a + UNIT * moreUnits n ≤ LIMIT) :
    ∃ h₂ l₂ q h' l', Settles (growLoop sbrk n · h s) (q + UNIT, h', s') ∧
      FreeList base h₂ l₂ ∧ Taken base h₂ l₂ n q h' l' ∧
      units h₂ (base :: l₂) = units h (base :: l) ∪ Set.Ico a (a + UNIT * moreUnits n) ∧
      (∀ b, b ∉ base :: l → b ≠ a → h₂.hdr b = h.hdr b) ∧ ∀ b ∈ l₂, b ∈ l ∨ b = a := by
  have hfit : moreUnits n % 2 ^ 32 = moreUnits n := by
    refine Nat.mod_eq_of_lt ?_
    unfold LIMIT UNIT at hlim
    omega
  have hpos : 0 < moreUnits n := hn.trans_le (le_moreUnits n)
  have hnot : a ∉ base :: l := by
    intro hm
    rcases List.mem_cons.mp hm with rfl | hm
    · exact lt_irrefl _ hbase
    · have := habove a hm
      have := Heap.lt_stop (hf.pos a hm)
      omega
  set h₁ := h.setSize a (moreUnits n) with hh₁
  have hag : AgreeOff a h h₁ := fun b hb => h.setSize_hdr_of_ne _ hb
  have hsize : (h₁.hdr a).size = moreUnits n := by rw [hh₁, Heap.setSize_hdr_self, hfit]
  have hstop : h₁.stop a = a + UNIT * moreUnits n := by rw [Heap.stop, hsize]
  have hf₁ : FreeList base h₁ l := hf.congr (fun b hb => hag b fun he => hnot (he ▸ hb)) rfl
  have hplace : Place base h₁ l a := by
    refine ⟨hbase, by rwa [hsize], by rwa [hstop], fun b hb => .inl ?_⟩
    rw [hag.stop_eq fun he => hnot (he ▸ List.mem_cons_of_mem base hb)]
    exact habove b hb
  obtain ⟨h₂, l₂, hfree, hf₂, hunits, hsame, hmem, b, hb, hbig⟩ := free_spec hf₁ hplace
  rw [hsize] at hbig
  obtain ⟨q, h', l', hloop, htaken⟩ := mallocLoop_served sbrk s' hf₂ hn
    ⟨b, hb, (le_moreUnits n).trans hbig⟩
  refine ⟨h₂, l₂, q, h', l', ?_, hf₂, htaken, ?_, fun c hc hca => ?_, hmem⟩
  · obtain ⟨k₁, hk₁⟩ := hfree
    obtain ⟨k₂, hk₂⟩ := hloop
    refine ⟨k₁ + k₂, fun k hk => ?_⟩
    have hmore : morecore sbrk h s n k = some (some h₂.freep, h₂, s') := by
      have hf' := hk₁ k (by omega)
      rw [hh₁] at hf'
      unfold moreUnits at hs hf'
      simp only [morecore, hs, hf', Option.map_some]
    simp only [growLoop, hmore, Option.bind_some]
    exact hk₂ k (by omega)
  · rw [hunits, hstop, hag.units_eq hnot]
  · rw [hsame c hc hca, hag c hca]

end

end Xv6.Malloc
