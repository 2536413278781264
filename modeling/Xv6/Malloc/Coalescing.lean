import Xv6.Foundation.Run
import Xv6.Malloc.Blocks

/-!
# Runs of a program with `malloc` and `free`

A program calls `malloc` and `free` in any order and writes into its blocks. `sbrk` either fails or
returns memory above all that it returned before; the memory is noted with the heap.
-/

namespace Xv6.Malloc

open Xv6.Foundation

set_option autoImplicit false

/-- `live` are the blocks that the program has and `got` the regions from `sbrk`, with their
addresses and sizes in units. -/
structure State where
  heap : Heap
  live : List Nat
  got : List (Nat × Nat)

def obtained (got : List (Nat × Nat)) : Set Nat :=
  {x | ∃ g ∈ got, g.1 ≤ x ∧ x < g.1 + UNIT * g.2}

/-- `sbrk` with a given answer; the region is as large as the argument says. -/
def answer (ans : Option Nat) (n : Int) (got : List (Nat × Nat)) :
    Option Nat × List (Nat × Nat) :=
  match ans with
  | none => (none, got)
  | some a => (some a, (a, n.toNat / UNIT) :: got)

/-- A successful growth by at least the units that `morecore` asks for, above all earlier memory.
The new end is below what a `uint` of units can reach, as `growproc` has it in a `uint` of bytes. -/
structure Growth (base : Nat) (got : List (Nat × Nat)) (nbytes a : Nat) : Prop where
  enough : (moreUnits (nunits nbytes) * UNIT : Int) ≤ toInt (moreUnits (nunits nbytes) * UNIT)
  image : base + UNIT ≤ a
  above : ∀ g ∈ got, g.1 + UNIT * g.2 ≤ a
  limit : a + UNIT * moreUnits (nunits nbytes) ≤ LIMIT

/-- What the program may change in memory: a header that overlaps with the payload of a block. -/
def Writes (h : Heap) (live : List Nat) (h' : Heap) : Prop :=
  h'.freep = h.freep ∧ ∀ x, (∀ a ∈ live, x ≤ a ∨ h.stop a ≤ x) → h'.hdr x = h.hdr x

inductive Op where
  | malloc (nbytes : Nat) (ans : Option Nat)
  | free (a : Nat)
  | write

inductive Step (base : Nat) (s : State) : Option Op → State → Prop where
  | malloc {nbytes r : Nat} {ans : Option Nat} {h' : Heap} {got' : List (Nat × Nat)} :
      nbytes < 2 ^ 32 → (∀ a, ans = some a → Growth base s.got nbytes a) →
      Settles (fun fuel => malloc (answer ans) base nbytes fuel s.heap s.got) (r, h', got') →
      Step base s (some (.malloc nbytes ans))
        ⟨h', if r = 0 then s.live else (r - UNIT) :: s.live, got'⟩
  | free {a : Nat} {h' : Heap} : a ∈ s.live → Settles (free s.heap (a + UNIT) ·) h' →
      Step base s (some (.free a)) ⟨h', s.live.erase a, s.got⟩
  | write {h' : Heap} : Writes s.heap s.live h' → Step base s (some .write) ⟨h', s.live, s.got⟩

def boot (hdr : Nat → Header) : State := ⟨⟨hdr, 0⟩, [], []⟩

variable {base : Nat} {h : Heap} {l live : List Nat} {got : Set Nat} {regions : List (Nat × Nat)}

/-! ## Steps keep the heap in order -/

theorem toInt_le (n : Nat) : toInt n ≤ n := by
  unfold toInt
  split <;> omega

theorem Growth.toNat_eq {nbytes a : Nat} (hg : Growth base regions nbytes a) :
    (toInt (moreUnits (nunits nbytes) * UNIT)).toNat / UNIT = moreUnits (nunits nbytes) := by
  have := toInt_le (moreUnits (nunits nbytes) * UNIT)
  have := hg.enough
  unfold UNIT at *
  omega

theorem obtained_cons (a k : Nat) (regions : List (Nat × Nat)) :
    obtained ((a, k) :: regions) = obtained regions ∪ Set.Ico a (a + UNIT * k) := by
  ext x
  simp [obtained, or_comm]

section
variable (hbase : 0 < base) {ans : Option Nat} {regions regions' : List (Nat × Nat)}
include hbase

theorem Inv.freep_ne (hi : Inv base h l live got) : h.freep ≠ 0 := by
  have := hi.free.base_le hi.free.freep
  omega

theorem Inv.ready (hi : Inv base h l live got) : Ready base h live got := by
  have hne := hi.freep_ne hbase
  exact ⟨fun h0 => absurd h0 hne, l, by rwa [init_of_ne hne]⟩

theorem Ready.after_write {h' : Heap} (hr : Ready base h live got) (hw : Writes h live h') :
    Ready base h' live got := by
  obtain ⟨h0, l, hi⟩ := hr
  by_cases hz : h.freep = 0
  · have heq : h' = h := Heap.ext (funext fun x => hw.2 x (by simp [h0 hz])) hw.1
    rw [heq]
    exact ⟨h0, l, hi⟩
  · rw [init_of_ne hz] at hi
    have hlist : ∀ x ∈ base :: l, h'.hdr x = h.hdr x := by
      refine fun x hx => hw.2 x fun a ha => ?_
      rcases List.mem_cons.mp hx with rfl | hx
      · exact .inl (hi.place ha).above.le
      · have := h.le_stop x
        have := hi.live_apart_free ha hx
        unfold Heap.Apart at this
        omega
    have hlive : ∀ x ∈ live, h'.hdr x = h.hdr x := by
      refine fun x hx => hw.2 x fun a ha => ?_
      by_cases he : x = a
      · exact .inl he.le
      · have := h.le_stop x
        have := hi.live_apart.forall hx ha he
        unfold Heap.Apart at this
        omega
    have hunits : units h' (base :: l) = units h (base :: l) := units_congr fun a ha => by
      rw [Heap.stop, hlist a ha, Heap.stop]
    refine Inv.ready hbase (.of_live (hi.free.congr hlist hw.1) hi.live_pos hi.live_apart hlive
      ?_ ?_ hi.above hi.below)
    · rw [hunits]
      exact hi.apart
    · rw [hunits]
      exact hi.got_eq

theorem Ready.after_free {a : Nat} (hr : Ready base h live got) (ha : a ∈ live) :
    ∃ h', Settles (free h (a + UNIT) ·) h' ∧ Ready base h' (live.erase a) got := by
  obtain ⟨h0, l, hi⟩ := hr
  have hne : h.freep ≠ 0 := fun hz => by
    rw [h0 hz] at ha
    cases ha
  rw [init_of_ne hne] at hi
  obtain ⟨h', l', hs, hi', -⟩ := hi.freed ha
  exact ⟨h', hs, hi'.ready hbase⟩

omit hbase in
theorem answer_eq_some {n : Int} {a : Nat} (h : answer ans n regions = (some a, regions')) :
    ans = some a ∧ regions' = (a, n.toNat / UNIT) :: regions := by
  cases ans with
  | none => cases h
  | some b =>
    obtain ⟨hab, hre⟩ := Prod.mk.inj h
    cases hab
    exact ⟨rfl, hre.symm⟩

omit hbase in
theorem answer_eq_none {n : Int}
    (h : answer ans n regions = (none, regions')) : regions' = regions := by
  cases ans with
  | none => exact (Prod.mk.inj h).2.symm
  | some b => cases (Prod.mk.inj h).1

omit hbase in
theorem Ready.served {regions : List (Nat × Nat)} {nbytes : Nat}
    (hr : Ready base h live (obtained regions)) (hb : nbytes < 2 ^ 32)
    (hans : ∀ a, ans = some a → Growth base regions nbytes a) :
    ∃ l r h' regions', Inv base (init base h) l live (obtained regions) ∧
      Settles (fun fuel => malloc (answer ans) base nbytes fuel h regions) (r, h', regions') ∧
      Served base (answer ans) nbytes (init base h) regions l live (obtained regions) r h'
        regions' := by
  obtain ⟨-, l, hi⟩ := hr
  obtain ⟨r, h', regions', hs, hserved⟩ := hi.malloc (answer ans) regions hb
    fun a s' hc => by
      have hg := hans a (answer_eq_some hc).1
      exact ⟨hg.image, fun x ⟨g, hg', _, hx⟩ => hx.trans_le (hg.above g hg'), hg.limit⟩
  exact ⟨l, r, h', regions', hi, hs, hserved⟩

theorem Ready.after_malloc {regions : List (Nat × Nat)} {nbytes : Nat}
    (hr : Ready base h live (obtained regions)) (hb : nbytes < 2 ^ 32)
    (hans : ∀ a, ans = some a → Growth base regions nbytes a) : ∃ r h' regions',
      Settles (fun fuel => malloc (answer ans) base nbytes fuel h regions) (r, h', regions') ∧
      Ready base h' (if r = 0 then live else (r - UNIT) :: live) (obtained regions') := by
  obtain ⟨l, r, h', regions', hi, hs, hserved⟩ := hr.served hb hans
  refine ⟨r, h', regions', hs, ?_⟩
  cases hserved with
  | @list q _ l' ht hi' _ =>
    rw [if_neg (by unfold UNIT; omega), Nat.add_sub_cancel]
    exact hi'.ready hbase
  | fail hc =>
    rw [if_pos rfl, answer_eq_none hc]
    exact hi.ready hbase
  | @grow a q _ _ l' hc hsize hi' _ =>
    obtain ⟨ha, rfl⟩ := answer_eq_some hc
    rw [if_neg (by unfold UNIT; omega), Nat.add_sub_cancel, obtained_cons, (hans a ha).toNat_eq]
    exact hi'.ready hbase

theorem Ready.step {s s' : State} {o : Option Op} (hr : Ready base s.heap s.live (obtained s.got))
    (hs : Step base s o s') : Ready base s'.heap s'.live (obtained s'.got) := by
  cases hs with
  | malloc hb hans hset =>
    obtain ⟨r, h', regions', hset', hr'⟩ := hr.after_malloc hbase hb hans
    cases hset.unique hset'
    exact hr'
  | free ha hset =>
    obtain ⟨h', hset', hr'⟩ := hr.after_free hbase ha
    cases hset.unique hset'
    exact hr'
  | write hw => exact hr.after_write hbase hw

omit hbase in
theorem boot_ready (hdr : Nat → Header) :
    Ready base (boot hdr).heap (boot hdr).live (obtained (boot hdr).got) := by
  have hnone : obtained [] = ∅ := by
    ext x
    simp [obtained]
  refine ⟨fun _ => rfl, [], ?_⟩
  show Inv base _ _ _ (obtained [])
  rw [hnone]
  exact inv_init base rfl

theorem Ready.run {hdr : Nat → Header} {t : List Op} {s : State}
    (hr : Run (Step base) (boot hdr) t s) : Ready base s.heap s.live (obtained s.got) :=
  hr.invariant (I := fun _ s => Ready base s.heap s.live (obtained s.got)) (boot_ready hdr)
    (fun _ _ _ _ h hs => h.step hbase hs) fun _ _ _ _ _ h hs => h.step hbase hs

end

/-! ## The list, read from memory -/

/-- The blocks that are found from `freep` along the links. -/
def Heap.nodes (h : Heap) : Set Nat := {a | h.freep ≠ 0 ∧ ∃ k, h.next^[k] h.freep = a}

def Heap.freeUnits (h : Heap) : Set Nat := {x | ∃ a ∈ h.nodes, a ≤ x ∧ x < h.stop a}

theorem FreeList.mem_nodes (hf : FreeList base h l) (hne : h.freep ≠ 0) {a : Nat} :
    a ∈ h.nodes ↔ a ∈ base :: l := by
  rw [hf.ring.mem_iff_iterate hf.freep]
  exact ⟨fun ha => ha.2, fun ha => ⟨hne, ha⟩⟩

theorem FreeList.freeUnits_eq (hf : FreeList base h l) (hne : h.freep ≠ 0) :
    h.freeUnits = units h (base :: l) := by
  ext x
  simp only [Heap.freeUnits, units, Set.mem_ofPred_eq, hf.mem_nodes hne]

theorem freeUnits_init (hbase : 0 < base) : (init base h).freeUnits = h.freeUnits := by
  by_cases hz : h.freep = 0
  · have hi := inv_init base hz
    rw [hi.free.freeUnits_eq (hi.freep_ne hbase)]
    have hunits := hi.got_eq
    rw [Set.union_empty_iff] at hunits
    rw [hunits.1]
    ext x
    simp [Heap.freeUnits, Heap.nodes, hz]
  · rw [init_of_ne hz]

theorem FreeList.exists_unique_descent (hf : FreeList base h l) :
    ∃! a, a ∈ base :: l ∧ h.next a ≤ a := by
  obtain ⟨w, z, hz⟩ := List.eq_nil_or_concat (base :: l) |>.resolve_left (List.cons_ne_nil _ _)
  rw [List.concat_eq_append] at hz
  have hzl : z ∈ base :: l := by
    rw [hz]
    simp
  have hlast : h.next z = base := hf.ring.next_eq hz
  refine ⟨z, ⟨hzl, by rw [hlast]; exact hf.base_le hzl⟩, fun a ⟨ha, hle⟩ => ?_⟩
  by_contra hne
  rw [hz] at ha
  have haw : a ∈ w := (List.mem_append.mp ha).resolve_right (by simpa using hne)
  obtain ⟨w₁, w₂, rfl⟩ := List.append_of_mem haw
  have hcut : base :: l = w₁ ++ a :: (w₂ ++ [z]) := by simpa using hz
  have hsorted := hf.sorted
  have hnext := hf.ring.next_eq hcut
  rw [hcut, List.pairwise_append] at hsorted
  have hin : h.next a ∈ w₂ ++ [z] := by
    rw [hnext]
    cases w₂ <;> simp
  exact absurd (List.rel_of_pairwise_cons hsorted.2.1 hin) (Nat.not_lt.mpr hle)

/-- The heap as `malloc` and `free` find it. -/
structure Coalesced (base : Nat) (s : State) : Prop where
  circular : s.heap.freep ≠ 0 → ∃ t, Circular (s.heap.next · = ·) s.heap.freep t ∧
    (s.heap.freep :: t).Nodup ∧ base ∈ s.heap.freep :: t ∧
    ∃! a, a ∈ s.heap.freep :: t ∧ s.heap.next a ≤ a
  free_apart : ∀ a ∈ s.heap.nodes, ∀ b ∈ s.heap.nodes, a ≠ b →
    s.heap.Apart a b ∧ s.heap.stop a ≠ b
  live_apart : s.live.Pairwise s.heap.Apart
  apart : ∀ a ∈ s.live, ∀ b ∈ s.heap.nodes, s.heap.Apart a b
  units : s.heap.freeUnits ∪ units s.heap s.live = obtained s.got

theorem Coalesced.of_inv {s : State} (hbase : 0 < base)
    (hi : Inv base s.heap l s.live (obtained s.got)) : Coalesced base s := by
  have hne := hi.freep_ne hbase
  refine ⟨fun _ => ?_, fun a ha b hb hab => ?_, hi.live_apart, fun a ha b hb => ?_, ?_⟩
  · obtain ⟨t, ht, hperm⟩ := hi.free.ring.from_mem hi.free.freep
    refine ⟨t, ht, hperm.nodup_iff.mpr hi.free.nodup, hperm.mem_iff.mpr List.mem_cons_self, ?_⟩
    simp only [hperm.mem_iff]
    exact hi.free.exists_unique_descent
  · rw [hi.free.mem_nodes hne] at ha hb
    have hgap : ∀ a ∈ base :: l, ∀ b ∈ base :: l, a ≠ b → s.heap.stop a < b ∨ s.heap.stop b < a := by
      have hp : (base :: l).Pairwise fun a b => s.heap.stop a < b ∨ s.heap.stop b < a :=
        hi.free.gap.imp Or.inl
      have : Std.Symm fun a b => s.heap.stop a < b ∨ s.heap.stop b < a := ⟨fun _ _ => Or.symm⟩
      exact fun a ha b hb => hp.forall ha hb
    have := s.heap.le_stop a
    have := s.heap.le_stop b
    have := hgap a ha b hb hab
    unfold Heap.Apart
    omega
  · rw [hi.free.mem_nodes hne] at hb
    rcases List.mem_cons.mp hb with rfl | hb
    · refine .inr ?_
      rw [hi.free.stop_base]
      exact (hi.place ha).above.le
    · exact hi.live_apart_free ha hb
  · rw [hi.free.freeUnits_eq hne]
    exact hi.got_eq

theorem Coalesced.of_ready {s : State} (hbase : 0 < base)
    (hr : Ready base s.heap s.live (obtained s.got)) : Coalesced base s := by
  obtain ⟨h0, l, hi⟩ := hr
  by_cases hz : s.heap.freep = 0
  · have hnodes : ∀ a, a ∉ s.heap.nodes := fun a ha => ha.1 hz
    refine ⟨fun hne => absurd hz hne, fun a ha => absurd ha (hnodes a), ?_, fun a _ b hb =>
      absurd hb (hnodes b), ?_⟩
    · rw [h0 hz]
      exact .nil
    · have hgot := hi.got_eq
      rw [h0 hz] at hgot ⊢
      rw [← freeUnits_init hbase, hi.free.freeUnits_eq (hi.freep_ne hbase), ← hgot, units_nil,
        units_nil]
  · rw [init_of_ne hz] at hi
    exact .of_inv hbase hi

/-- A block that came from the list and is freed at once leaves the free units as they were. -/
theorem Ready.restores {nbytes r : Nat} {ans : Option Nat} {h' : Heap}
    (hbase : 0 < base) (hr : Ready base h live (obtained regions)) (hb : nbytes < 2 ^ 32)
    (hans : ∀ a, ans = some a → Growth base regions nbytes a)
    (hs : Settles (fun fuel => malloc (answer ans) base nbytes fuel h regions) (r, h', regions))
    (hne : r ≠ 0) : ∃ h'', Settles (free h' r ·) h'' ∧ h''.freeUnits = h.freeUnits := by
  obtain ⟨l, r', h₁, regions', hi, hs', hserved⟩ := hr.served hb hans
  cases hs.unique hs'
  cases hserved with
  | @list q _ l' ht hi' _ =>
    obtain ⟨h'', l'', hfree, hi'', hunits⟩ := hi'.freed List.mem_cons_self
    refine ⟨h'', hfree, ?_⟩
    rw [hi''.free.freeUnits_eq (hi''.freep_ne hbase), hunits, ht.units,
      ← hi.free.freeUnits_eq (hi.freep_ne hbase), freeUnits_init hbase]
  | fail hc => exact absurd rfl hne
  | @grow a q _ _ l' hc hsize hi' _ =>
    have hlen := congrArg List.length (answer_eq_some hc).2
    simp at hlen

/-- In every run the free list is circular, in address order from `base` on and coalesced, and the
free and the live blocks are what `sbrk` returned; every call of `malloc` and `free` ends. -/
theorem free_list_stays_coalesced (base : Nat) (hbase : 0 < base) (hdr : Nat → Header)
    (t : List Op) (s : State) (hr : Run (Step base) (boot hdr) t s) :
    Coalesced base s ∧
    (∀ bp, base < bp → s.heap.freep ≠ 0 → bp ∉ s.heap.nodes →
      ∃ p, Settles (search s.heap bp · s.heap.freep) p) ∧
    (∀ a ∈ s.live, ∃ h', Settles (free s.heap (a + UNIT) ·) h') ∧
    ∀ nbytes ans, nbytes < 2 ^ 32 → (∀ a, ans = some a → Growth base s.got nbytes a) →
      ∃ r h' got', Settles (fun fuel => malloc (answer ans) base nbytes fuel s.heap s.got)
          (r, h', got') ∧
        (got' = s.got → r ≠ 0 →
          ∃ h'', Settles (free h' r ·) h'' ∧ h''.freeUnits = s.heap.freeUnits) := by
  have hready := Ready.run hbase hr
  refine ⟨.of_ready hbase hready, fun bp hbp hne hnot => ?_, fun a ha => ?_, fun nbytes ans hb hans => ?_⟩
  · obtain ⟨-, l, hi⟩ := hready
    rw [init_of_ne hne] at hi
    rw [hi.free.mem_nodes hne] at hnot
    obtain ⟨w, p, v, hcut, hw, hv⟩ := hi.free.exists_cut hbp fun hm =>
      hnot (List.mem_cons_of_mem base hm)
    exact ⟨p, search_settles hi.free hbp hcut hw hv⟩
  · obtain ⟨h', hs, -⟩ := hready.after_free hbase ha
    exact ⟨h', hs⟩
  · obtain ⟨r, h', got', hs, -⟩ := hready.after_malloc hbase hb hans
    refine ⟨r, h', got', hs, ?_⟩
    rintro rfl hne
    exact hready.restores hbase hb hans hs hne

/-- The heap of a program whose `base` is at address 16, after requests of 100 and of 200 bytes. -/
def twoTaken : Heap :=
  ((((init 16 (boot fun _ => ⟨0, 0⟩).heap).setSize 4096 4096).setPtr 4096 16).setPtr 16 4096 |>.setSize
    4096 4088).setSize 69504 8

def twoTaken' : Heap := (twoTaken.setSize 4096 4074).setSize 69280 14

/-- The first block is freed, and is apart from what is free. -/
def oneTaken : Heap := ((twoTaken'.setPtr 69504 16).setPtr 4096 69504).setFreep 4096

/-- The second block joins its two neighbours. -/
def rejoined : Heap :=
  ((oneTaken.setSize 69280 22).setPtr 69280 16).setSize 4096 4096 |>.setPtr 4096 16

/-- After two requests and the return of both blocks, all is one block again. -/
theorem free_list_stays_coalesced_rejoined :
    Run (Step 16) (boot fun _ => ⟨0, 0⟩) [.free 69280, .free 69504, .malloc 200 none,
      .malloc 100 (some 4096)] ⟨rejoined, [], [(4096, 4096)]⟩ ∧
    (rejoined.hdr 4096).size = 4096 ∧ Coalesced 16 ⟨rejoined, [], [(4096, 4096)]⟩ := by
  have hgrowth : ∀ a, some 4096 = some a → Growth 16 [] 100 a := by
    rintro a ha
    obtain rfl := Option.some.inj ha
    exact ⟨by decide, by decide, nofun, by decide⟩
  have h1 : Settles (fun fuel => malloc (answer (some 4096)) 16 100 fuel (boot fun _ => ⟨0, 0⟩).heap [])
      (69520, twoTaken, [(4096, 4096)]) := .of_add (n := 4) fun _ => rfl
  have h2 : Settles (fun fuel => malloc (answer none) 16 200 fuel twoTaken [(4096, 4096)])
      (69296, twoTaken', [(4096, 4096)]) := .of_add (n := 4) fun _ => rfl
  have h3 : Settles (free twoTaken' (69504 + UNIT) ·) oneTaken := .of_add (n := 4) fun _ => rfl
  have h4 : Settles (free oneTaken (69280 + UNIT) ·) rejoined := .of_add (n := 4) fun _ => rfl
  have s1 : Step 16 (boot fun _ => ⟨0, 0⟩) (some (.malloc 100 (some 4096)))
      ⟨twoTaken, [69504], [(4096, 4096)]⟩ := .malloc (by decide) hgrowth h1
  have s2 : Step 16 ⟨twoTaken, [69504], [(4096, 4096)]⟩ (some (.malloc 200 none))
      ⟨twoTaken', [69280, 69504], [(4096, 4096)]⟩ :=
    .malloc (r := 69296) (by decide) (fun a ha => by cases ha) h2
  have s3 : Step 16 ⟨twoTaken', [69280, 69504], [(4096, 4096)]⟩ (some (.free 69504))
      ⟨oneTaken, [69280], [(4096, 4096)]⟩ := .free (by decide) h3
  have s4 : Step 16 ⟨oneTaken, [69280], [(4096, 4096)]⟩ (some (.free 69280))
      ⟨rejoined, [], [(4096, 4096)]⟩ := .free (by decide) h4
  have hrun := (((Run.refl.event s1).event s2).event s3).event s4
  exact ⟨hrun, rfl, (free_list_stays_coalesced 16 (by decide) _ _ _ hrun).1⟩

end Xv6.Malloc
