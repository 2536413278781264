import Xv6.Malloc.Coalescing

/-!
# The contract of `malloc` on this kernel

`malloc` with the `sbrk` of `sys_sbrk` and `growproc`. The size of a request passes through an `int`
on its way to the kernel, so the contract holds up to the largest request whose size in bytes is
still positive there, and fails beyond.
-/

namespace Xv6.Malloc

open Xv6.Foundation

set_option autoImplicit false

structure Process where
  heap : Heap
  live : List Nat
  sz : Nat

inductive Call where
  | malloc (nbytes : Nat) (enough : Bool)
  | free (a : Nat)
  | write

/-- Steps of a process whose requests are all `ok`. -/
inductive Calls (base : Nat) (ok : Nat → Prop) (p : Process) : Option Call → Process → Prop where
  | malloc {nbytes r sz' : Nat} {enough : Bool} {h' : Heap} : nbytes < 2 ^ 32 → ok nbytes →
      Settles (fun fuel => malloc (sysSbrk enough) base nbytes fuel p.heap p.sz) (r, h', sz') →
      Calls base ok p (some (.malloc nbytes enough))
        ⟨h', if r = 0 then p.live else (r - UNIT) :: p.live, sz'⟩
  | free {a : Nat} {h' : Heap} : a ∈ p.live → Settles (free p.heap (a + UNIT) ·) h' →
      Calls base ok p (some (.free a)) ⟨h', p.live.erase a, p.sz⟩
  | write {h' : Heap} : Writes p.heap p.live h' →
      Calls base ok p (some .write) ⟨h', p.live, p.sz⟩

/-- The bytes of the request fit into an `int`, with a header and rounded up. -/
def Small (nbytes : Nat) : Prop := nbytes ≤ 2 ^ 31 - 32

variable {base nbytes sz : Nat} {enough : Bool} {got : Set Nat} {p : Process}

theorem moreUnits_lt (hn : Small nbytes) : moreUnits (nunits nbytes) * UNIT < 2 ^ 31 := by
  unfold Small at hn
  unfold moreUnits nunits UNIT
  split <;> omega

theorem toInt_of_lt {n : Nat} (hn : n < 2 ^ 31) : toInt n = n := by
  unfold toInt
  rw [if_pos (by omega)]
  omega

theorem growproc_pos {n : Nat} (hpos : 0 < n) (hn : n < 2 ^ 31) (hsz : sz ≤ PHYSMEM) :
    growproc enough n sz = if enough ∧ sz + n ≤ PHYSMEM then some (sz + n) else none := by
  have hnew : (((sz : Int) + n) % 2 ^ 32).toNat = sz + n := by
    unfold PHYSMEM at hsz
    omega
  have hold : sz % 2 ^ 32 = sz := by
    unfold PHYSMEM at hsz
    omega
  unfold growproc
  simp only [hnew, hold, if_pos (by omega : (0 : Int) < n), uvmalloc,
    if_neg (by omega : ¬ sz + n < sz)]
  split
  · rw [if_neg (by omega)]
  · rfl

/-- A request of `morecore` fails and changes nothing, or is served above the break. -/
theorem sysSbrk_cases (enough : Bool) (hn : Small nbytes) (hsz : sz ≤ PHYSMEM) :
    sysSbrk enough (toInt (moreUnits (nunits nbytes) * UNIT)) sz = (none, sz) ∨
    (sysSbrk enough (toInt (moreUnits (nunits nbytes) * UNIT)) sz =
        (some sz, sz + UNIT * moreUnits (nunits nbytes)) ∧
      sz + UNIT * moreUnits (nunits nbytes) ≤ PHYSMEM) := by
  have hlt := moreUnits_lt hn
  have hpos : 0 < moreUnits (nunits nbytes) * UNIT := by
    unfold moreUnits UNIT
    split <;> omega
  have haddr : ((toInt sz) % 2 ^ 64).toNat = sz := by
    rw [toInt_of_lt (by unfold PHYSMEM at hsz; omega)]
    unfold PHYSMEM at hsz
    omega
  rw [toInt_of_lt hlt, Nat.mul_comm UNIT]
  unfold sysSbrk
  rw [growproc_pos hpos hlt hsz]
  by_cases hroom : enough ∧ sz + moreUnits (nunits nbytes) * UNIT ≤ PHYSMEM
  · rw [if_pos hroom]
    simp only [haddr]
    rw [if_neg (by unfold PHYSMEM at hsz; omega)]
    exact .inr ⟨rfl, hroom.2⟩
  · rw [if_neg hroom]
    exact .inl rfl

structure Owned (base : Nat) (p : Process) (got : Set Nat) : Prop where
  ready : Ready base p.heap p.live got
  inside : ∀ x ∈ got, x < p.sz
  image : base + UNIT ≤ p.sz
  memory : p.sz ≤ PHYSMEM

/-- What a small request does. -/
structure Meets (base : Nat) (p : Process) (nbytes r : Nat) (h' : Heap) (sz' : Nat) : Prop where
  grows : p.sz ≤ sz'
  fails : r = 0 → sz' = p.sz ∧ h' = init base p.heap ∧ h'.freeUnits = p.heap.freeUnits
  inside : r ≠ 0 → ∀ x, r ≤ x → x < r + nbytes → x < sz'
  live : r ≠ 0 → ∀ x, r ≤ x → x < r + nbytes → ∀ a ∈ p.live, ¬ (a ≤ x ∧ x < p.heap.stop a)
  free : r ≠ 0 → ∀ x, r ≤ x → x < r + nbytes → x ∉ h'.freeUnits

theorem Inv.payload {h : Heap} {l live : List Nat} {q x : Nat} (hbase : 0 < base)
    (hi : Inv base h l (q :: live) got) (hsize : (h.hdr q).size = nunits nbytes)
    (hb : nbytes < 2 ^ 32) (h1 : q + UNIT ≤ x) (h2 : x < q + UNIT + nbytes) :
    x ∈ got ∧ (∀ a ∈ live, ¬ (a ≤ x ∧ x < h.stop a)) ∧ x ∉ h.freeUnits := by
  have hstop : x < h.stop q := by
    rw [Heap.stop, hsize]
    unfold nunits UNIT at *
    omega
  have hle : q ≤ x := by omega
  refine ⟨hi.mem_got_of_live List.mem_cons_self hle hstop, fun a ha h3 => ?_, ?_⟩
  · have := List.rel_of_pairwise_cons hi.live_apart ha
    unfold Heap.Apart at this
    omega
  · rw [hi.free.freeUnits_eq (hi.freep_ne hbase)]
    exact hi.apart q List.mem_cons_self x hle hstop

theorem Ready.init_hdr {h : Heap} {live : List Nat} (hr : Ready base h live got)
    {a : Nat} (ha : a ∈ live) : (init base h).hdr a = h.hdr a := by
  rw [init_of_ne]
  intro h0
  rw [hr.1 h0] at ha
  cases ha

theorem Owned.meets {got got' : Set Nat} {h' : Heap} {l' : List Nat} {q sz' : Nat}
    (hbase : 0 < base) (ho : Owned base p got) (hi : Inv base h' l' (q :: p.live) got')
    (hsize : (h'.hdr q).size = nunits nbytes) (hb : nbytes < 2 ^ 32)
    (hsame : ∀ a ∈ p.live, h'.hdr a = (init base p.heap).hdr a) (hle : p.sz ≤ sz')
    (hin : ∀ x ∈ got', x < sz') : Meets base p nbytes (q + UNIT) h' sz' := by
  have hne : q + UNIT ≠ 0 := by
    unfold UNIT
    omega
  refine ⟨hle, fun h0 => absurd h0 hne, fun _ x h1 h2 => ?_, fun _ x h1 h2 a ha => ?_,
    fun _ x h1 h2 => ?_⟩
  · exact hin x (hi.payload hbase hsize hb h1 h2).1
  · have hstop : p.heap.stop a = h'.stop a := by
      rw [Heap.stop, Heap.stop, hsame a ha, ho.ready.init_hdr ha]
    rw [hstop]
    exact (hi.payload hbase hsize hb h1 h2).2.1 a ha
  · exact (hi.payload hbase hsize hb h1 h2).2.2

theorem Owned.malloc (hbase : 0 < base) (ho : Owned base p got)
    (hb : Small nbytes) (enough : Bool) :
    ∃ r h' sz' got', Settles (fun fuel => malloc (sysSbrk enough) base nbytes fuel p.heap p.sz)
        (r, h', sz') ∧ Meets base p nbytes r h' sz' ∧
      Owned base ⟨h', if r = 0 then p.live else (r - UNIT) :: p.live, sz'⟩ got' := by
  have hb32 : nbytes < 2 ^ 32 := by
    unfold Small at hb
    omega
  obtain ⟨-, l, hi⟩ := ho.ready
  have hcall := sysSbrk_cases enough hb ho.memory
  obtain ⟨r, h', sz', hs, hserved⟩ := hi.malloc (sysSbrk enough) p.sz hb32 fun a s' hc => by
    rcases hcall with hcall | ⟨hcall, hroom⟩
    · rw [hcall] at hc
      cases hc
    · obtain ⟨ha, -⟩ := Prod.mk.inj (hcall.symm.trans hc)
      obtain rfl := Option.some.inj ha
      refine ⟨ho.image, ho.inside, hroom.trans ?_⟩
      unfold PHYSMEM LIMIT UNIT
      omega
  have hblock : ∀ q, (if q + UNIT = 0 then p.live else (q + UNIT - UNIT) :: p.live) = q :: p.live :=
    fun q => by rw [if_neg (by unfold UNIT; omega), Nat.add_sub_cancel]
  cases hserved with
  | @list q _ l' ht hi' hsame =>
    refine ⟨_, h', p.sz, got, hs, ho.meets hbase hi' ht.size hb32 hsame le_rfl ho.inside, ?_⟩
    rw [hblock]
    exact ⟨hi'.ready hbase, ho.inside, ho.image, ho.memory⟩
  | fail hc =>
    have hsz : sz' = p.sz := by
      rcases hcall with hcall | ⟨hcall, -⟩
      · exact (Prod.mk.inj (hcall.symm.trans hc)).2.symm
      · cases (Prod.mk.inj (hcall.symm.trans hc)).1
    subst hsz
    refine ⟨_, _, p.sz, got, hs, ⟨le_rfl, fun _ => ⟨rfl, rfl, freeUnits_init hbase⟩,
      fun h0 => absurd rfl h0, fun h0 => absurd rfl h0, fun h0 => absurd rfl h0⟩, ?_⟩
    exact ⟨hi.ready hbase, ho.inside, ho.image, ho.memory⟩
  | @grow a q _ _ l' hc hsize hi' hsame =>
    obtain ⟨hcall, hroom⟩ := hcall.resolve_left fun hcall => by
      cases (Prod.mk.inj (hcall.symm.trans hc)).1
    obtain ⟨ha, hsz⟩ := Prod.mk.inj (hcall.symm.trans hc)
    obtain rfl := Option.some.inj ha
    subst hsz
    have hin : ∀ x ∈ got ∪ Set.Ico p.sz (p.sz + UNIT * moreUnits (nunits nbytes)),
        x < p.sz + UNIT * moreUnits (nunits nbytes) := by
      rintro x (hx | hx)
      · exact (ho.inside x hx).trans_le (Nat.le_add_right _ _)
      · exact hx.2
    refine ⟨_, h', _, got ∪ Set.Ico p.sz (p.sz + UNIT * moreUnits (nunits nbytes)), hs,
      ho.meets hbase hi' hsize hb32 hsame (Nat.le_add_right _ _) hin, ?_⟩
    rw [hblock]
    exact ⟨hi'.ready hbase, hin, ho.image.trans (Nat.le_add_right _ _), hroom⟩

theorem Owned.step {p p' : Process} {c : Option Call} (hbase : 0 < base)
    (h : ∃ got, Owned base p got) (hs : Calls base Small p c p') : ∃ got, Owned base p' got := by
  obtain ⟨got, ho⟩ := h
  cases hs with
  | malloc _ hb hset =>
    obtain ⟨r, h', sz', got', hset', -, ho'⟩ := ho.malloc hbase hb _
    cases hset.unique hset'
    exact ⟨got', ho'⟩
  | free ha hset =>
    obtain ⟨h', hset', hr'⟩ := ho.ready.after_free hbase ha
    cases hset.unique hset'
    exact ⟨got, hr', ho.inside, ho.image, ho.memory⟩
  | write hw => exact ⟨got, ho.ready.after_write hbase hw, ho.inside, ho.image, ho.memory⟩

def start (hdr : Nat → Header) (sz : Nat) : Process := ⟨⟨hdr, 0⟩, [], sz⟩

theorem Owned.run {hdr : Nat → Header} {t : List Call} (hbase : 0 < base)
    (himage : base + UNIT ≤ sz) (hmem : sz ≤ PHYSMEM)
    (hr : Run (Calls base Small) (start hdr sz) t p) : ∃ got, Owned base p got :=
  hr.invariant (I := fun _ p => ∃ got, Owned base p got)
    ⟨∅, ⟨fun _ => rfl, [], inv_init base rfl⟩, nofun, himage, hmem⟩
    (fun _ _ _ _ h hs => Owned.step hbase h hs) fun _ _ _ _ _ h hs => Owned.step hbase h hs

/-- In every run of small requests, a small request ends; it returns 0 and changes nothing, or a
block of the process that is not in use. The break does not decrease. -/
theorem malloc_meets_contract (base : Nat) (hbase : 0 < base) (hdr : Nat → Header) (sz : Nat)
    (himage : base + UNIT ≤ sz) (hmem : sz ≤ PHYSMEM) (t : List Call) (p : Process)
    (hr : Run (Calls base Small) (start hdr sz) t p) (nbytes : Nat) (hb : Small nbytes)
    (enough : Bool) :
    ∃ r h' sz', Settles (fun fuel => malloc (sysSbrk enough) base nbytes fuel p.heap p.sz)
      (r, h', sz') ∧ Meets base p nbytes r h' sz' := by
  obtain ⟨got, ho⟩ := Owned.run hbase himage hmem hr
  obtain ⟨r, h', sz', -, hs, hmeets, -⟩ := ho.malloc hbase hb enough
  exact ⟨r, h', sz', hs, hmeets⟩

theorem malloc_meets_contract_first :
    ∃ r h' sz', Settles (fun fuel => malloc (sysSbrk true) 16 100 fuel
        (start (fun _ => ⟨0, 0⟩) 16384).heap 16384) (r, h', sz') ∧
      Meets 16 (start (fun _ => ⟨0, 0⟩) 16384) 100 r h' sz' :=
  malloc_meets_contract 16 (by decide) (fun _ => ⟨0, 0⟩) 16384 (by decide) (by decide) [] _ .refl 100
    (by unfold Small; omega) true

/-- The process after a first request, of 65552 bytes: its break is inside a page. -/
def served : Process where
  heap := (((init 16 (start (fun _ => ⟨0, 0⟩) 16384).heap).setSize 16384 4098).setPtr 16384 16).setPtr
    16 16384 |>.setPtr 16 16
  live := [16384]
  sz := 81952

/-- What the request after that leaves. -/
def shrunk : Heap :=
  ((served.heap.setSize 81952 (2 ^ 28 - 1)).setPtr 81952 16).setPtr 16 81952 |>.setPtr 16 16

/-- A request of 2^32 - 32 bytes reaches the kernel as -16: the break goes down, inside its page, and
the block that `malloc` returns begins behind it. All headers written are in pages of the process. -/
theorem malloc_shrinks_process :
    Run (Calls 16 Small) (start (fun _ => ⟨0, 0⟩) 16384) [.malloc 65552 true] served ∧
      Settles (fun fuel => malloc (sysSbrk true) 16 (2 ^ 32 - 32) fuel served.heap served.sz)
        (81968, shrunk, 81936) ∧
      (∀ a, shrunk.hdr a ≠ served.heap.hdr a → a + UNIT ≤ PGROUNDUP 81936) ∧
      PGROUNDUP 81936 = PGROUNDUP served.sz ∧
      ¬ Meets 16 served (2 ^ 32 - 32) 81968 shrunk 81936 := by
  have hfirst : Settles (fun fuel => malloc (sysSbrk true) 16 65552 fuel
      (start (fun _ => ⟨0, 0⟩) 16384).heap 16384) (16400, served.heap, 81952) :=
    .of_add (n := 4) fun _ => rfl
  have hpage : PGROUNDUP 81936 = 86016 := by decide
  refine ⟨Run.refl.event (Calls.malloc (by decide) (by unfold Small; omega) hfirst),
    .of_add (n := 4) fun _ => rfl, fun a ha => ?_, by decide, fun hm => ?_⟩
  · by_contra hlt
    unfold UNIT at hlt
    have h1 : a ≠ 16 := by omega
    have h2 : a ≠ 81952 := by omega
    refine ha ?_
    simp [shrunk, Heap.setPtr, Heap.setSize, Function.update_of_ne, h1, h2]
  · have hle : 81952 ≤ 81936 := hm.grows
    omega

end Xv6.Malloc
