import Xv6.Namespace.Holdings

/-!
# The inode table

Reference counts and sleep locks of the table entries, against the pointers that working
directories, open files and calls in progress have to them.
-/

namespace Xv6.Namespace

open Xv6.Foundation Function

set_option autoImplicit false

/-- How far a call has got with an inode: no lock, the lock before `ilock` has read the inode, the
lock, and the lock of `iput` after the inode was marked free. -/
inductive Stage where
  | free
  | locking
  | locked
  | freed
  deriving DecidableEq

/-- A pointer to a table entry. Its reference is one of the call's own, or that of the file of a
descriptor of its process. -/
@[ext] structure Pointer where
  slot : Slot
  inum : Nat
  fd : Option Fd
  stage : Stage
  deriving DecidableEq

@[simps] def Pointer.to (x : Pointer) (stage : Stage) : Pointer := { x with stage := stage }

variable {P : Type}

section Count
variable [DecidableEq P] {T : Multiset (P × Pointer)} {p q : P} {s : Slot} {x : Pointer}

/-- The references that pointers to entry `s` have for themselves. -/
def refCount (T : Multiset (P × Pointer)) (s : Slot) : Nat :=
  T.countP fun x => x.2.slot = s ∧ x.2.fd = none

def refCountOf (T : Multiset (P × Pointer)) (p : P) (s : Slot) : Nat :=
  T.countP fun x => x.1 = p ∧ x.2.slot = s ∧ x.2.fd = none

/-- The pointers of `p` to entry `s` with the sleep lock. -/
def lockCount (T : Multiset (P × Pointer)) (p : P) (s : Slot) : Nat :=
  T.countP fun x => x.1 = p ∧ x.2.slot = s ∧ x.2.stage ≠ .free

omit [DecidableEq P] in
@[simp]
theorem refCount_cons : refCount ((p, x) ::ₘ T) s =
    refCount T s + if x.slot = s ∧ x.fd = none then 1 else 0 :=
  Multiset.countP_cons _ _ _

@[simp]
theorem refCountOf_cons : refCountOf ((q, x) ::ₘ T) p s =
    refCountOf T p s + if q = p ∧ x.slot = s ∧ x.fd = none then 1 else 0 :=
  Multiset.countP_cons _ _ _

@[simp]
theorem lockCount_cons : lockCount ((q, x) ::ₘ T) p s =
    lockCount T p s + if q = p ∧ x.slot = s ∧ x.stage ≠ .free then 1 else 0 :=
  Multiset.countP_cons _ _ _

omit [DecidableEq P] in
theorem refCount_pos (hx : (p, x) ∈ T) (hfd : x.fd = none) : 0 < refCount T x.slot :=
  Multiset.countP_pos.mpr ⟨_, hx, rfl, hfd⟩

theorem lockCount_pos : 0 < lockCount T p s ↔ ∃ x, (p, x) ∈ T ∧ x.slot = s ∧ x.stage ≠ .free := by
  unfold lockCount
  rw [Multiset.countP_pos]
  constructor
  · rintro ⟨⟨_, x⟩, hx, rfl, hs⟩
    exact ⟨x, hx, hs⟩
  · rintro ⟨x, hx, hs⟩
    exact ⟨(p, x), hx, rfl, hs⟩

end Count

variable [Fintype P] [DecidableEq P]

/-- `uses` counts the pointers of working directories and open files. -/
structure Itable (inode : Slot → Inode P) (uses : Slot → Nat) (ptrs : P → List Slot)
    (T : Multiset (P × Pointer)) : Prop where
  refs : ∀ s, (inode s).ref = uses s + refCount T s
  ptrs : ∀ p s, (ptrs p).count s = refCountOf T p s
  inums : ∀ p x, (p, x) ∈ T → (inode x.slot).inum = x.inum
  vias : ∀ p x, (p, x) ∈ T → x.fd ≠ none → 0 < uses x.slot
  unique : ∀ s s', 0 < (inode s).ref → 0 < (inode s').ref → (inode s).inum = (inode s').inum → s = s'
  locks : ∀ p s, lockCount T p s = if (inode s).lock = some p then 1 else 0

namespace Itable
variable {inode inode' : Slot → Inode P} {uses uses' : Slot → Nat} {ptrs : P → List Slot}
  {T : Multiset (P × Pointer)} {f : P → Multiset Pointer} {F : Multiset Pointer}
  {p q : P} {s : Slot} {i : Nat} {x y : Pointer}

/-! ## Consequences -/

section
variable (h : Itable inode uses ptrs T)
include h

omit [Fintype P] in
theorem ref_pos (hx : (p, x) ∈ T) : 0 < (inode x.slot).ref := by
  rw [h.refs]
  by_cases hfd : x.fd = none
  · have := refCount_pos hx hfd
    omega
  · have := h.vias p x hx hfd
    omega

omit [Fintype P] in
theorem lock_of_mem (hx : (p, x) ∈ T) (hs : x.stage ≠ .free) : (inode x.slot).lock = some p := by
  have hpos : 0 < lockCount T p x.slot := lockCount_pos.mpr ⟨x, hx, rfl, hs⟩
  rw [h.locks] at hpos
  by_contra hne
  simp [hne] at hpos

omit [Fintype P] in
theorem mem_of_lock (hl : (inode s).lock = some p) :
    ∃ x, (p, x) ∈ T ∧ x.slot = s ∧ x.stage ≠ .free := by
  have hc := h.locks p s
  rw [if_pos hl] at hc
  exact lockCount_pos.mp (by omega)

omit [Fintype P] in
theorem lock_unique (hx : (p, x) ∈ T) (hy : (q, y) ∈ T) (hs : x.stage ≠ .free)
    (hs' : y.stage ≠ .free) (he : x.slot = y.slot) : p = q ∧ x = y := by
  have hp := h.lock_of_mem hx hs
  have hq := h.lock_of_mem hy hs'
  rw [← he, hp] at hq
  obtain rfl := Option.some.inj hq
  refine ⟨rfl, ?_⟩
  by_contra hne
  have hc := h.locks p x.slot
  rw [if_pos hp] at hc
  obtain ⟨R, rfl⟩ := Multiset.exists_cons_of_mem hx
  have hy' : (p, y) ∈ R := by
    rcases Multiset.mem_cons.mp hy with hy | hy
    · exact absurd (congrArg Prod.snd hy).symm hne
    · exact hy
  have hpos : 0 < lockCount R p x.slot := lockCount_pos.mpr ⟨y, hy', he.symm, hs'⟩
  rw [lockCount_cons, if_pos ⟨rfl, rfl, hs⟩] at hc
  omega

end

/-! ## Steps -/

section Steps
variable (h : Itable inode uses ptrs (gather f)) {fd : Fd}
include h

theorem congr (hi : ∀ s, (inode' s).ref = (inode s).ref ∧ (inode' s).inum = (inode s).inum ∧
    (inode' s).lock = (inode s).lock) : Itable inode' uses ptrs (gather f) where
  refs s := by rw [(hi s).1, h.refs]
  ptrs := h.ptrs
  inums p x hx := by rw [(hi _).2.1, h.inums p x hx]
  vias := h.vias
  unique s s' := by
    rw [(hi s).1, (hi s').1, (hi s).2.1, (hi s').2.1]
    exact h.unique s s'
  locks p s := by rw [(hi s).2.2, h.locks]

theorem restage (hf : f p = x ::ₘ F) (hy : y.slot = x.slot ∧ y.inum = x.inum ∧ y.fd = x.fd)
    (hs : y.stage = .free ↔ x.stage = .free) :
    Itable inode uses ptrs (gather (update f p (y ::ₘ F))) := by
  rw [gather_eq_cons hf] at h
  rw [gather_update_cons]
  refine ⟨fun s => ?_, fun q s => ?_, fun q z hz => ?_, fun q z hz => ?_, h.unique, fun q s => ?_⟩
  · have := h.refs s
    simp_all
  · have := h.ptrs q s
    simp_all
  · have := h.inums q
    simp only [Multiset.mem_cons, Prod.mk.injEq] at this hz
    grind
  · have := h.vias q
    simp only [Multiset.mem_cons, Prod.mk.injEq] at this hz
    grind
  · have := h.locks q s
    simp_all

theorem addRef (hpos : 0 < (inode s).ref) :
    Itable (update inode s { inode s with ref := (inode s).ref + 1 }) uses
      (update ptrs p (s :: ptrs p))
      (gather (update f p (⟨s, (inode s).inum, none, .free⟩ ::ₘ f p))) := by
  rw [gather_eq (p := p) rfl] at h
  rw [gather_update_cons]
  refine ⟨fun a => ?_, fun q a => ?_, fun q z hz => ?_, fun q z hz => ?_, fun a b => ?_,
    fun q a => ?_⟩
  · have := h.refs a
    simp only [refCount_cons, update_apply]
    grind
  · have := h.ptrs q a
    simp only [refCountOf_cons, update_apply]
    grind
  · have := h.inums q z
    simp only [Multiset.mem_cons, Prod.mk.injEq] at hz
    simp only [update_apply]
    grind
  · have := h.vias q z
    simp only [Multiset.mem_cons, Prod.mk.injEq] at hz
    grind
  · have := h.unique a b
    simp only [update_apply]
    grind
  · have := h.locks q a
    simp only [lockCount_cons, update_apply]
    grind

theorem recycle {x : Inode P} (hzero : (inode s).ref = 0)
    (hnew : ∀ s', 0 < (inode s').ref → (inode s').inum ≠ i)
    (hx : x.ref = 1 ∧ x.inum = i ∧ x.lock = (inode s).lock) :
    Itable (update inode s x) uses (update ptrs p (s :: ptrs p))
      (gather (update f p (⟨s, i, none, .free⟩ ::ₘ f p))) := by
  have hne : ∀ q z, (q, z) ∈ gather f → z.slot ≠ s := by
    rintro q z hz rfl
    have := h.ref_pos hz
    omega
  rw [gather_eq (p := p) rfl] at h hne
  rw [gather_update_cons]
  refine ⟨fun a => ?_, fun q a => ?_, fun q z hz => ?_, fun q z hz => ?_, fun a b => ?_,
    fun q a => ?_⟩
  · have := h.refs a
    simp only [refCount_cons, update_apply]
    grind
  · have := h.ptrs q a
    simp only [refCountOf_cons, update_apply]
    grind
  · have := h.inums q z
    have := hne q z
    simp only [Multiset.mem_cons, Prod.mk.injEq] at hz
    simp only [update_apply]
    grind
  · have := h.vias q z
    simp only [Multiset.mem_cons, Prod.mk.injEq] at hz
    grind
  · have := h.unique a b
    have := hnew a
    have := hnew b
    simp only [update_apply]
    grind
  · have := h.locks q a
    simp only [lockCount_cons, update_apply]
    grind

theorem dropRef (hf : f p = ⟨s, i, none, .free⟩ ::ₘ F) :
    Itable (update inode s { inode s with ref := (inode s).ref - 1 }) uses
      (update ptrs p ((ptrs p).erase s)) (gather (update f p F)) := by
  rw [gather_eq_cons hf] at h
  rw [gather_update]
  have hs := h.refs s
  have hp := h.ptrs p s
  simp only [refCount_cons, refCountOf_cons] at hs hp
  refine ⟨fun a => ?_, fun q a => ?_, fun q z hz => ?_, fun q z hz => ?_, fun a b => ?_,
    fun q a => ?_⟩
  · have := h.refs a
    simp only [refCount_cons, update_apply] at this ⊢
    grind
  · have := h.ptrs q a
    simp only [refCountOf_cons, update_apply] at this ⊢
    grind
  · have := h.inums q z (Multiset.mem_cons_of_mem hz)
    simp only [update_apply]
    grind
  · exact h.vias q z (Multiset.mem_cons_of_mem hz)
  · have := h.unique a b
    simp only [update_apply]
    grind
  · have := h.locks q a
    simp only [lockCount_cons, update_apply] at this ⊢
    grind

theorem ofUse (hi : (inode s).inum = i) (hs : uses s = uses' s + 1)
    (hne : ∀ a, a ≠ s → uses' a = uses a)
    (hvia : ∀ q z, (q, z) ∈ gather f → z.fd ≠ none → 0 < uses' z.slot) :
    Itable inode uses' (update ptrs p (s :: ptrs p))
      (gather (update f p (⟨s, i, none, .free⟩ ::ₘ f p))) := by
  rw [gather_eq (p := p) rfl] at h hvia
  rw [gather_update_cons]
  refine ⟨fun a => ?_, fun q a => ?_, fun q z hz => ?_, fun q z hz => ?_, h.unique, fun q a => ?_⟩
  · have := h.refs a
    simp only [refCount_cons]
    grind
  · have := h.ptrs q a
    simp only [refCountOf_cons, update_apply]
    grind
  · have := h.inums q z
    simp only [Multiset.mem_cons, Prod.mk.injEq] at hz
    grind
  · have := hvia q z
    simp only [Multiset.mem_cons, Prod.mk.injEq] at hz
    grind
  · have := h.locks q a
    simp only [lockCount_cons]
    grind

theorem toUse (hf : f p = ⟨s, i, none, .free⟩ ::ₘ F) (hs : uses' s = uses s + 1)
    (hne : ∀ a, a ≠ s → uses' a = uses a) :
    Itable inode uses' (update ptrs p ((ptrs p).erase s))
      (gather (update f p F)) := by
  rw [gather_eq_cons hf] at h
  rw [gather_update]
  have hp := h.ptrs p s
  simp only [refCountOf_cons] at hp
  refine ⟨fun a => ?_, fun q a => ?_, fun q z hz => ?_, fun q z hz hfd => ?_, h.unique,
    fun q a => ?_⟩
  · have := h.refs a
    simp only [refCount_cons] at this
    grind
  · have := h.ptrs q a
    simp only [refCountOf_cons, update_apply] at this ⊢
    grind
  · exact h.inums q z (Multiset.mem_cons_of_mem hz)
  · have := h.vias q z (Multiset.mem_cons_of_mem hz) hfd
    grind
  · have := h.locks q a
    simp only [lockCount_cons] at this
    grind

theorem toFile {stage : Stage} (hf : f p = ⟨s, i, none, stage⟩ ::ₘ F)
    (hs : uses' s = uses s + 1) (hne : ∀ a, a ≠ s → uses' a = uses a) :
    Itable inode uses' (update ptrs p ((ptrs p).erase s))
      (gather (update f p (⟨s, i, some fd, stage⟩ ::ₘ F))) := by
  rw [gather_eq_cons hf] at h
  rw [gather_update_cons]
  have hp := h.ptrs p s
  simp only [refCountOf_cons] at hp
  refine ⟨fun a => ?_, fun q a => ?_, fun q z hz => ?_, fun q z hz hfd => ?_, h.unique,
    fun q a => ?_⟩
  · have := h.refs a
    simp only [refCount_cons] at this ⊢
    grind
  · have := h.ptrs q a
    simp only [refCountOf_cons, update_apply] at this ⊢
    grind
  · have := h.inums q
    simp only [Multiset.mem_cons, Prod.mk.injEq] at this hz
    grind
  · have := h.vias q
    simp only [Multiset.mem_cons, Prod.mk.injEq] at this hz
    grind
  · have := h.locks q a
    simp only [lockCount_cons] at this ⊢
    grind

theorem useFile (hi : (inode s).inum = i) (hpos : 0 < uses s) :
    Itable inode uses ptrs (gather (update f p (⟨s, i, some fd, .free⟩ ::ₘ f p))) := by
  rw [gather_eq (p := p) rfl] at h
  rw [gather_update_cons]
  refine ⟨fun a => ?_, fun q a => ?_, fun q z hz => ?_, fun q z hz => ?_, h.unique, fun q a => ?_⟩
  · have := h.refs a
    simpa using this
  · have := h.ptrs q a
    simpa using this
  · have := h.inums q z
    simp only [Multiset.mem_cons, Prod.mk.injEq] at hz
    grind
  · have := h.vias q z
    simp only [Multiset.mem_cons, Prod.mk.injEq] at hz
    grind
  · have := h.locks q a
    simpa using this

theorem leaveFile (hf : f p = ⟨s, i, some fd, .free⟩ ::ₘ F) :
    Itable inode uses ptrs (gather (update f p F)) := by
  rw [gather_eq_cons hf] at h
  rw [gather_update]
  refine ⟨fun a => ?_, fun q a => ?_, fun q z hz => ?_, fun q z hz => ?_, h.unique, fun q a => ?_⟩
  · simpa using h.refs a
  · simpa using h.ptrs q a
  · exact h.inums q z (Multiset.mem_cons_of_mem hz)
  · exact h.vias q z (Multiset.mem_cons_of_mem hz)
  · simpa using h.locks q a

theorem addUse (hpos : 0 < (inode s).ref) (hs : uses' s = uses s + 1)
    (hne : ∀ a, a ≠ s → uses' a = uses a) :
    Itable (update inode s { inode s with ref := (inode s).ref + 1 }) uses' ptrs
      (gather f) := by
  refine ⟨fun a => ?_, h.ptrs, fun q z hz => ?_, fun q z hz hfd => ?_, fun a b => ?_,
    fun q a => ?_⟩
  · have := h.refs a
    simp only [update_apply]
    grind
  · have := h.inums q z hz
    simp only [update_apply]
    grind
  · have := h.vias q z hz hfd
    grind
  · have := h.unique a b
    simp only [update_apply]
    grind
  · have := h.locks q a
    simp only [update_apply]
    grind

/-- Process `p` takes or gives back the lock of the entry. -/
theorem relock {e : Inode P} (hf : f p = x ::ₘ F)
    (hy : y.slot = x.slot ∧ y.inum = x.inum ∧ y.fd = x.fd)
    (he : e.ref = (inode x.slot).ref ∧ e.inum = (inode x.slot).inum)
    (hfree : x.stage = .free → (inode x.slot).lock = none)
    (hl : e.lock = if y.stage = .free then none else some p) :
    Itable (update inode x.slot e) uses ptrs (gather (update f p (y ::ₘ F))) := by
  rw [gather_eq_cons hf] at h
  rw [gather_update_cons]
  have hlock := h.lock_of_mem (Multiset.mem_cons_self _ _)
  refine ⟨fun a => ?_, fun q a => ?_, fun q z hz => ?_, fun q z hz => ?_, fun a b => ?_,
    fun q a => ?_⟩
  · have := h.refs a
    simp only [refCount_cons, update_apply] at this ⊢
    grind
  · have := h.ptrs q a
    simp_all
  · have := h.inums q
    simp only [Multiset.mem_cons, Prod.mk.injEq, update_apply] at this hz ⊢
    grind
  · have := h.vias q
    simp only [Multiset.mem_cons, Prod.mk.injEq] at this hz
    grind
  · have := h.unique a b
    simp only [update_apply]
    grind
  · have := h.locks q a
    simp only [lockCount_cons, update_apply] at this ⊢
    grind

theorem acquire (hf : f p = x ::ₘ F) (hl : (inode x.slot).lock = none)
    (hy : y.slot = x.slot ∧ y.inum = x.inum ∧ y.fd = x.fd) (hs : y.stage ≠ .free) :
    Itable (update inode x.slot { inode x.slot with lock := some p }) uses ptrs
      (gather (update f p (y ::ₘ F))) :=
  h.relock hf hy ⟨rfl, rfl⟩ (fun _ => hl) (by simp [hs])

theorem release {e : Inode P} (hf : f p = x ::ₘ F) (hx : x.stage ≠ .free)
    (he : e.ref = (inode x.slot).ref ∧ e.inum = (inode x.slot).inum ∧ e.lock = none)
    (hy : y.slot = x.slot ∧ y.inum = x.inum ∧ y.fd = x.fd) (hs : y.stage = .free) :
    Itable (update inode x.slot e) uses ptrs
      (gather (update f p (y ::ₘ F))) :=
  h.relock hf hy ⟨he.1, he.2.1⟩ (fun hfree => absurd hfree hx) (by simp [hs, he.2.2])

/-- `iput` finds the lock free: with one reference, which is its own, nobody holds it. -/
theorem lock_free_of_last (hf : f p = ⟨s, i, none, .free⟩ ::ₘ F) (hone : (inode s).ref = 1) :
    (inode s).lock = none := by
  by_contra hne
  obtain ⟨q, hq⟩ := Option.ne_none_iff_exists'.mp hne
  obtain ⟨z, hz, hzs, hstage⟩ := h.mem_of_lock hq
  have hrefs := h.refs s
  rw [gather_eq_cons hf] at h hz hrefs
  rw [refCount_cons, if_pos ⟨rfl, rfl⟩] at hrefs
  have hz' : (q, z) ∈ others f p F := by
    rcases Multiset.mem_cons.mp hz with hz | hz
    · exact absurd (congrArg (fun x : P × Pointer => x.2.stage) hz) hstage
    · exact hz
  by_cases hfd : z.fd = none
  · have := refCount_pos hz' hfd
    rw [hzs] at this
    omega
  · have := h.vias q z hz hfd
    rw [hzs] at this
    omega

end Steps

end Itable

end Xv6.Namespace
