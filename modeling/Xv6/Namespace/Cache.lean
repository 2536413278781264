import Xv6.Namespace.Itable

/-!
# The cached inodes

An entry that is valid has what is on disk, except while `iput` frees the inode. If `g` holds, the
link counts are small, and an inode without links that is allocated is in the table, or has just
been allocated.
-/

namespace Xv6.Namespace

open Xv6.Foundation Function

set_option autoImplicit false

variable {P : Type}

/-- `fresh` is the inode that a call has allocated and not yet locked. -/
structure Cache (g : Prop) (inode : Slot → Inode P) (disk : Nat → DInode)
    (T : Multiset (P × Pointer)) (fresh : P → Option Nat) : Prop where
  loaded : ∀ p x, (p, x) ∈ T → x.stage = .locked ∨ x.stage = .freed → (inode x.slot).valid
  gone : ∀ p x, (p, x) ∈ T → x.stage = .freed → (inode x.slot).din.type = none
  same : ∀ s, 0 < (inode s).ref → (inode s).valid →
    ((inode s).din = disk (inode s).inum ∧ (inode s).din.type ≠ none) ∨
      ∃ p x, (p, x) ∈ T ∧ x.slot = s ∧ x.stage = .freed
  orphans : g → ∀ i, (disk i).type ≠ none → (disk i).nlink ≠ 0 ∨
    (∃ s, 0 < (inode s).ref ∧ (inode s).inum = i ∧ (inode s).valid ∧ (inode s).din = disk i) ∨
      ∃ p, fresh p = some i
  small : g → ∀ i, (disk i).nlink < 2 ^ 15

namespace Cache
variable [Fintype P] [DecidableEq P] {g : Prop} {inode inode' : Slot → Inode P}
  {disk : Nat → DInode} {uses : Slot → Nat} {ptrs : P → List Slot} {fresh fresh' : P → Option Nat}
  {f : P → Multiset Pointer} {F : Multiset Pointer} {p q : P} {s : Slot} {i : Nat} {x y : Pointer}
  {d : DInode}

section
variable (h : Cache g inode disk (gather f) fresh) {e : Inode P}
include h

theorem din_of_locked (ht : Itable inode uses ptrs (gather f)) (hx : (p, x) ∈ gather f)
    (hs : x.stage = .locked) :
    (inode x.slot).din = disk (inode x.slot).inum ∧ (inode x.slot).din.type ≠ none := by
  rcases h.same x.slot (ht.ref_pos hx) (h.loaded p x hx (Or.inl hs)) with hd | ⟨q, y, hy, he, hf⟩
  · exact hd
  · have := (ht.lock_unique hx hy (by simp [hs]) (by simp [hf]) he.symm).2
    simp [this, hf] at hs

omit [DecidableEq P] in
theorem congr {T : Multiset (P × Pointer)}
    (hi : ∀ s, (0 < (inode' s).ref ↔ 0 < (inode s).ref) ∧ (inode' s).inum = (inode s).inum ∧
      (inode' s).valid = (inode s).valid ∧ (inode' s).din = (inode s).din)
    (hT : ∀ q z, z.stage = .locked ∨ z.stage = .freed → ((q, z) ∈ T ↔ (q, z) ∈ gather f)) :
    Cache g inode' disk T fresh := by
  refine ⟨fun q z hz hzs => ?_, fun q z hz hzs => ?_, fun a => ?_, fun hg a ha => ?_, h.small⟩
  · have := h.loaded q z
    have := hT q z hzs
    grind
  · have := h.gone q z
    have := hT q z (Or.inr hzs)
    grind
  · have := h.same a
    grind
  · have := h.orphans hg a ha
    grind

theorem gain (hx : x.stage = .free) :
    Cache g inode disk (gather (update f p (x ::ₘ f p))) fresh := by
  refine h.congr (fun _ => ⟨Iff.rfl, rfl, rfl, rfl⟩) fun q z hz => ?_
  by_cases hqp : q = p
  · subst hqp
    simp only [mem_gather, update_self, Multiset.mem_cons, or_iff_right_iff_imp]
    rintro rfl
    simp [hx] at hz
  · simp [hqp]

section
variable (hf : f p = x ::ₘ F)
include hf

theorem lose (hx : x.stage = .free) :
    Cache g inode disk (gather (update f p F)) fresh := by
  refine h.congr (fun _ => ⟨Iff.rfl, rfl, rfl, rfl⟩) fun q z hz => ?_
  by_cases hqp : q = p
  · subst hqp
    simp only [mem_gather, update_self, hf, Multiset.mem_cons]
    constructor
    · exact Or.inr
    · rintro (rfl | hz')
      · simp [hx] at hz
      · exact hz'
  · simp [hqp]

omit hf in
theorem recycle (ht : Itable inode uses ptrs (gather f))
    (hzero : (inode s).ref = 0) (he : e.ref = 1 ∧ e.valid = false) :
    Cache g (update inode s e) disk
      (gather (update f p (⟨s, i, none, .free⟩ ::ₘ f p))) fresh := by
  have hne : ∀ q z, (q, z) ∈ gather f → z.slot ≠ s := by
    rintro q z hz rfl
    have := ht.ref_pos hz
    omega
  rw [gather_eq (p := p) rfl] at h hne
  rw [gather_update_cons]
  refine ⟨fun q z hz hzs => ?_, fun q z hz hzs => ?_, fun a => ?_, fun hg a ha => ?_, h.small⟩
  · have := h.loaded q z
    have := hne q z
    simp only [Multiset.mem_cons, Prod.mk.injEq] at hz
    simp only [update_apply]
    grind
  · have := h.gone q z
    have := hne q z
    simp only [Multiset.mem_cons, Prod.mk.injEq] at hz
    simp only [update_apply]
    grind
  · have := h.same a
    simp only [Multiset.mem_cons, Prod.mk.injEq, update_apply]
    grind
  · have := h.orphans hg a ha
    simp only [update_apply]
    grind

omit hf in
theorem dropRef (hf : f p = ⟨s, i, none, .free⟩ ::ₘ F) (ht : Itable inode uses ptrs (gather f))
    (hlast : g → (inode s).ref = 1 → (inode s).valid → (inode s).din.nlink ≠ 0) :
    Cache g (update inode s { inode s with ref := (inode s).ref - 1 }) disk
      (gather (update f p F)) fresh := by
  have hpos := ht.ref_pos (p := p) (x := ⟨s, i, none, .free⟩) (by simp [hf])
  rw [gather_eq_cons hf] at h
  rw [gather_update]
  refine ⟨fun q z hz hzs => ?_, fun q z hz hzs => ?_, fun a => ?_, fun hg a ha => ?_, h.small⟩
  · have := h.loaded q z (Multiset.mem_cons_of_mem hz) hzs
    simp only [update_apply]
    grind
  · have := h.gone q z (Multiset.mem_cons_of_mem hz) hzs
    simp only [update_apply]
    grind
  · have := h.same a
    simp only [Multiset.mem_cons, Prod.mk.injEq, update_apply] at this ⊢
    grind
  · have hl := hlast hg
    simp only at hpos
    rcases h.orphans hg a ha with hn | ⟨b, hb, hbi, hbv, hbd⟩ | hfresh
    · exact Or.inl hn
    · by_cases hbs : b = s
      · subst hbs
        by_cases hone : (inode b).ref = 1
        · exact Or.inl (hbd ▸ hl hone hbv)
        · refine Or.inr (Or.inl ⟨b, ?_⟩)
          simp only [update_self]
          exact ⟨by omega, hbi, hbv, hbd⟩
      · exact Or.inr (Or.inl ⟨b, by simpa [update_of_ne hbs] using ⟨hb, hbi, hbv, hbd⟩⟩)
    · exact Or.inr (Or.inr hfresh)

/-- `ilock` reads the inode, if it has to. The inode that the call allocated is in the table from
then on. -/
theorem load (hx : x.stage = .locking)
    (ht : Itable inode uses ptrs (gather f)) (hy : y.slot = x.slot ∧ y.stage = .locked)
    (he : e.ref = (inode x.slot).ref ∧ e.inum = (inode x.slot).inum) (hvalid : e.valid)
    (hload : (inode x.slot).valid ∧ e.din = (inode x.slot).din ∨
      (inode x.slot).valid = false ∧ e.din = disk (inode x.slot).inum ∧
        (disk (inode x.slot).inum).type ≠ none)
    (hfresh : ∀ q a, fresh q = some a → fresh' q = some a ∨ a = x.inum) :
    Cache g (update inode x.slot e) disk (gather (update f p (y ::ₘ F)))
      fresh' := by
  have hmem : (p, x) ∈ gather f := by simp [hf]
  have hpos := ht.ref_pos hmem
  have hinum := ht.inums p x hmem
  -- no `iput` has the lock
  have hnot : ∀ q z, (q, z) ∈ gather f → z.stage = .freed → z.slot ≠ x.slot := by
    intro q z hz hzs he
    have := (ht.lock_unique hmem hz (by simp [hx]) (by simp [hzs]) he.symm).2
    simp [← this, hx] at hzs
  have hdin : e.din = disk (inode x.slot).inum ∧ e.din.type ≠ none := by
    have := h.same x.slot hpos
    grind
  rw [gather_eq_cons hf] at h hnot
  rw [gather_update_cons]
  refine ⟨fun q z hz hzs => ?_, fun q z hz hzs => ?_, fun a => ?_, fun hg a ha => ?_, h.small⟩
  · have := h.loaded q z
    simp only [Multiset.mem_cons, Prod.mk.injEq] at this hz
    simp only [update_apply]
    grind
  · have := h.gone q z
    simp only [Multiset.mem_cons, Prod.mk.injEq] at this hz
    simp only [update_apply]
    grind
  · have := h.same a
    simp only [Multiset.mem_cons, Prod.mk.injEq, update_apply] at this ⊢
    grind
  · by_cases hax : a = x.inum
    · refine Or.inr (Or.inl ⟨x.slot, ?_⟩)
      simp only [update_self]
      grind
    · rcases h.orphans hg a ha with hn | ⟨b, hb, hbi, hbv, hbd⟩ | ⟨q, hq⟩
      · exact Or.inl hn
      · have hbs : b ≠ x.slot := by
          rintro rfl
          exact hax (hbi.symm.trans hinum)
        exact Or.inr (Or.inl ⟨b, by simpa [update_of_ne hbs] using ⟨hb, hbi, hbv, hbd⟩⟩)
      · exact Or.inr (Or.inr ⟨q, (hfresh q a hq).resolve_right hax⟩)

theorem relock (hy : y.slot = x.slot) (hs : x.stage ≠ .freed ∧ y.stage ≠ .freed)
    (hv : y.stage = .locked → (inode x.slot).valid)
    (he : e.ref = (inode x.slot).ref ∧ e.inum = (inode x.slot).inum ∧
      e.valid = (inode x.slot).valid ∧ e.din = (inode x.slot).din) :
    Cache g (update inode x.slot e) disk (gather (update f p (y ::ₘ F)))
      fresh := by
  rw [gather_eq_cons hf] at h
  rw [gather_update_cons]
  refine ⟨fun q z hz hzs => ?_, fun q z hz hzs => ?_, fun a => ?_, fun hg a ha => ?_, h.small⟩
  · have := h.loaded q z
    simp only [Multiset.mem_cons, Prod.mk.injEq] at this hz
    simp only [update_apply]
    grind
  · have := h.gone q z
    simp only [Multiset.mem_cons, Prod.mk.injEq] at this hz
    simp only [update_apply]
    grind
  · have := h.same a
    simp only [Multiset.mem_cons, Prod.mk.injEq, update_apply] at this ⊢
    grind
  · have := h.orphans hg a ha
    simp only [update_apply]
    grind

theorem store (hx : x.stage = .locked)
    (ht : Itable inode uses ptrs (gather f)) (htype : d.type ≠ none)
    (hsmall : g → d.nlink < 2 ^ 15) :
    Cache g (update inode x.slot { inode x.slot with din := d })
      (update disk (inode x.slot).inum d) (gather f) fresh := by
  have hmem : (p, x) ∈ gather f := by simp [hf]
  have hpos := ht.ref_pos hmem
  have hvalid := h.loaded p x hmem (Or.inl hx)
  refine ⟨fun q z hz hzs => ?_, fun q z hz hzs => ?_, fun a => ?_, fun hg a ha => ?_, fun hg a => ?_⟩
  · have := h.loaded q z hz hzs
    simp only [update_apply]
    grind
  · have := h.gone q z hz hzs
    have := ht.lock_unique hmem hz (by simp [hx]) (by simp [hzs])
    simp only [update_apply]
    grind
  · have := h.same a
    have := ht.unique a x.slot
    simp only [update_apply]
    grind
  · by_cases hax : a = (inode x.slot).inum
    · subst hax
      exact Or.inr (Or.inl ⟨x.slot, by simpa using ⟨hpos, hvalid⟩⟩)
    · rw [update_of_ne hax] at ha ⊢
      rcases h.orphans hg a ha with hn | ⟨b, hb, hbi, hbv, hbd⟩ | hfresh
      · exact Or.inl hn
      · have hbs : b ≠ x.slot := by
          rintro rfl
          exact hax hbi.symm
        exact Or.inr (Or.inl ⟨b, by simpa [update_of_ne hbs] using ⟨hb, hbi, hbv, hbd⟩⟩)
      · exact Or.inr (Or.inr hfresh)
  · have := h.small hg a
    simp only [update_apply]
    grind

theorem clear (hx : x.stage = .locked)
    (ht : Itable inode uses ptrs (gather f)) (htype : d.type = none)
    (hy : y.slot = x.slot ∧ y.stage = .freed) (hsmall : g → d.nlink < 2 ^ 15) :
    Cache g (update inode x.slot { inode x.slot with din := d })
      (update disk (inode x.slot).inum d) (gather (update f p (y ::ₘ F)))
      fresh := by
  have hmem : (p, x) ∈ gather f := by simp [hf]
  have hpos := ht.ref_pos hmem
  have hvalid := h.loaded p x hmem (Or.inl hx)
  have hunique := fun a => ht.unique a x.slot
  rw [gather_eq_cons hf] at h
  rw [gather_update_cons]
  refine ⟨fun q z hz hzs => ?_, fun q z hz hzs => ?_, fun a => ?_, fun hg a ha => ?_, fun hg a => ?_⟩
  · have := h.loaded q z
    simp only [Multiset.mem_cons, Prod.mk.injEq] at this hz
    simp only [update_apply]
    grind
  · have := h.gone q z
    simp only [Multiset.mem_cons, Prod.mk.injEq] at this hz
    simp only [update_apply]
    grind
  · by_cases hax : a = x.slot
    · subst hax
      exact fun _ _ => Or.inr ⟨p, y, Multiset.mem_cons_self _ _, hy⟩
    · have := h.same a
      have := hunique a
      simp only [Multiset.mem_cons, Prod.mk.injEq, update_apply] at this ⊢
      grind
  · have hax : a ≠ (inode x.slot).inum := by
      rintro rfl
      simp [htype] at ha
    rw [update_of_ne hax] at ha ⊢
    rcases h.orphans hg a ha with hn | ⟨b, hb, hbi, hbv, hbd⟩ | hfresh
    · exact Or.inl hn
    · have hbs : b ≠ x.slot := by
        rintro rfl
        exact hax hbi.symm
      exact Or.inr (Or.inl ⟨b, by simpa [update_of_ne hbs] using ⟨hb, hbi, hbv, hbd⟩⟩)
    · exact Or.inr (Or.inr hfresh)
  · have := h.small hg a
    simp only [update_apply]
    grind

theorem invalidate (hx : x.stage = .freed)
    (ht : Itable inode uses ptrs (gather f)) (hy : y.slot = x.slot ∧ y.stage = .free)
    (he : e.valid = false) :
    Cache g (update inode x.slot e) disk (gather (update f p (y ::ₘ F)))
      fresh := by
  have hmem : (p, x) ∈ gather f := by simp [hf]
  have hd := h.gone p x hmem hx
  have hlock : ∀ q z, (q, z) ∈ gather f → z.stage ≠ .free → z.slot = x.slot → z = x := by
    intro q z hz hzs hes
    exact (ht.lock_unique hz hmem hzs (by simp [hx]) hes).2
  have hlocks := ht.locks p x.slot
  rw [gather_eq_cons hf] at h hlock hlocks
  rw [gather_update_cons]
  have hnone : ∀ q z, (q, z) ∈ others f p F → z.slot = x.slot → z.stage = .free := by
    intro q z hz hes
    by_contra hzs
    have hzx := hlock q z (Multiset.mem_cons_of_mem hz) hzs hes
    have hq := ht.lock_of_mem hmem (by simp [hx])
    have hq' := ht.lock_of_mem (p := q) (x := z)
      (by rw [gather_eq_cons hf]; exact Multiset.mem_cons_of_mem hz) hzs
    rw [hes, hq] at hq'
    obtain rfl := Option.some.inj hq'
    have hpos : 0 < lockCount (others f p F) p x.slot := lockCount_pos.mpr ⟨z, hz, hes, hzs⟩
    rw [lockCount_cons, if_pos ⟨rfl, rfl, by simp [hx]⟩, if_pos hq] at hlocks
    omega
  refine ⟨fun q z hz hzs => ?_, fun q z hz hzs => ?_, fun a => ?_, fun hg a ha => ?_, h.small⟩
  · have := h.loaded q z
    have := hnone q z
    simp only [Multiset.mem_cons, Prod.mk.injEq] at this hz
    simp only [update_apply]
    grind
  · have := h.gone q z
    have := hnone q z
    simp only [Multiset.mem_cons, Prod.mk.injEq] at this hz
    simp only [update_apply]
    grind
  · have := h.same a
    simp only [Multiset.mem_cons, Prod.mk.injEq, update_apply] at this ⊢
    grind
  · have := h.orphans hg a ha
    simp only [update_apply]
    grind

end

theorem claim {type : FileType} (hfree : (disk i).type = none) (hnone : fresh p = none) :
    Cache g inode (update disk i (freshDInode type)) (gather f)
      (update fresh p (some i)) := by
  refine ⟨h.loaded, h.gone, fun a => ?_, fun hg a ha => ?_, fun hg a => ?_⟩
  · have := h.same a
    simp only [update_apply]
    grind
  · by_cases hai : a = i
    · exact Or.inr (Or.inr ⟨p, by simp [hai]⟩)
    · rw [update_of_ne hai] at ha ⊢
      rcases h.orphans hg a ha with hn | hs | ⟨q, hq⟩
      · exact Or.inl hn
      · exact Or.inr (Or.inl hs)
      · refine Or.inr (Or.inr ⟨q, ?_⟩)
        rw [update_of_ne]
        · exact hq
        · rintro rfl
          simp [hnone] at hq
  · have := h.small hg a
    simp only [update_apply]
    grind [freshDInode]

end

end Cache

end Xv6.Namespace
