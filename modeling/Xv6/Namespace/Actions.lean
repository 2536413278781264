import Xv6.Namespace.Discipline

/-!
# What each action does to the holdings
-/

namespace Xv6.Namespace

open Xv6.Foundation Function

set_option autoImplicit false

variable {P : Type} [Fintype P] [DecidableEq P] {g : Prop} {ninodes : Nat} {p : P} {l : Hold P}
  {w : World P} {ls : P → Hold P} {Q : Slot → Hold P → Prop} {k : Kernel P}
  {committed : Nat → DInode} {fresh : P → Option Nat} {inOp : P → Bool}

theorem Inv.of_update {w' : World P} {l' : Hold P} {t : P → Table}
    (ht : tables w'.kernel.ofile (update (fun q => (ls q).own) p l'.own) = t)
    (itable : Itable w'.kernel.inode (uses w'.kernel) w'.notes.ptrs
      (gather (update (fun q => (ls q).inodes) p l'.inodes)))
    (cache : Cache g w'.kernel.inode w'.kernel.disk
      (gather (update (fun q => (ls q).inodes) p l'.inodes))
      (update (fun q => (ls q).fresh) p l'.fresh)) (ftable : Ftable w'.kernel.file t
      (gather (update (fun q => (ls q).files) p l'.files))
      (update (fun q => (ls q).news) p l'.news)) (vias : Vias w'.kernel.file t
      (gather (update (fun q => (ls q).inodes) p l'.inodes)))
    (pages : Pages w'.kernel.file w'.kernel.pipe
      (gather (update (fun q => (ls q).pages) p l'.pages)))
    (procs : Procs w'.kernel.state w'.kernel.cwd w'.kernel.ofile w'.notes.start w'.notes.gave
      (update (fun q => (ls q).own) p l'.own))
    (ops : Ops g w'.kernel.outstanding w'.kernel.committed w'.notes.ops
      (update (fun q => (ls q).inOp) p l'.inOp)
      (update (fun q => (ls q).fresh) p l'.fresh)) :
    Inv g w' (update ls p l') := by
  subst ht
  simp only [← field_update] at itable cache ftable vias pages procs ops
  exact ⟨itable, cache, ftable, vias, pages, procs, ops⟩

omit [Fintype P] in
theorem tables_update_self (ofile : P → Table) (own : P → Own P) (p : P) :
    tables ofile (update own p (own p)) = tables ofile own := by
  rw [update_eq_self]

omit [DecidableEq P] in
theorem Ops.setFresh [DecidableEq P] {outstanding : Nat} {ops : P → Nat} {o : Option Nat}
    (h : Ops g outstanding committed ops inOp fresh) (ho : o ≠ none → inOp p) :
    Ops g outstanding committed ops inOp (update fresh p o) := by
  refine ⟨h.outstanding, h.ops, fun q => ?_, h.committed⟩
  by_cases hq : q = p
  · subst hq
    simpa using ho
  · simpa [hq] using h.fresh q

/-! ## Inodes -/

theorem Inv.of_inodes (hi : Inv g w ls) {inode : Slot → Inode P} {disk : Nat → DInode}
    {ptrs : P → List Slot} {I : Multiset Pointer} {fresh : Option Nat}
    (hit : Itable inode (uses w.kernel) ptrs
      (gather (update (fun q => (ls q).inodes) p I)))
    (hc : Cache g inode disk (gather (update (fun q => (ls q).inodes) p I))
      (update (fun q => (ls q).fresh) p fresh))
    (hv : Vias w.kernel.file (tables w.kernel.ofile fun q => (ls q).own)
      (gather (update (fun q => (ls q).inodes) p I)))
    (hfresh : fresh ≠ none → (ls p).inOp) :
    Inv g ⟨{ w.kernel with inode := inode, disk := disk }, { w.notes with ptrs := ptrs }⟩
      (update ls p { ls p with inodes := I, fresh := fresh }) := by
  refine Inv.of_update (tables_update_self ..) hit hc ?_ hv ?_ ?_ ?_
  · simpa using hi.ftable
  · simpa using hi.pages
  · simpa using hi.procs
  · simpa using hi.ops.setFresh hfresh

omit [Fintype P] [DecidableEq P] in
theorem cached_eq_some {i : Nat} {s : Slot} (h : k.cached i = some s) :
    0 < (k.inode s).ref ∧ (k.inode s).inum = i := by
  simpa using List.find?_some h

omit [Fintype P] [DecidableEq P] in
theorem cached_eq_none {i : Nat} (h : k.cached i = none) :
    ∀ s, 0 < (k.inode s).ref → (k.inode s).inum ≠ i := by
  simpa [Kernel.cached] using h

omit [Fintype P] [DecidableEq P] in
theorem emptyEntry_eq_some {s : Slot} (h : k.emptyEntry = some s) : (k.inode s).ref = 0 := by
  simpa using List.find?_some h

theorem Inv.addRef {s : Slot} (hi : Inv g w ls) (hpos : 0 < (w.kernel.inode s).ref) :
    Inv g ⟨w.kernel.addRef s, w.notes.push p s⟩ (update ls p
      { ls p with inodes := ⟨s, (w.kernel.inode s).inum, none, .free⟩ ::ₘ (ls p).inodes }) := by
  refine hi.of_inodes (hi.itable.addRef hpos) ?_ (hi.vias.gain (by simp)) (hi.ops.fresh p)
  rw [update_eq_self]
  refine (hi.cache.gain rfl).congr (fun a => ?_) fun _ _ _ => Iff.rfl
  by_cases ha : a = s <;> simp_all

theorem wp_iget {i : Nat} (hq : ∀ s, Q s { l with inodes := ⟨s, i, none, .free⟩ ::ₘ l.inodes }) :
    (discipline g P ninodes).wp p (iget i) l Q := by
  refine wp_exec (fun _ => trivial) ?_
  rintro w ls hi rfl s k hk
  simp only [Kernel.exec] at hk
  split at hk
  · rename_i s' hs
    obtain ⟨hpos, rfl⟩ := cached_eq_some hs
    obtain ⟨rfl, rfl⟩ := Outcome.ok.inj hk
    exact ⟨_, hi.addRef hpos, hq s'⟩
  · rename_i hnone
    split at hk
    · rename_i s' hs
      obtain ⟨rfl, rfl⟩ := Outcome.ok.inj hk
      have hzero := emptyEntry_eq_some hs
      refine ⟨_, hi.of_inodes (hi.itable.recycle hzero (cached_eq_none hnone) ⟨rfl, rfl, rfl⟩) ?_
        (hi.vias.gain (by simp)) (hi.ops.fresh p), hq s'⟩
      rw [update_eq_self]
      exact hi.cache.recycle hi.itable hzero ⟨rfl, rfl⟩
    · cases hk

theorem cwd_ref_pos {q : P} {s : Slot} (hi : Inv g w ls) (hs : w.kernel.cwd q = some s) :
    0 < (w.kernel.inode s).ref := by
  have hc : 0 < cwds w.kernel.cwd s :=
    Finset.sum_pos_iff.mpr ⟨q, Finset.mem_univ q, by simp [hs]⟩
  rw [hi.itable.refs s, uses]
  omega

theorem wp_idupCwd (hq : ∀ s i, Q s { l with inodes := ⟨s, i, none, .free⟩ ::ₘ l.inodes }) :
    (discipline g P ninodes).wp p idupCwd l Q := by
  refine wp_exec (fun _ => trivial) ?_
  rintro w ls hi rfl s k hk
  simp only [Kernel.exec] at hk
  split at hk
  · rename_i s' hs
    obtain ⟨rfl, rfl⟩ := Outcome.ok.inj hk
    exact ⟨_, hi.addRef (cwd_ref_pos hi hs), hq s' _⟩
  · cases hk

section Locks
variable {x : Pointer} {F : Multiset Pointer} {Q : Unit → Hold P → Prop}

variable (hl' : l.inodes = x ::ₘ F)
include hl'

theorem wp_acquiresleep
    (hx : x.stage = .free) (hq : Q () { l with inodes := x.to .locking ::ₘ F }) :
    (discipline g P ninodes).wp p (acquiresleep x.slot) l Q := by
  refine wp_exec (fun _ => trivial) ?_
  rintro w ls hi rfl _ k hk
  simp only [Kernel.exec] at hk
  split_ifs at hk
  split at hk
  · cases hk
  · rename_i hnone
    obtain ⟨-, rfl⟩ := Outcome.ok.inj hk
    refine ⟨_, hi.of_inodes (hi.itable.acquire (y := x.to .locking) hl' hnone ⟨rfl, rfl, rfl⟩
      (by simp)) ?_ (hi.vias.exchange hl' ⟨rfl, rfl⟩) (hi.ops.fresh p), hq⟩
    rw [update_eq_self]
    exact hi.cache.relock hl' rfl ⟨by simp [hx], by simp⟩ (by simp) ⟨rfl, rfl, rfl, rfl⟩

/-- `ilock` has read the inode. The inode that the call has allocated counts as locked if it is
this one. -/
theorem wp_iload {fresh : Option Nat}
    (hx : x.stage = .locking) (hfresh : fresh = l.fresh ∨ l.fresh = some x.inum ∧ fresh = none)
    (hq : Q () { l with inodes := x.to .locked ::ₘ F, fresh := fresh }) :
    (discipline g P ninodes).wp p (iload x.slot) l Q := by
  refine wp_exec (fun _ => trivial) ?_
  rintro w ls hi rfl _ k hk
  have hop : fresh ≠ none → (ls p).inOp := by
    rcases hfresh with rfl | ⟨-, rfl⟩
    · exact hi.ops.fresh p
    · simp
  have hf : ∀ q a, (ls q).fresh = some a →
      update (fun q => (ls q).fresh) p fresh q = some a ∨ a = x.inum := by
    intro q a ha
    by_cases hqp : q = p
    · subst hqp
      rcases hfresh with rfl | ⟨he, rfl⟩
      · exact Or.inl (by simpa using ha)
      · exact Or.inr (Option.some.inj (ha.symm.trans he))
    · exact Or.inl (by simpa [hqp] using ha)
  have hstage : ∀ {inode : Slot → Inode P}, (∀ s, (inode s).ref = (w.kernel.inode s).ref ∧
      (inode s).inum = (w.kernel.inode s).inum ∧ (inode s).lock = (w.kernel.inode s).lock) →
      Itable inode (uses w.kernel) w.notes.ptrs (gather (update (fun q => (ls q).inodes) p
        (x.to .locked ::ₘ F))) := fun h =>
    (hi.itable.restage (y := x.to .locked) hl' ⟨rfl, rfl, rfl⟩ (by simp [hx])).congr h
  simp only [Kernel.exec] at hk
  split_ifs at hk with hvalid htype
  · obtain ⟨-, rfl⟩ := Outcome.ok.inj hk
    have hc := hi.cache.load (y := x.to .locked) hl' hx hi.itable ⟨rfl, rfl⟩
      ⟨rfl, rfl⟩ hvalid (Or.inl ⟨hvalid, rfl⟩) hf
    rw [update_eq_self] at hc
    exact ⟨_, hi.of_inodes (hstage fun _ => ⟨rfl, rfl, rfl⟩) hc
      (hi.vias.exchange hl' ⟨rfl, rfl⟩) hop, hq⟩
  · obtain ⟨-, rfl⟩ := Outcome.ok.inj hk
    refine ⟨_, hi.of_inodes (hstage fun s => ?_)
      (hi.cache.load hl' hx hi.itable ⟨rfl, rfl⟩ ⟨rfl, rfl⟩ rfl
        (Or.inr ⟨by simpa using hvalid, rfl, htype⟩) hf)
      (hi.vias.exchange hl' ⟨rfl, rfl⟩) hop, hq⟩
    by_cases hs : s = x.slot <;> simp_all

theorem wp_iunlock (hx : x.stage = .locked) (hq : Q () { l with inodes := x.to .free ::ₘ F }) :
    (discipline g P ninodes).wp p (iunlock x.slot) l Q := by
  refine wp_exec (fun _ => trivial) ?_
  rintro w ls hi rfl _ k hk
  simp only [Kernel.exec] at hk
  split_ifs at hk
  obtain ⟨-, rfl⟩ := Outcome.ok.inj hk
  refine ⟨_, hi.of_inodes (hi.itable.release (y := x.to .free) hl' (by simp [hx]) ⟨rfl, rfl, rfl⟩
    ⟨rfl, rfl, rfl⟩ rfl) ?_ (hi.vias.exchange hl' ⟨rfl, rfl⟩) (hi.ops.fresh p), hq⟩
  rw [update_eq_self]
  exact hi.cache.relock hl' rfl ⟨by simp [hx], by simp⟩ (by simp) ⟨rfl, rfl, rfl, rfl⟩

omit hl' in
theorem wp_readInode {Q : Nat × DInode → Hold P → Prop} {s : Slot} (hq : ∀ r, Q r l) :
    (discipline g P ninodes).wp p (readInode s) l Q := by
  refine Logic.wp_lift fun w ls hi hl _ => after_of_exec trivial fun r k hk => ?_
  obtain ⟨-, rfl⟩ := Outcome.ok.inj hk
  refine ⟨l, ?_, hq r⟩
  rw [← hl, update_eq_self]
  exact hi

omit hl' in
theorem Inv.store {d : DInode} (hi : Inv g w ls) (hl : (ls p).inodes = x ::ₘ F)
    (hx : x.stage = .locked) (htype : d.type = (w.kernel.inode x.slot).din.type)
    (hsmall : g → d.nlink < 2 ^ 15) : Inv g ⟨w.kernel.store x.slot d, w.notes⟩ ls := by
  have hmem : (p, x) ∈ gather fun q => (ls q).inodes := by simp [hl]
  have hdin := hi.cache.din_of_locked hi.itable hmem hx
  have hit : Itable (update w.kernel.inode x.slot
      { w.kernel.inode x.slot with din := d }) (uses w.kernel) w.notes.ptrs
      (gather fun q => (ls q).inodes) := by
    refine hi.itable.congr fun s => ?_
    by_cases hs : s = x.slot <;> simp_all
  exact ⟨hit, hi.cache.store hl hx hi.itable (htype ▸ hdin.2) hsmall, hi.ftable, hi.vias, hi.pages,
    hi.procs, hi.ops⟩

omit hl' in
theorem Inv.small {p : P} (hi : Inv g w ls) (hl : (ls p).inodes = x ::ₘ F)
    (hx : x.stage = .locked) (hg : g) : (w.kernel.inode x.slot).din.nlink < 2 ^ 15 := by
  have hmem : (p, x) ∈ gather fun q => (ls q).inodes := by simp [hl]
  rw [(hi.cache.din_of_locked hi.itable hmem hx).1]
  exact hi.cache.small hg _

theorem wp_store {a : Act P} {Q : a.Resp → Hold P → Prop}
    (hx : x.stage = .locked) (hsafe : ∀ w, Safe p a w)
    (hexec : ∀ (w : World P) r k, w.kernel.exec p a = .ok r k →
      w.notes.after p a r = w.notes ∧ (k = w.kernel ∨ ∃ d, k = w.kernel.store x.slot d ∧
        d.type = (w.kernel.inode x.slot).din.type ∧
        ((g → Guard a w) → g → (w.kernel.inode x.slot).din.nlink < 2 ^ 15 → d.nlink < 2 ^ 15)))
    (hq : ∀ r, Q r l) : (discipline g P ninodes).wp p (act a) l Q := by
  refine Logic.wp_lift fun w ls hi hl hguard => after_of_exec (hsafe w) fun r k hk => ?_
  subst hl
  refine ⟨ls p, ?_, hq r⟩
  obtain ⟨hn, rfl | ⟨d, rfl, htype, hsmall⟩⟩ := hexec w r k hk
  · rw [hn, update_eq_self]
    exact hi
  · rw [hn, update_eq_self]
    exact hi.store hl' hx htype fun hg => hsmall hguard hg (hi.small hl' hx hg)

theorem wp_itrunc (hx : x.stage = .locked)
    (hq : Q () l) : (discipline g P ninodes).wp p (itrunc x.slot) l Q := by
  refine wp_store hl' hx (fun _ => trivial) (fun w r k hk => ⟨rfl, Or.inr ?_⟩) fun _ => hq
  obtain ⟨-, rfl⟩ := Outcome.ok.inj hk
  exact ⟨_, rfl, rfl, fun _ _ h => h⟩

theorem wp_initInode {major : Int} (hx : x.stage = .locked) (hq : Q () l) :
    (discipline g P ninodes).wp p (initInode x.slot major) l Q := by
  refine wp_store hl' hx (fun _ => trivial) (fun w r k hk => ⟨rfl, Or.inr ?_⟩) fun _ => hq
  obtain ⟨-, rfl⟩ := Outcome.ok.inj hk
  exact ⟨_, rfl, rfl, fun _ _ _ => by norm_num⟩

theorem wp_incNlink (hx : x.stage = .locked)
    (hq : Q () l) : (discipline g P ninodes).wp p (incNlink x.slot) l Q := by
  refine wp_store hl' hx (fun _ => trivial) (fun w r k hk => ⟨rfl, Or.inr ?_⟩) fun _ => hq
  obtain ⟨-, rfl⟩ := Outcome.ok.inj hk
  refine ⟨_, rfl, rfl, fun hguard hg _ => ?_⟩
  have : (w.kernel.inode x.slot).din.nlink + 1 < 2 ^ 15 := hguard hg
  simp only
  omega

theorem wp_decNlink (hx : x.stage = .locked)
    (hq : Q () l) : (discipline g P ninodes).wp p (decNlink x.slot) l Q := by
  refine wp_store hl' hx (fun _ => trivial) (fun w r k hk => ⟨rfl, Or.inr ?_⟩) fun _ => hq
  obtain ⟨-, rfl⟩ := Outcome.ok.inj hk
  refine ⟨_, rfl, rfl, fun hguard hg h => ?_⟩
  have : 0 < (w.kernel.inode x.slot).din.nlink := hguard hg
  simp only
  omega

theorem wp_writei {Q : Bool → Hold P → Prop} {slot : Nat} {de : Dirent}
    (hx : x.stage = .locked) (hq : ∀ r, Q r l) :
    (discipline g P ninodes).wp p (writei x.slot slot de) l Q := by
  refine wp_store hl' hx (fun _ => trivial) (fun w r k hk => ⟨rfl, ?_⟩) hq
  simp only [Kernel.exec] at hk
  split_ifs at hk
  · obtain ⟨-, rfl⟩ := Outcome.ok.inj hk
    exact Or.inr ⟨_, rfl, rfl, fun _ _ h => h⟩
  · obtain ⟨-, rfl⟩ := Outcome.ok.inj hk
    exact Or.inl rfl

theorem wp_clearType (hx : x.stage = .locked) (hq : Q () { l with inodes := x.to .freed ::ₘ F }) :
    (discipline g P ninodes).wp p (clearType x.slot) l Q := by
  refine wp_exec (fun _ => trivial) ?_
  rintro w ls hi rfl _ k hk
  obtain ⟨-, rfl⟩ := Outcome.ok.inj hk
  refine ⟨_, hi.of_inodes ((hi.itable.restage (y := x.to .freed) hl' ⟨rfl, rfl, rfl⟩
    (by simp [hx])).congr fun s => ?_) ?_ (hi.vias.exchange hl' ⟨rfl, rfl⟩) (hi.ops.fresh p), hq⟩
  · by_cases hs : s = x.slot <;> simp_all
  · rw [update_eq_self]
    exact hi.cache.clear hl' hx hi.itable rfl ⟨rfl, rfl⟩ (hi.small hl' hx)

theorem wp_invalidate (hx : x.stage = .freed) (hq : Q () { l with inodes := x.to .free ::ₘ F }) :
    (discipline g P ninodes).wp p (invalidate x.slot) l Q := by
  refine wp_exec (fun _ => trivial) ?_
  rintro w ls hi rfl _ k hk
  obtain ⟨-, rfl⟩ := Outcome.ok.inj hk
  refine ⟨_, hi.of_inodes (hi.itable.release (y := x.to .free) hl' (by simp [hx]) ⟨rfl, rfl, rfl⟩
    ⟨rfl, rfl, rfl⟩ rfl) ?_ (hi.vias.exchange hl' ⟨rfl, rfl⟩) (hi.ops.fresh p), hq⟩
  rw [update_eq_self]
  exact hi.cache.invalidate hl' hx hi.itable ⟨rfl, rfl⟩ rfl

end Locks

section Puts
variable {s : Slot} {i : Nat} {F : Multiset Pointer}

theorem Inv.dropRef (hi : Inv g w ls) (hl : (ls p).inodes = ⟨s, i, none, .free⟩ ::ₘ F)
    (hlast : g → (w.kernel.inode s).ref = 1 → (w.kernel.inode s).valid →
      (w.kernel.inode s).din.nlink ≠ 0) : Inv g ⟨w.kernel.dropRef s, w.notes.pop p s⟩
      (update ls p { ls p with inodes := F }) := by
  refine hi.of_inodes (hi.itable.dropRef hl) ?_ (hi.vias.lose hl) (hi.ops.fresh p)
  rw [update_eq_self]
  exact hi.cache.dropRef hl hi.itable hlast

theorem wp_unref {Q : Unit → Hold P → Prop} (hl' : l.inodes = ⟨s, i, none, .free⟩ ::ₘ F)
    (hq : Q () { l with inodes := F }) : (discipline g P ninodes).wp p (unref s) l Q := by
  refine Logic.wp_lift fun w ls hi hl hguard => after_of_exec trivial fun _ k hk => ?_
  subst hl
  obtain ⟨-, rfl⟩ := Outcome.ok.inj hk
  exact ⟨_, hi.dropRef hl' hguard, hq⟩

theorem wp_iputTest {Q : Bool → Hold P → Prop} (hl' : l.inodes = ⟨s, i, none, .free⟩ ::ₘ F)
    (hlast : Q true { l with inodes := ⟨s, i, none, .locked⟩ ::ₘ F })
    (hq : Q false { l with inodes := F }) : (discipline g P ninodes).wp p (iputTest s) l Q := by
  refine Logic.wp_lift fun w ls hi hl _ => ?_
  subst hl
  refine after_of_exec (hi.itable.lock_free_of_last hl') fun last k hk => ?_
  simp only [Kernel.exec] at hk
  split_ifs at hk with h
  · rw [hi.itable.lock_free_of_last hl' h.1] at hk
    obtain ⟨rfl, rfl⟩ := Outcome.ok.inj hk
    have hnone := hi.itable.lock_free_of_last hl' h.1
    refine ⟨_, hi.of_inodes (hi.itable.acquire (y := ⟨s, i, none, .locked⟩) hl' hnone
      ⟨rfl, rfl, rfl⟩ (by simp)) ?_ (hi.vias.exchange hl' ⟨rfl, rfl⟩) (hi.ops.fresh p), hlast⟩
    rw [update_eq_self]
    exact hi.cache.relock hl' rfl ⟨by simp, by simp⟩ (fun _ => h.2.1) ⟨rfl, rfl, rfl, rfl⟩
  · obtain ⟨rfl, rfl⟩ := Outcome.ok.inj hk
    exact ⟨_, hi.dropRef hl' fun _ h1 h2 h3 => h ⟨h1, h2, h3⟩, hq⟩

end Puts

theorem wp_tryAlloc {i : Nat} {type : FileType} {Q : Bool → Hold P → Prop} (hop : l.inOp)
    (hfresh : l.fresh = none) (hfree : Q true { l with fresh := some i }) (hq : Q false l) :
    (discipline g P ninodes).wp p (tryAlloc i type) l Q := by
  refine wp_exec (fun _ => trivial) ?_
  rintro w ls hi rfl r k hk
  simp only [Kernel.exec] at hk
  split_ifs at hk with h
  · obtain ⟨rfl, rfl⟩ := Outcome.ok.inj hk
    refine ⟨_, hi.of_inodes (I := (ls p).inodes) ?_ ?_ ?_ (fun _ => hop), hfree⟩
    · simpa using hi.itable
    · simpa using hi.cache.claim h hfresh
    · simpa using hi.vias
  · obtain ⟨rfl, rfl⟩ := Outcome.ok.inj hk
    exact ⟨_, hi.keep, hq⟩

/-! ## Operations -/

theorem wp_beginOp {Q : Unit → Hold P → Prop} (hop : l.inOp = false)
    (hq : Q () { l with inOp := true }) : (discipline g P ninodes).wp p beginOp l Q := by
  refine Logic.wp_lift fun w ls hi hl _ => ?_
  subst hl
  have hzero := hi.ops.ops p
  rw [hop] at hzero
  refine after_of_exec hzero fun _ k hk => ⟨_, ?_, hq⟩
  obtain ⟨-, rfl⟩ := Outcome.ok.inj hk
  refine Inv.of_update (tables_update_self ..) ?_ ?_ ?_ ?_ ?_ ?_ ⟨?_, fun q => ?_, fun q hf => ?_, ?_⟩
  · rw [update_eq_self]
    exact hi.itable
  · simpa using hi.cache
  · simpa using hi.ftable
  · simpa using hi.vias
  · simpa using hi.pages
  · rw [update_eq_self]
    exact hi.procs
  · have := sum_update_add (fun b : Bool => b.toNat) (fun q => (ls q).inOp) p true
    simp only [hop, Bool.toNat_false, Bool.toNat_true, add_zero] at this
    rw [this, ← hi.ops.outstanding]
  · by_cases hqp : q = p
    · subst hqp
      simp [Notes.after, hzero]
    · simpa [Notes.after, hqp] using hi.ops.ops q
  · by_cases hqp : q = p
    · simp [hqp]
    · simpa [hqp] using hi.ops.fresh q (by simpa [hqp] using hf)
  · exact hi.ops.committed

omit [DecidableEq P] in
theorem Ops.alone [DecidableEq P] {ops : P → Nat} (h : Ops g 1 committed ops inOp fresh) (hp : inOp p)
    (hfresh : fresh p = none) (q : P) : fresh q = none := by
  by_cases hqp : q = p
  · rw [hqp, hfresh]
  · by_contra hq
    have hop := h.fresh q hq
    have hsum := Finset.sum_le_sum_of_subset (f := fun p => (inOp p).toNat)
      (Finset.subset_univ ({q, p} : Finset P))
    rw [Finset.sum_pair hqp, ← h.outstanding] at hsum
    simp [hp, hop] at hsum

theorem wp_endOp {Q : Unit → Hold P → Prop} (hop : l.inOp = true) (hfresh : l.fresh = none)
    (hq : Q () { l with inOp := false }) : (discipline g P ninodes).wp p endOp l Q := by
  refine Logic.wp_lift fun w ls hi hl hguard => ?_
  subst hl
  have hone := hi.ops.ops p
  rw [hop] at hone
  refine after_of_exec hone fun _ k hk => ⟨_, ?_, hq⟩
  obtain ⟨-, rfl⟩ := Outcome.ok.inj hk
  refine Inv.of_update (tables_update_self ..) ?_ ?_ ?_ ?_ ?_ ?_ ⟨?_, fun q => ?_, fun q hf => ?_, fun hg i => ?_⟩
  · rw [update_eq_self]
    exact hi.itable
  · simpa using hi.cache
  · simpa using hi.ftable
  · simpa using hi.vias
  · simpa using hi.pages
  · rw [update_eq_self]
    exact hi.procs
  · have := sum_update_add (fun b : Bool => b.toNat) (fun q => (ls q).inOp) p false
    have hsum := hi.ops.outstanding
    simp only [hop, Bool.toNat_false, Bool.toNat_true, add_zero] at this
    simp only
    omega
  · by_cases hqp : q = p
    · subst hqp
      simp [Notes.after, hone]
    · simpa [Notes.after, hqp] using hi.ops.ops q
  · by_cases hqp : q = p
    · simp [hqp, hfresh] at hf
    · simpa [hqp] using hi.ops.fresh q (by simpa [hqp] using hf)
  · simp only
    split_ifs with hlast
    · intro ht
      have hops := hi.ops
      rw [hlast] at hops
      refine ⟨?_, hi.cache.small hg i⟩
      rcases hi.cache.orphans hg i ht with hn | ⟨s, hpos, -, hv, hd⟩ | ⟨q, hqf⟩
      · exact Nat.pos_of_ne_zero hn
      · rw [← hd]
        exact Nat.pos_of_ne_zero (hguard hg hlast s hpos hv)
      · rw [hops.alone hop hfresh q] at hqf
        cases hqf
    · exact hi.ops.committed hg i

end Xv6.Namespace
