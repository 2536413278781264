import Xv6.Namespace.ProcActions

/-!
# Every system call keeps the discipline
-/

namespace Xv6.Namespace

open Xv6.Foundation Function
open Xv6.Disk (ROOTINO)

set_option autoImplicit false

variable {P : Type} [Fintype P] [DecidableEq P] {g : Prop} {ninodes : Nat} {p : P} {l : Hold P}
  {Q : Unit → Hold P → Prop}

/-! ## Inodes -/

section Inodes
variable {x : Pointer} {s : Slot} {i : Nat} {F : Multiset Pointer} {Q : Unit → Hold P → Prop}

theorem wp_ilock (hl : l.inodes = x ::ₘ F) (hx : x.stage = .free)
    (hq : Q () { l with inodes := x.to .locked ::ₘ F }) :
    (discipline g P ninodes).wp p (ilock x.slot) l Q := by
  unfold ilock
  refine Logic.wp_bind (wp_acquiresleep hl hx ?_)
  exact wp_iload (x := x.to .locking) rfl rfl (Or.inl rfl) hq

theorem wp_ilock_fresh (hl : l.inodes = x ::ₘ F) (hx : x.stage = .free)
    (hfresh : l.fresh = some x.inum)
    (hq : Q () { l with inodes := x.to .locked ::ₘ F, fresh := none }) :
    (discipline g P ninodes).wp p (ilock x.slot) l Q := by
  unfold ilock
  refine Logic.wp_bind (wp_acquiresleep hl hx ?_)
  exact wp_iload (x := x.to .locking) rfl rfl (Or.inr ⟨hfresh, rfl⟩) hq

theorem wp_iput (hl : l.inodes = ⟨s, i, none, .free⟩ ::ₘ F)
    (hq : Q () { l with inodes := F }) : (discipline g P ninodes).wp p (iput s) l Q := by
  unfold iput
  refine Logic.wp_bind (wp_iputTest hl ?_ hq)
  refine Logic.wp_bind (wp_itrunc (x := ⟨s, i, none, .locked⟩) rfl rfl ?_)
  refine Logic.wp_bind (wp_clearType (x := ⟨s, i, none, .locked⟩) rfl rfl ?_)
  refine Logic.wp_bind (wp_invalidate (x := ⟨s, i, none, .freed⟩) rfl rfl ?_)
  exact wp_unref rfl hq

theorem wp_iunlockput (hl : l.inodes = ⟨s, i, none, .locked⟩ ::ₘ F)
    (hq : Q () { l with inodes := F }) : (discipline g P ninodes).wp p (iunlockput s) l Q := by
  unfold iunlockput
  refine Logic.wp_bind (wp_iunlock (x := ⟨s, i, none, .locked⟩) hl rfl ?_)
  exact wp_iput rfl hq

theorem wp_iunlock_leave {fd : Fd}
    (hl : l.inodes = ⟨s, i, some fd, .locked⟩ ::ₘ F) (hq : Q () { l with inodes := F }) :
    (discipline g P ninodes).wp p (iunlock s) l Q := by
  have hunlock : (discipline g P ninodes).wp p (iunlock s) l fun _ l' =>
      l' = { l with inodes := ⟨s, i, some fd, .free⟩ ::ₘ F } :=
    wp_iunlock (x := ⟨s, i, some fd, .locked⟩) hl rfl rfl
  refine Logic.wp_lift_shift hunlock ?_
  rintro ⟨⟩ _ rfl
  refine ⟨_, fun w ls hi hls => ?_, hq⟩
  have hl' : (ls p).inodes = ⟨s, i, some fd, .free⟩ ::ₘ F := by rw [hls]
  have heq : ({ l with inodes := F } : Hold P) = { ls p with inodes := F, fresh := (ls p).fresh } := by
    rw [hls]
  rw [heq]
  refine Inv.of_inodes hi (hi.itable.leaveFile hl') ?_ (hi.vias.lose hl') (hi.ops.fresh p)
  rw [update_eq_self]
  exact hi.cache.lose hl' rfl

theorem wp_ialloc {Q : Slot → Hold P → Prop} {n : Nat} {type : FileType} (hop : l.inOp)
    (hfresh : l.fresh = none) (hq : ∀ s i, Q s { l with
      inodes := ⟨s, i, none, .free⟩ ::ₘ l.inodes, fresh := some i }) :
    (discipline g P ninodes).wp p (ialloc n type) l Q := by
  unfold ialloc
  generalize List.range' 1 (n - 1) = inums
  induction inums with
  | nil => exact wp_panicWith
  | cons i rest ih =>
    unfold iallocFrom
    refine Logic.wp_bind (wp_tryAlloc hop hfresh ?_ ?_)
    · exact wp_iget fun s => hq s i
    · exact ih

end Inodes

/-! ## Directories and paths -/

section Paths
variable {x : Pointer} {s : Slot} {i : Nat} {F : Multiset Pointer}
  {Q : Option (Slot × Name) → Hold P → Prop}

theorem wp_dirlookup {Q : Option (Nat × Slot) → Hold P → Prop} {name : Name} (hnone : Q none l)
    (hq : ∀ slot s i, Q (some (slot, s)) { l with inodes := ⟨s, i, none, .free⟩ ::ₘ l.inodes }) :
    (discipline g P ninodes).wp p (dirlookup s name) l Q := by
  unfold dirlookup
  refine Logic.wp_bind (wp_readInode fun r => ?_)
  obtain ⟨-, x⟩ := r
  refine Logic.wp_ite (fun _ => wp_panicWith) fun _ => ?_
  split
  · exact Logic.wp_bind (wp_iget fun s => hq _ s _)
  · exact Logic.wp_ite (fun _ => wp_panicWith) fun _ => hnone

theorem wp_dirlink {Q : Bool → Hold P → Prop} {name : Name} {n : Nat} (hl : l.inodes = x ::ₘ F)
    (hx : x.stage = .locked) (hq : ∀ r, Q r l) :
    (discipline g P ninodes).wp p (dirlink x.slot name n) l Q := by
  unfold dirlink
  refine Logic.wp_bind (wp_dirlookup ?_ fun slot s i => ?_)
  · refine Logic.wp_bind (wp_readInode fun r => ?_)
    obtain ⟨-, y⟩ := r
    refine Logic.wp_ite (fun _ => wp_panicWith) fun _ => ?_
    refine Logic.wp_bind (wp_writei hl hx fun r => ?_)
    exact Logic.wp_ite (fun _ => hq true) fun _ => wp_panicWith
  · exact Logic.wp_bind (wp_iput rfl (hq false))

theorem wp_isdirempty {Q : Bool → Hold P → Prop} {y : DInode} (hq : ∀ r, Q r l) :
    (discipline g P ninodes).wp p (isdirempty y) l Q := by
  unfold isdirempty
  exact Logic.wp_ite (fun _ => Logic.wp_ite (fun _ => wp_panicWith) fun _ => hq true)
    fun _ => hq false

theorem wp_namexFrom {parent : Bool} (names : List Name)
    (hl : l.inodes = ⟨s, i, none, .free⟩ ::ₘ F) (hnone : Q none { l with inodes := F })
    (hq : ∀ s i name, Q (some (s, name)) { l with inodes := ⟨s, i, none, .free⟩ ::ₘ F }) :
    (discipline g P ninodes).wp p (namexFrom parent names s) l Q := by
  induction names generalizing l s i with
  | nil =>
    unfold namexFrom
    refine Logic.wp_ite (fun _ => ?_) fun _ => ?_
    · exact Logic.wp_bind (wp_iput hl hnone)
    · have hself : l = { l with inodes := ⟨s, i, none, .free⟩ ::ₘ F } := by rw [← hl]
      rw [hself]
      exact hq s i []
  | cons name rest ih =>
    unfold namexFrom
    refine Logic.wp_bind (wp_ilock (x := ⟨s, i, none, .free⟩) hl rfl ?_)
    refine Logic.wp_bind (wp_readInode fun r => ?_)
    obtain ⟨-, x⟩ := r
    refine Logic.wp_ite (fun _ => ?_) fun _ => Logic.wp_ite (fun _ => ?_) fun _ => ?_
    · exact Logic.wp_bind (wp_iunlockput rfl hnone)
    · exact Logic.wp_bind (wp_iunlock (x := ⟨s, i, none, .locked⟩) rfl rfl (hq s i name))
    · refine Logic.wp_bind (wp_dirlookup ?_ fun slot s' i' => ?_)
      · exact Logic.wp_bind (wp_iunlockput rfl hnone)
      · refine Logic.wp_bind (wp_iunlockput (Multiset.cons_swap _ _ _) ?_)
        exact ih rfl hnone hq

theorem wp_namex {path : List Char} {parent : Bool} (hnone : Q none l)
    (hq : ∀ s i name, Q (some (s, name)) { l with inodes := ⟨s, i, none, .free⟩ ::ₘ l.inodes }) :
    (discipline g P ninodes).wp p (namex path parent) l Q := by
  have hfrom : ∀ s i, (discipline g P ninodes).wp p (namexFrom parent (elements path) s)
      { l with inodes := ⟨s, i, none, .free⟩ ::ₘ l.inodes } Q := fun s i =>
    wp_namexFrom (elements path) rfl hnone hq
  unfold namex
  refine Logic.wp_bind ?_
  unfold namexStart
  split_ifs
  · exact wp_iget fun s => hfrom s _
  · exact wp_idupCwd hfrom

end Paths

/-! ## Files -/

theorem wp_pipeclose {page : Nat} {writable : Bool}
    {T : Multiset PipeTask} (hl : l.pages = .close page writable ::ₘ T)
    (hq : Q () { l with pages := T }) :
    (discipline g P ninodes).wp p (pipeclose page writable) l Q := by
  unfold pipeclose
  refine Logic.wp_bind (wp_pipeCloseEnd hl ?_ ?_)
  · exact Logic.wp_when (fun _ => wp_kfree rfl hq) fun h => by cases h
  · exact Logic.wp_when (fun h => by cases h) fun _ => hq

/-- A file without a type may be closed within an operation. -/
theorem wp_fileclose {f : FileId} {F N : Multiset FileId}
    (hl : l.files = f ::ₘ F) (hN : N ≤ l.news) (hnot : f ∉ N)
    (hop : l.inOp = false ∨ f ∈ l.news) (hfresh : l.fresh = none)
    (hq : Q () { l with files := F, news := N }) :
    (discipline g P ninodes).wp p (fileclose f) l Q := by
  unfold fileclose
  refine Logic.wp_bind (wp_dropFile hl hN hnot hq (fun ff ht => ?_) (fun ff _ ht => ?_)
    fun ff i hnew ht => ?_)
  · simp only [ht]
    exact hq
  · simp only [ht]
    exact wp_pipeclose rfl hq
  · have hout : l.inOp = false := hop.resolve_right hnew
    have hclose : (discipline g P ninodes).wp p
        (beginOp >>= fun _ => iput ff.ip >>= fun _ => endOp) { l with
          files := F, news := N, inodes := ⟨ff.ip, i, none, .free⟩ ::ₘ l.inodes } Q := by
      refine Logic.wp_bind (wp_beginOp hout ?_)
      refine Logic.wp_bind (wp_iput rfl ?_)
      refine wp_endOp rfl hfresh ?_
      rw [← hout]
      exact hq
    rcases ht with ht | ht <;> simpa only [ht] using hclose

theorem wp_pipealloc {Q : Option (FileId × FileId) → Hold P → Prop} {page : Option Nat}
    (hop : l.inOp = false) (hfresh : l.fresh = none) (hnews : l.news = 0) (hnone : Q none l)
    (hq : ∀ rf wf, Q (some (rf, wf)) { l with files := rf ::ₘ wf ::ₘ l.files }) :
    (discipline g P ninodes).wp p (pipealloc page) l Q := by
  have hself : ({ l with news := 0 } : Hold P) = l := by rw [← hnews]
  unfold pipealloc
  refine Logic.wp_bind (wp_filealloc hnone fun rf _ => ?_)
  refine Logic.wp_bind (wp_filealloc ?_ fun wf hne => ?_)
  · refine Logic.wp_bind (wp_fileclose rfl (Multiset.zero_le _) (by simp) (Or.inl hop) hfresh ?_)
    exact hself ▸ hnone
  · have hne : rf ≠ wf := by
      rintro rfl
      simp at hne
    rw [hnews, Multiset.cons_swap wf rf l.files]
    cases page with
    | none =>
      refine Logic.wp_bind (wp_fileclose (N := {wf}) rfl ?_ (by simpa using hne) (Or.inl hop) hfresh ?_)
      · exact Multiset.singleton_le.mpr (by simp)
      refine Logic.wp_bind (wp_fileclose rfl (Multiset.zero_le _) (by simp) (Or.inl hop) hfresh ?_)
      exact hself ▸ hnone
    | some page =>
      refine Logic.wp_bind (wp_pipeInit hne ?_ ?_)
      · exact Multiset.cons_swap wf rf 0
      · rw [← hnews]
        exact hq rf wf

/-! ## New inodes -/

section Create
variable {x y : Pointer} {s dp : Slot} {i j n : Nat} {type : FileType} {major : Int}
  {F : Multiset Pointer}

theorem wp_createDots {Q : Unit → Hold P → Prop} (hl : l.inodes = x ::ₘ y ::ₘ F)
    (hx : x.stage = .locked) (hy : y.stage = .locked) (hq : Q () l) :
    (discipline g P ninodes).wp p (createDots x.slot y.slot i j) l Q := by
  have hl' : l.inodes = y ::ₘ x ::ₘ F := by rw [hl, Multiset.cons_swap]
  unfold createDots
  refine Logic.wp_bind (wp_incNlink hl hx ?_)
  refine Logic.wp_bind (wp_dirlink hl' hy fun r => ?_)
  refine Logic.wp_ite (fun _ => ?_) fun _ => wp_panicWith
  refine Logic.wp_bind (wp_dirlink hl' hy fun r => ?_)
  exact Logic.wp_ite (fun _ => hq) fun _ => wp_panicWith

theorem wp_createNew {Q : Slot → Hold P → Prop} {name : Name} (hop : l.inOp)
    (hfresh : l.fresh = none) (hl : l.inodes = ⟨dp, j, none, .locked⟩ ::ₘ F)
    (hq : ∀ s i, Q s { l with inodes := ⟨s, i, none, .locked⟩ ::ₘ F }) :
    (discipline g P ninodes).wp p (createNew n dp name type major) l Q := by
  unfold createNew
  refine Logic.wp_bind (wp_ialloc hop hfresh fun s i => ?_)
  refine Logic.wp_bind (wp_ilock_fresh (x := ⟨s, i, none, .free⟩) rfl rfl rfl ?_)
  refine Logic.wp_bind (wp_initInode (x := ⟨s, i, none, .locked⟩) rfl rfl ?_)
  refine Logic.wp_bind (wp_readInode fun r => Logic.wp_bind (wp_readInode fun r' => ?_))
  obtain ⟨dinum, -⟩ := r
  obtain ⟨inum, -⟩ := r'
  have hswap : (⟨s, i, none, .locked⟩ : Pointer) ::ₘ l.inodes =
      ⟨dp, j, none, .locked⟩ ::ₘ ⟨s, i, none, .locked⟩ ::ₘ F := by rw [hl, Multiset.cons_swap]
  have hrest : (discipline g P ninodes).wp p
      (dirlink dp name inum >>= fun linked =>
        if linked then iunlockput dp >>= fun _ => pure s else panicWith .createDirlink)
      { l with inodes := ⟨s, i, none, .locked⟩ ::ₘ l.inodes, fresh := none } Q := by
    refine Logic.wp_bind (wp_dirlink (x := ⟨dp, j, none, .locked⟩) hswap rfl fun r => ?_)
    refine Logic.wp_ite (fun _ => ?_) fun _ => wp_panicWith
    refine Logic.wp_bind (wp_iunlockput hswap ?_)
    rw [← hfresh]
    exact hq s i
  refine Logic.wp_bind (Logic.wp_when (fun _ => ?_) fun _ => hrest)
  exact wp_createDots (x := ⟨dp, j, none, .locked⟩) (y := ⟨s, i, none, .locked⟩) hswap rfl rfl hrest

theorem wp_create {Q : Option Slot → Hold P → Prop} {path : List Char} (hop : l.inOp)
    (hfresh : l.fresh = none) (hnone : Q none l)
    (hq : ∀ s i, Q (some s) { l with inodes := ⟨s, i, none, .locked⟩ ::ₘ l.inodes }) :
    (discipline g P ninodes).wp p (create n path type major) l Q := by
  unfold create
  refine Logic.wp_bind (wp_namex hnone fun dp j name => ?_)
  refine Logic.wp_bind (wp_ilock (x := ⟨dp, j, none, .free⟩) rfl rfl ?_)
  refine Logic.wp_bind (wp_dirlookup ?_ fun slot s i => ?_)
  · exact Logic.wp_bind (wp_createNew hop hfresh rfl hq)
  · refine Logic.wp_bind (wp_iunlockput (Multiset.cons_swap _ _ _) ?_)
    refine Logic.wp_bind (wp_ilock (x := ⟨s, i, none, .free⟩) rfl rfl ?_)
    refine Logic.wp_bind (wp_readInode fun r => ?_)
    obtain ⟨-, y⟩ := r
    refine Logic.wp_ite (fun _ => hq s i) fun _ => ?_
    exact Logic.wp_bind (wp_iunlockput rfl hnone)

end Create

/-! ## System calls on names -/

section Names
variable {t : Table} {c : Option Slot} {s dp : Slot} {i j : Nat} {path : List Char} {r : Int}

/-- A call within an operation, with pointers `I`. -/
abbrev Hold.within (t : Table) (c : Option Slot) (I : Multiset Pointer) : Hold P :=
  { Hold.start t c with inOp := true, inodes := I }

omit [Fintype P] [DecidableEq P] in
theorem done_start : Done r (Hold.start t c : Hold P) :=
  ⟨rfl, rfl, rfl, rfl, rfl, rfl, fun _ => rfl, fun _ => ⟨rfl, rfl, rfl⟩⟩

theorem wp_endOp_done :
    (discipline g P ninodes).wp p (endOp >>= fun _ => pure r) (.within t c 0) Done :=
  Logic.wp_bind (wp_endOp rfl rfl done_start)

theorem wp_iunlockput_done :
    (discipline g P ninodes).wp p (iunlockput s >>= fun _ => endOp >>= fun _ => pure r)
      (.within t c (⟨s, i, none, .locked⟩ ::ₘ 0)) Done :=
  Logic.wp_bind (wp_iunlockput (F := 0) rfl wp_endOp_done)

theorem wp_linkBad : (discipline g P ninodes).wp p (linkBad s)
    (.within t c (⟨s, i, none, .free⟩ ::ₘ 0)) Done := by
  unfold linkBad
  refine Logic.wp_bind (wp_ilock (x := ⟨s, i, none, .free⟩) (F := 0) rfl rfl ?_)
  refine Logic.wp_bind (wp_decNlink (x := ⟨s, i, none, .locked⟩) (F := 0) rfl rfl ?_)
  exact wp_iunlockput_done

theorem wp_linkCounted {new : List Char} : (discipline g P ninodes).wp p (linkCounted s j new)
    (.within t c (⟨s, i, none, .free⟩ ::ₘ 0)) Done := by
  unfold linkCounted
  refine Logic.wp_bind (wp_namex wp_linkBad fun dp k name => ?_)
  refine Logic.wp_bind (wp_ilock (x := ⟨dp, k, none, .free⟩) (F := ⟨s, i, none, .free⟩ ::ₘ 0)
    rfl rfl ?_)
  refine Logic.wp_bind (wp_dirlink (x := ⟨dp, k, none, .locked⟩) (F := ⟨s, i, none, .free⟩ ::ₘ 0)
    rfl rfl fun r => ?_)
  refine Logic.wp_bind (wp_iunlockput (F := ⟨s, i, none, .free⟩ ::ₘ 0) rfl ?_)
  refine Logic.wp_ite (fun _ => ?_) fun _ => wp_linkBad
  exact Logic.wp_bind (wp_iput (F := 0) rfl wp_endOp_done)

theorem wp_sysLink {old new : List Char} :
    (discipline g P ninodes).wp p (sysLink old new) (.start t c) Done := by
  unfold sysLink
  refine Logic.wp_bind (wp_beginOp rfl ?_)
  refine Logic.wp_bind (wp_namex wp_endOp_done fun s i _ => ?_)
  refine Logic.wp_bind (wp_ilock (x := ⟨s, i, none, .free⟩) (F := 0) rfl rfl ?_)
  refine Logic.wp_bind (wp_readInode fun r => ?_)
  obtain ⟨inum, x⟩ := r
  refine Logic.wp_ite (fun _ => wp_iunlockput_done) fun _ => ?_
  refine Logic.wp_bind (wp_incNlink (x := ⟨s, i, none, .locked⟩) (F := 0) rfl rfl ?_)
  refine Logic.wp_bind (wp_iunlock (x := ⟨s, i, none, .locked⟩) (F := 0) rfl rfl ?_)
  exact wp_linkCounted

theorem wp_unlinkEntry {slot : Nat} {isDir : Bool} :
    (discipline g P ninodes).wp p (unlinkEntry dp slot s isDir)
      (.within t c (⟨dp, j, none, .locked⟩ ::ₘ ⟨s, i, none, .locked⟩ ::ₘ 0)) Done := by
  unfold unlinkEntry
  refine Logic.wp_bind (wp_writei (x := ⟨dp, j, none, .locked⟩) (F := ⟨s, i, none, .locked⟩ ::ₘ 0)
    rfl rfl fun r => ?_)
  refine Logic.wp_ite (fun _ => ?_) fun _ => wp_panicWith
  have hrest : (discipline g P ninodes).wp p
      (iunlockput dp >>= fun _ => decNlink s >>= fun _ => iunlockput s >>= fun _ =>
        endOp >>= fun _ => pure 0)
      (.within t c (⟨dp, j, none, .locked⟩ ::ₘ ⟨s, i, none, .locked⟩ ::ₘ 0)) Done := by
    refine Logic.wp_bind (wp_iunlockput (F := ⟨s, i, none, .locked⟩ ::ₘ 0) rfl ?_)
    refine Logic.wp_bind (wp_decNlink (x := ⟨s, i, none, .locked⟩) (F := 0) rfl rfl ?_)
    exact wp_iunlockput_done
  refine Logic.wp_bind (Logic.wp_when (fun _ => ?_) fun _ => hrest)
  exact wp_decNlink (x := ⟨dp, j, none, .locked⟩) (F := ⟨s, i, none, .locked⟩ ::ₘ 0) rfl rfl hrest

theorem wp_unlinkIn {name : Name} : (discipline g P ninodes).wp p (unlinkIn dp name)
    (.within t c (⟨dp, j, none, .locked⟩ ::ₘ 0)) Done := by
  unfold unlinkIn
  refine Logic.wp_bind (wp_dirlookup wp_iunlockput_done fun slot s i => ?_)
  refine Logic.wp_bind (wp_ilock (x := ⟨s, i, none, .free⟩) (F := ⟨dp, j, none, .locked⟩ ::ₘ 0)
    rfl rfl ?_)
  refine Logic.wp_bind (wp_readInode fun r => ?_)
  obtain ⟨-, y⟩ := r
  refine Logic.wp_ite (fun _ => wp_panicWith) fun _ => ?_
  have hrest : ∀ removable : Bool, (discipline g P ninodes).wp p
      (if removable then unlinkEntry dp slot s (decide y.IsDir)
        else iunlockput s >>= fun _ => unlinkBad dp)
      (.within t c (⟨s, i, none, .locked⟩ ::ₘ ⟨dp, j, none, .locked⟩ ::ₘ 0)) Done := by
    intro removable
    refine Logic.wp_ite (fun _ => ?_) fun _ => ?_
    · rw [Multiset.cons_swap]
      exact wp_unlinkEntry
    · exact Logic.wp_bind (wp_iunlockput (F := ⟨dp, j, none, .locked⟩ ::ₘ 0) rfl
        wp_iunlockput_done)
  refine Logic.wp_ite (fun _ => ?_) fun _ => ?_
  · exact Logic.wp_bind (wp_isdirempty hrest)
  · exact hrest true

theorem wp_sysUnlink : (discipline g P ninodes).wp p (sysUnlink path) (.start t c) Done := by
  unfold sysUnlink
  refine Logic.wp_bind (wp_beginOp rfl ?_)
  refine Logic.wp_bind (wp_namex wp_endOp_done fun dp j name => ?_)
  refine Logic.wp_bind (wp_ilock (x := ⟨dp, j, none, .free⟩) (F := 0) rfl rfl ?_)
  exact Logic.wp_ite (fun _ => wp_iunlockput_done) fun _ => wp_unlinkIn

theorem wp_openLocked {omode : Nat} : (discipline g P ninodes).wp p (openLocked s omode)
    (.within t c (⟨s, i, none, .locked⟩ ::ₘ 0)) Done := by
  unfold openLocked
  refine Logic.wp_bind (wp_readInode fun r => ?_)
  obtain ⟨-, x⟩ := r
  refine Logic.wp_ite (fun _ => wp_iunlockput_done) fun _ => ?_
  refine Logic.wp_bind (wp_filealloc wp_iunlockput_done fun f _ => ?_)
  refine Logic.wp_bind (wp_fdalloc (F := 0) rfl rfl rfl ?_ fun fd hfd => ?_)
  · refine Logic.wp_bind (wp_fileclose (F := 0) (N := 0) rfl (Multiset.zero_le _) (by simp)
      (Or.inr (by simp)) rfl ?_)
    exact wp_iunlockput_done
  · refine Logic.wp_bind (wp_setFile fd (F := 0) (N := 0) rfl (by simp) (by simp)
      (Multiset.zero_le _) (by simp) rfl ?_)
    have hrest : (discipline g P ninodes).wp p
        (iunlock s >>= fun _ => endOp >>= fun _ => pure (fd.val : Int))
        { (Hold.within t c (⟨s, i, some fd, .locked⟩ ::ₘ 0) : Hold P) with
          own := ⟨true, update t fd (some f), none, t, false, c, none⟩ } Done := by
      refine Logic.wp_bind (wp_iunlock_leave (F := 0) rfl ?_)
      refine Logic.wp_bind (wp_endOp rfl rfl ?_)
      exact ⟨rfl, rfl, rfl, rfl, rfl, rfl, fun _ => rfl, fun h => by omega⟩
    refine Logic.wp_bind (Logic.wp_when (fun _ => ?_) fun _ => hrest)
    exact wp_itrunc (x := ⟨s, i, some fd, .locked⟩) (F := 0) rfl rfl hrest

theorem wp_sysOpen {n omode : Nat} :
    (discipline g P ninodes).wp p (sysOpen n path omode) (.start t c) Done := by
  unfold sysOpen
  refine Logic.wp_bind (wp_beginOp rfl ?_)
  refine Logic.wp_ite (fun _ => ?_) fun _ => ?_
  · exact Logic.wp_bind (wp_create rfl rfl wp_endOp_done fun s i => wp_openLocked)
  · refine Logic.wp_bind (wp_namex wp_endOp_done fun s i _ => ?_)
    refine Logic.wp_bind (wp_ilock (x := ⟨s, i, none, .free⟩) (F := 0) rfl rfl ?_)
    refine Logic.wp_bind (wp_readInode fun r => ?_)
    obtain ⟨-, x⟩ := r
    exact Logic.wp_ite (fun _ => wp_iunlockput_done) fun _ => wp_openLocked

theorem wp_makeNode {n : Nat} {path : Option (List Char)} {type : FileType} {major : Int} :
    (discipline g P ninodes).wp p (makeNode n path type major) (.start t c) Done := by
  unfold makeNode
  refine Logic.wp_bind (wp_beginOp rfl ?_)
  cases path with
  | none => exact wp_endOp_done
  | some path =>
    exact Logic.wp_bind (wp_create rfl rfl wp_endOp_done fun s i => wp_iunlockput_done)

theorem wp_sysChdir {path : Option (List Char)} :
    (discipline g P ninodes).wp p (sysChdir path) (.start t c) Done := by
  unfold sysChdir
  refine Logic.wp_bind (wp_beginOp rfl ?_)
  cases path with
  | none => exact wp_endOp_done
  | some path =>
    show (discipline g P ninodes).wp p (chdirTo path) _ _
    unfold chdirTo
    refine Logic.wp_bind (wp_namex wp_endOp_done fun s i _ => ?_)
    refine Logic.wp_bind (wp_ilock (x := ⟨s, i, none, .free⟩) (F := 0) rfl rfl ?_)
    refine Logic.wp_bind (wp_readInode fun r => ?_)
    obtain ⟨-, x⟩ := r
    refine Logic.wp_ite (fun _ => wp_iunlockput_done) fun _ => ?_
    refine Logic.wp_bind (wp_iunlock (x := ⟨s, i, none, .locked⟩) (F := 0) rfl rfl ?_)
    refine Logic.wp_bind (wp_takeCwd rfl fun old k => ?_)
    refine Logic.wp_bind (wp_iput (F := ⟨s, i, none, .free⟩ ::ₘ 0) rfl ?_)
    refine Logic.wp_bind (wp_endOp rfl rfl ?_)
    exact Logic.wp_bind (wp_setCwd (F := 0) rfl rfl rfl done_start)

theorem wp_sysExec {loaded started : Bool} :
    (discipline g P ninodes).wp p (sysExec path loaded started) (.start t c) Done := by
  unfold sysExec
  refine Logic.wp_bind (wp_beginOp rfl ?_)
  refine Logic.wp_bind (wp_namex wp_endOp_done fun s i _ => ?_)
  refine Logic.wp_bind (wp_ilock (x := ⟨s, i, none, .free⟩) (F := 0) rfl rfl ?_)
  exact wp_iunlockput_done

end Names

/-! ## System calls on descriptors -/

section Descriptors
variable {t : Table} {c : Option Slot} {s : Slot} {i n : Nat} {fd : Fd} {f : FileId} {fault : Bool}

omit [Fintype P] [DecidableEq P] in
theorem done_table {r : Int} (hr : r ≠ -1) {t' : Table} {b : Bool} :
    Done r (⟨⟨true, t', none, t, b, c, none⟩, false, none, 0, 0, 0, 0⟩ : Hold P) :=
  ⟨rfl, rfl, rfl, rfl, rfl, rfl, fun _ => rfl, fun h => absurd h hr⟩

theorem wp_sysClose : (discipline g P ninodes).wp p (sysClose n) (.start t c) Done := by
  unfold sysClose
  refine Logic.wp_bind (wp_argfd rfl rfl done_start fun fd f _ hfd => ?_)
  refine Logic.wp_bind (wp_clearFd rfl rfl hfd (by simp) ?_)
  refine Logic.wp_bind (wp_fileclose (F := 0) (N := 0) rfl (Multiset.zero_le _) (by simp)
    (Or.inl rfl) rfl ?_)
  exact done_table (by decide)

theorem wp_sysDup : (discipline g P ninodes).wp p (sysDup n) (.start t c) Done := by
  unfold sysDup
  refine Logic.wp_bind (wp_argfd rfl rfl done_start fun fd f _ hfd => ?_)
  refine Logic.wp_bind (wp_fdalloc_pend rfl rfl done_start fun fd' _ => ?_)
  refine Logic.wp_bind (wp_filedup rfl rfl hfd rfl ?_)
  exact done_table (by omega)

theorem wp_filewriteFrom {a : Chunk} {rest : List Chunk} :
    (discipline g P ninodes).wp p (filewriteFrom f s (a :: rest))
      { Hold.start t c with inodes := ⟨s, i, some fd, .free⟩ ::ₘ 0 } Done := by
  induction rest generalizing a with
  | nil =>
    unfold filewriteFrom
    refine Logic.wp_bind (wp_beginOp rfl ?_)
    refine Logic.wp_bind (wp_ilock (x := ⟨s, i, some fd, .free⟩) (F := 0) rfl rfl ?_)
    refine Logic.wp_bind (wp_writeFile (x := ⟨s, i, some fd, .locked⟩) (F := 0) rfl rfl fun r => ?_)
    refine Logic.wp_bind (wp_iunlock_leave (F := 0) rfl ?_)
    refine Logic.wp_bind (wp_endOp rfl rfl ?_)
    exact Logic.wp_ite (fun _ => done_start) fun _ => done_start
  | cons b rest ih =>
    unfold filewriteFrom
    refine Logic.wp_bind (wp_beginOp rfl ?_)
    refine Logic.wp_bind (wp_ilock (x := ⟨s, i, some fd, .free⟩) (F := 0) rfl rfl ?_)
    refine Logic.wp_bind (wp_writeFile (x := ⟨s, i, some fd, .locked⟩) (F := 0) rfl rfl fun r => ?_)
    by_cases hr : r = a.count
    · refine Logic.wp_bind (wp_iunlock (x := ⟨s, i, some fd, .locked⟩) (F := 0) rfl rfl ?_)
      refine Logic.wp_bind (wp_endOp rfl rfl ?_)
      exact Logic.wp_ite (fun _ => ih) fun h => absurd hr h
    · refine Logic.wp_bind (wp_iunlock_leave (F := 0) rfl ?_)
      refine Logic.wp_bind (wp_endOp rfl rfl ?_)
      exact Logic.wp_ite (fun h => absurd h hr) fun _ => done_start

theorem wp_allowed {b : Bool} {m : K P Int} (hm : b = true → (discipline g P ninodes).wp p m l Done)
    (hl : b = false → l = .start t c) :
    (discipline g P ninodes).wp p (if b = false then pure (-1) else m) l Done := by
  refine Logic.wp_ite (fun hb => ?_) fun hb => hm (by simpa using hb)
  rw [hl hb]
  exact done_start

theorem wp_sysWrite {chunks : List Chunk} :
    (discipline g P ninodes).wp p (sysWrite n chunks) (.start t c) Done := by
  unfold sysWrite
  refine Logic.wp_bind (wp_argfd_use rfl rfl done_start fun fd f ff => ?_)
  by_cases huse : ff.writable = true ∧ ff.type = .inode ∧ chunks ≠ []
  · obtain ⟨hw, ht, hne⟩ := huse
    obtain ⟨a, rest, rfl⟩ := List.exists_cons_of_ne_nil hne
    refine Or.inr ⟨Or.inl ht, fun i => wp_allowed (t := t) (c := c) (fun _ => ?_) (by simp [hw])⟩
    simp only [ht]
    exact wp_filewriteFrom
  · refine Or.inl (wp_allowed (fun hw => ?_) fun _ => rfl)
    cases ht : ff.type with
    | none => exact wp_panicWith
    | pipe => exact done_start
    | device => exact done_start
    | inode =>
      obtain rfl : chunks = [] := by simpa [hw, ht] using huse
      exact done_start

theorem wp_readFrom {m : Nat} : (discipline g P ninodes).wp p (readFrom f s m fault)
      { Hold.start t c with inodes := ⟨s, i, some fd, .free⟩ ::ₘ 0 } Done := by
  unfold readFrom
  refine Logic.wp_bind (wp_ilock (x := ⟨s, i, some fd, .free⟩) (F := 0) rfl rfl ?_)
  refine Logic.wp_bind (wp_readFile fun r => ?_)
  exact Logic.wp_bind (wp_iunlock_leave (F := 0) rfl done_start)

theorem wp_sysRead {m : Nat} :
    (discipline g P ninodes).wp p (sysRead n m fault) (.start t c) Done := by
  unfold sysRead
  refine Logic.wp_bind (wp_argfd_use rfl rfl done_start fun fd f ff => ?_)
  by_cases huse : ff.readable = true ∧ ff.type = .inode
  · obtain ⟨hr, ht⟩ := huse
    refine Or.inr ⟨Or.inl ht, fun i => wp_allowed (t := t) (c := c) (fun _ => ?_) (by simp [hr])⟩
    simp only [ht]
    exact wp_readFrom
  · refine Or.inl (wp_allowed (fun hr => ?_) fun _ => rfl)
    cases ht : ff.type with
    | none => exact wp_panicWith
    | pipe => exact done_start
    | device => exact done_start
    | inode => exact absurd ⟨hr, ht⟩ huse

theorem wp_statInode : (discipline g P ninodes).wp p (statInode s fault)
    { Hold.start t c with inodes := ⟨s, i, some fd, .free⟩ ::ₘ 0 } Done := by
  unfold statInode
  refine Logic.wp_bind (wp_ilock (x := ⟨s, i, some fd, .free⟩) (F := 0) rfl rfl ?_)
  refine Logic.wp_bind (wp_readInode fun r => ?_)
  exact Logic.wp_bind (wp_iunlock_leave (F := 0) rfl done_start)

theorem wp_sysFstat : (discipline g P ninodes).wp p (sysFstat n fault) (.start t c) Done := by
  unfold sysFstat
  refine Logic.wp_bind (wp_argfd_use rfl rfl done_start fun fd f ff => ?_)
  cases ht : ff.type with
  | none => exact Or.inl (by simp only [ht]; exact done_start)
  | pipe => exact Or.inl (by simp only [ht]; exact done_start)
  | inode => exact Or.inr ⟨Or.inl rfl, fun i => by simp only [ht]; exact wp_statInode⟩
  | device => exact Or.inr ⟨Or.inr rfl, fun i => by simp only [ht]; exact wp_statInode⟩

theorem wp_pipeBad {rf wf : FileId} {t' : Table} {F : Multiset FileId} (ht : t' = t)
    (hF : F = rf ::ₘ wf ::ₘ 0) : (discipline g P ninodes).wp p (pipeBad rf wf)
      ⟨⟨true, t', none, t, false, c, none⟩, false, none, 0, F, 0, 0⟩ Done := by
  subst ht hF
  unfold pipeBad
  refine Logic.wp_bind (wp_fileclose (F := wf ::ₘ 0) (N := 0) rfl (Multiset.zero_le _) (by simp)
    (Or.inl rfl) rfl ?_)
  exact Logic.wp_bind (wp_fileclose (F := 0) (N := 0) rfl (Multiset.zero_le _) (by simp)
    (Or.inl rfl) rfl done_start)

theorem wp_sysPipe {page : Option Nat} {copied : Bool} :
    (discipline g P ninodes).wp p (sysPipe page copied) (.start t c) Done := by
  unfold sysPipe
  refine Logic.wp_bind (wp_pipealloc rfl rfl rfl done_start fun rf wf => ?_)
  refine Logic.wp_bind (wp_fdalloc (F := wf ::ₘ 0) rfl rfl rfl (wp_pipeBad rfl rfl) fun a ha => ?_)
  have ha : t a = none := ha
  refine Logic.wp_bind (wp_fdalloc (F := 0) rfl rfl rfl ?_ fun b hb => ?_)
  · refine Logic.wp_bind (wp_clearFd (f := rf) rfl rfl (by simp) (by simp) ?_)
    refine wp_pipeBad ?_ rfl
    rw [update_idem, ← ha, update_eq_self]
  · have hb : update t a (some rf) b = none := hb
    have hne : b ≠ a := by
      rintro rfl
      simp at hb
    rw [update_of_ne hne] at hb
    refine Logic.wp_ite (fun _ => done_table (by decide)) fun _ => ?_
    refine Logic.wp_bind (wp_clearFd (f := rf) rfl rfl (by simp [hne.symm]) (by simp) ?_)
    refine Logic.wp_bind (wp_clearFd (f := wf) rfl rfl (by simp [hne]) (by simp) ?_)
    refine wp_pipeBad (funext fun e => ?_) (Multiset.cons_swap wf rf 0)
    simp only [update_apply]
    grind

end Descriptors

/-! ## Processes -/

section Processes
variable {t : Table} {c : Option Slot} {q : P} {Q : Unit → Hold P → Prop}

theorem wp_forkFds {m : Nat} (k : Nat) (hm : m + k = NOFILE)
    (hact : l.own.active) (hpend : l.own.pend = none) (hnews : l.news = 0)
    (hchild : l.own.child = some (q, m))
    (hq : ∀ b, Q () { l with own := { l.own with gave := b, child := some (q, NOFILE) } }) :
    (discipline g P ninodes).wp p (forkFds q ((List.finRange NOFILE).drop m)) l Q := by
  induction k generalizing l m with
  | zero =>
    obtain rfl : m = NOFILE := hm
    have hself : { l with own := { l.own with gave := l.own.gave, child := some (q, NOFILE) } } = l := by
      rw [← hchild]
    rw [List.drop_eq_nil_of_le (by simp)]
    exact hself ▸ hq l.own.gave
  | succ k ih =>
    have hlt : m < (List.finRange NOFILE).length := by
      rw [List.length_finRange]
      omega
    rw [List.drop_eq_getElem_cons hlt, List.getElem_finRange]
    unfold forkFds
    refine Logic.wp_bind (wp_forkFd hact hpend hnews hchild ?_)
    exact ih (m := m + 1) (by omega) hact hpend hnews rfl hq

theorem wp_sysFork {child : Option P} {memory : Bool} :
    (discipline g P ninodes).wp p (sysFork child memory) (.start t c) Done := by
  unfold sysFork
  cases child with
  | none => exact done_start
  | some q =>
    refine Logic.wp_bind (wp_allocproc rfl ?_)
    refine Logic.wp_ite (fun _ => ?_) fun _ => ?_
    · refine Logic.wp_bind (wp_forkFds (m := 0) NOFILE (by simp) rfl rfl rfl rfl fun b => ?_)
      refine Logic.wp_bind (wp_forkCwd rfl rfl ?_)
      refine Logic.wp_bind (wp_forkRun rfl rfl ?_)
      exact done_table (by decide)
    · exact Logic.wp_bind (wp_freeproc rfl rfl done_start)

theorem wp_exitFds (fds : List Fd) (hact : l.own.active)
    (hpend : l.own.pend = none) (hinodes : l.inodes = 0) (hop : l.inOp = false)
    (hfresh : l.fresh = none) (hnews : l.news = 0) (hq : ∀ t : Table, (∀ fd ∈ fds, t fd = none) →
      (∀ fd, l.own.table fd = none → t fd = none) →
      Q () { l with own := { l.own with table := t, pend := none } }) :
    (discipline g P ninodes).wp p (exitFds fds) l Q := by
  induction fds generalizing l with
  | nil =>
    have hself : { l with own := { l.own with pend := none } } = l := by rw [← hpend]
    exact hself ▸ hq l.own.table (by simp) fun _ h => h
  | cons fd rest ih =>
    unfold exitFds
    refine Logic.wp_bind (wp_argfd_exit hact hpend hinodes (fun hnone => ?_) fun f ff => ?_)
    · refine ih hact hpend hinodes hop hfresh hnews fun t ht hkeep => hq t (fun e he => ?_) hkeep
      rcases List.mem_cons.mp he with rfl | he
      · exact hkeep e hnone
      · exact ht e he
    · refine Logic.wp_bind (wp_fileclose rfl le_rfl (by simp [hnews]) (Or.inl hop) hfresh ?_)
      refine Logic.wp_bind (wp_clearFd_pend hact rfl ?_)
      refine ih hact rfl hinodes hop hfresh hnews fun t ht hkeep => ?_
      refine hq t (fun e he => ?_) fun e he => hkeep e ?_
      · rcases List.mem_cons.mp he with rfl | he
        · exact hkeep e (by simp)
        · exact ht e he
      · by_cases hef : e = fd
        · simp [hef]
        · simpa [hef] using he

theorem wp_sysExit : (discipline g P ninodes).wp p sysExit (.start t c) Done := by
  unfold sysExit
  refine Logic.wp_bind (wp_isInit fun r => ?_)
  refine Logic.wp_ite (fun _ => wp_panicWith) fun _ => ?_
  refine Logic.wp_bind (wp_exitFds _ rfl rfl rfl rfl rfl rfl fun t' ht _ => ?_)
  refine Logic.wp_bind (wp_beginOp rfl ?_)
  refine Logic.wp_bind (wp_takeCwd rfl fun s i => ?_)
  refine Logic.wp_bind (wp_iput (F := 0) rfl ?_)
  refine Logic.wp_bind (wp_endOp rfl rfl ?_)
  refine Logic.wp_bind (wp_exitProc rfl rfl (fun fd => ht fd (List.mem_finRange fd)) rfl rfl ?_)
  exact ⟨rfl, rfl, rfl, rfl, rfl, rfl, fun _ => rfl, fun h => by cases h⟩

theorem wp_sysWait : (discipline g P ninodes).wp p (sysWait q) (.start t c) Done := by
  unfold sysWait
  exact Logic.wp_bind (wp_reap done_start)

end Processes

/-! ## All calls -/

/-- Every call keeps the discipline. -/
theorem wp_prog (a : Call P) {t : Table} {c : Option Slot} :
    (discipline g P ninodes).wp p (a.prog ninodes) (.start t c) Done := by
  cases a with
  | mkdir path => exact wp_makeNode
  | mknod path major => exact wp_makeNode
  | «open» path omode => exact wp_sysOpen
  | link old new => exact wp_sysLink
  | unlink path => exact wp_sysUnlink
  | chdir path => exact wp_sysChdir
  | close fd => exact wp_sysClose
  | dup fd => exact wp_sysDup
  | read fd n fault => exact wp_sysRead
  | write fd chunks => exact wp_sysWrite
  | fstat fd fault => exact wp_sysFstat
  | pipe page copied => exact wp_sysPipe
  | fork child memory => exact wp_sysFork
  | exit => exact wp_sysExit
  | wait child => exact wp_sysWait
  | exec path loaded started => exact wp_sysExec

theorem calls_discipline : (discipline g P ninodes).Calls := by
  intro p a r w w' ls hi hd henter
  obtain ⟨t, c, hi'⟩ := Inv.enter hi hd henter
  exact ⟨_, hi', wp_prog a⟩

end Xv6.Namespace
