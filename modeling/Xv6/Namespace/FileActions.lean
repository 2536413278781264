import Xv6.Namespace.Actions

/-!
# What actions on descriptors, files, pipes and processes do to the holdings
-/

namespace Xv6.Namespace

open Xv6.Foundation Function

set_option autoImplicit false

variable {P : Type} [Fintype P] [DecidableEq P] {g : Prop} {ninodes : Nat} {p : P} {l : Hold P}
  {w : World P} {ls : P → Hold P} {f : FileId} {Q : Unit → Hold P → Prop} {fd : Fd}
  {F N : Multiset FileId} {T : Multiset PipeTask} {k : Kernel P} {page : Nat} {s : Slot} {e : File}
  {n : Nat}

/-! ## What a process knows about itself -/

section Tables
variable {ofile ofile' : P → Table} {own : P → Own P} {o : Own P}

omit [Fintype P] in
theorem tables_update (ho : o.active)
    (hof : ∀ q, q ≠ p → (own q).active = false → ofile' q = ofile q) :
    tables ofile' (update own p o) = update (tables ofile own) p o.table := by
  funext q
  by_cases hqp : q = p
  · subst hqp
    simp [tables, ho]
  · cases ha : (own q).active with
    | true => simp [tables, hqp, ha]
    | false => simp [tables, hqp, ha, hof q hqp ha]

omit [Fintype P] [DecidableEq P] in
theorem tables_active (hact : (own p).active) : tables ofile own p = (own p).table := by
  simp [tables, hact]

omit [Fintype P] in
theorem update_table (hact : (own p).active) :
    update (tables ofile own) p (own p).table = tables ofile own := by
  rw [← tables_active hact, update_eq_self]

omit [Fintype P] in
theorem tables_same (hact : (own p).active) (ho : o.active ∧ o.table = (own p).table) :
    tables ofile (update own p o) = tables ofile own := by
  rw [tables_update ho.1 fun _ _ _ => rfl, ho.2, update_table hact]

omit [Fintype P] in
theorem tables_setFd {fd : Fd} {a : Option FileId} (hact : (own p).active)
    (ho : o.active ∧ o.table = update (own p).table fd a) :
    tables ofile (update own p o) =
      update (tables ofile own) p (update (tables ofile own p) fd a) := by
  rw [tables_update ho.1 fun _ _ _ => rfl, ho.2, tables_active hact]

end Tables

namespace Procs
variable {state : P → ProcState P} {cwd cwd' : P → Option Slot} {ofile ofile' : P → Table}
  {start : P → Table} {gave : P → Bool} {own : P → Own P} {o : Own P} {q : P} {m : Nat}
  (h : Procs state cwd ofile start gave own)
include h

omit [Fintype P] in
theorem ofile_same (hact : (own p).active) (ho : o.ofile = (own p).ofile) :
    ofile = update ofile p o.ofile := by
  rw [ho, ← (h.active p hact).2.1, update_eq_self]

omit [Fintype P] in
theorem cwd_same (hact : (own p).active) (ho : o.cwd = (own p).cwd) :
    cwd = update cwd p o.cwd := by
  rw [ho, ← (h.active p hact).2.2.1, update_eq_self]

omit [Fintype P] in
theorem setOwn (hact : (own p).active) (hcwd : cwd' = update cwd p o.cwd)
    (hofile : ofile' = update ofile p o.ofile) (hstart : o.start = (own p).start)
    (hgave : o.gave = (own p).gave) (hchild : o.child = (own p).child)
    (hpend : ∀ x ∈ o.pend, o.table x.1 = none) :
    Procs state cwd' ofile' start gave (update own p o) := by
  subst hcwd hofile
  obtain ⟨hrun, -, -, hs, hg, -⟩ := h.active p hact
  refine ⟨fun q hq => ?_, fun q r m hc => ?_, fun q hq => ?_⟩
  · by_cases hqp : q = p
    · subst hqp
      rw [update_self, update_self, update_self]
      exact ⟨hrun, rfl, rfl, hs.trans hstart.symm, hg.trans hgave.symm, hpend⟩
    · simp only [update_of_ne hqp] at hq ⊢
      exact h.active q hq
  · have hc' : (own q).child = some (r, m) := by
      by_cases hqp : q = p
      · subst hqp
        simpa [hchild] using hc
      · simpa [hqp] using hc
    have hr := h.child q r m hc'
    have hrp : r ≠ p := by
      rintro rfl
      rw [hrun] at hr
      simp at hr
    simpa [hrp] using hr
  · have hqp : q ≠ p := by
      rintro rfl
      rw [hrun] at hq
      simp at hq
    simpa [hqp] using h.empty q hq

end Procs

theorem Inv.of_files {n : Notes P} {l' : Hold P} {t : P → Table} (hi : Inv g w ls)
    (hk : k.inode = w.kernel.inode ∧ k.disk = w.kernel.disk ∧
      k.outstanding = w.kernel.outstanding ∧ k.committed = w.kernel.committed)
    (hn : n.ptrs = w.notes.ptrs ∧ n.ops = w.notes.ops)
    (hl : l'.inodes = (ls p).inodes ∧ l'.inOp = (ls p).inOp ∧ l'.fresh = (ls p).fresh)
    (huses : ∀ s, uses k s = uses w.kernel s)
    (ht : tables k.ofile (update (fun q => (ls q).own) p l'.own) = t)
    (ftable : Ftable k.file t (gather (update (fun q => (ls q).files) p l'.files))
      (update (fun q => (ls q).news) p l'.news))
    (vias : Vias k.file t (gather fun q => (ls q).inodes))
    (pages : Pages k.file k.pipe (gather (update (fun q => (ls q).pages) p l'.pages)))
    (procs : Procs k.state k.cwd k.ofile n.start n.gave
      (update (fun q => (ls q).own) p l'.own)) :
    Inv g ⟨k, n⟩ (update ls p l') := by
  refine Inv.of_update ht ?_ ?_ ftable ?_ pages procs ?_
  · rw [hl.1, update_eq_self, hk.1, hn.1, funext huses]
    exact hi.itable
  · rw [hl.1, hl.2.2, update_eq_self, update_eq_self, hk.1, hk.2.1]
    exact hi.cache
  · rw [hl.1, update_eq_self]
    exact vias
  · rw [hl.2.1, hl.2.2, update_eq_self, update_eq_self, hk.2.2.1, hk.2.2.2, hn.2]
    exact hi.ops

/-! ## Working directories -/

theorem Inv.vias_pos {q : P} {x : Pointer} (hi : Inv g w ls)
    (hx : (q, x) ∈ gather fun q => (ls q).inodes) (hfd : x.fd ≠ none) :
    0 < opens w.kernel.file x.slot := by
  obtain ⟨fd, hfd⟩ := Option.ne_none_iff_exists'.mp hfd
  obtain ⟨f, -, hf⟩ := hi.vias q x fd hx hfd
  exact opens_pos hf

theorem uses_setCwd (k : Kernel P) (p : P) (o : Option Slot) (s : Slot) :
    uses (k.setCwd p o) s + (if k.cwd p = some s then 1 else 0) =
      uses k s + if o = some s then 1 else 0 := by
  have := cwds_update k.cwd p o s
  have hfile : opens (k.setCwd p o).file s = opens k.file s := rfl
  have hcwd : cwds (k.setCwd p o).cwd s = cwds (update k.cwd p o) s := rfl
  rw [uses, uses, hfile, hcwd]
  omega

theorem Inv.setCwd {o : Option Slot} {ptrs : P → List Slot} {I : Multiset Pointer}
    (hi : Inv g w ls) (hact : (ls p).own.active)
    (hit : Itable w.kernel.inode (uses (w.kernel.setCwd p o)) ptrs
      (gather (update (fun q => (ls q).inodes) p I)))
    (hc : Cache g w.kernel.inode w.kernel.disk
      (gather (update (fun q => (ls q).inodes) p I)) fun q => (ls q).fresh)
    (hv : Vias w.kernel.file (tables w.kernel.ofile fun q => (ls q).own)
      (gather (update (fun q => (ls q).inodes) p I))) :
    Inv g ⟨w.kernel.setCwd p o, { w.notes with ptrs := ptrs }⟩
      (update ls p { ls p with own := { (ls p).own with cwd := o }, inodes := I }) := by
  refine Inv.of_update (tables_same hact ⟨hact, rfl⟩) hit ?_ ?_ hv ?_
    (hi.procs.setOwn hact rfl (hi.procs.ofile_same hact rfl) rfl rfl rfl
      (hi.procs.active p hact).2.2.2.2.2) ?_
  · rw [update_eq_self]
    exact hc
  · rw [update_eq_self, update_eq_self]
    exact hi.ftable
  · rw [update_eq_self]
    exact hi.pages
  · rw [update_eq_self, update_eq_self]
    exact hi.ops

section
variable (hact : l.own.active)
include hact

theorem wp_takeCwd {Q : Slot → Hold P → Prop} (hq : ∀ s i, Q s { l with
      own := { l.own with cwd := none }, inodes := ⟨s, i, none, .free⟩ ::ₘ l.inodes }) :
    (discipline g P ninodes).wp p takeCwd l Q := by
  refine wp_exec (fun _ => trivial) ?_
  rintro w ls hi rfl s k hk
  simp only [Kernel.exec] at hk
  split at hk
  · rename_i s' hs
    obtain ⟨rfl, rfl⟩ := Outcome.ok.inj hk
    refine ⟨_, hi.setCwd hact (hi.itable.ofUse rfl ?_ (fun a ha => ?_) fun q z hz hfd => ?_)
      (hi.cache.gain rfl) (hi.vias.gain (by simp)), hq s' (w.kernel.inode s').inum⟩
    · have := uses_setCwd w.kernel p none s'
      rw [if_pos hs, if_neg (by simp)] at this
      omega
    · have := uses_setCwd w.kernel p none a
      rw [if_neg (by simpa [hs] using Ne.symm ha), if_neg (by simp)] at this
      omega
    · have hle : opens w.kernel.file z.slot ≤ uses (w.kernel.setCwd p none) z.slot :=
        Nat.le_add_left _ _
      exact Nat.lt_of_lt_of_le (hi.vias_pos hz hfd) hle
  · cases hk

theorem wp_setCwd {i : Nat} {F : Multiset Pointer} (hcwd : l.own.cwd = none) (hl' : l.inodes = ⟨s, i, none, .free⟩ ::ₘ F)
    (hq : Q () { l with own := { l.own with cwd := some s }, inodes := F }) :
    (discipline g P ninodes).wp p (setCwd s) l Q := by
  refine wp_exec (fun _ => trivial) ?_
  rintro w ls hi rfl _ k hk
  obtain ⟨-, rfl⟩ := Outcome.ok.inj hk
  have hnone : w.kernel.cwd p = none := (hi.procs.active p hact).2.2.1.trans hcwd
  refine ⟨_, hi.setCwd hact (hi.itable.toUse hl' ?_ fun a ha => ?_) (hi.cache.lose hl' rfl)
    (hi.vias.lose hl'), hq⟩
  · have := uses_setCwd w.kernel p (some s) s
    rw [if_neg (by simp [hnone]), if_pos rfl] at this
    omega
  · have := uses_setCwd w.kernel p (some s) a
    rw [if_neg (by simp [hnone]), if_neg (by simpa using Ne.symm ha)] at this
    omega

/-! ## Descriptors -/

omit hact in
theorem Inv.setTable {ofile : P → Table} {t : Table} {d : Option (Fd × FileId)}
    {F : Multiset FileId} (hi : Inv g w ls) (hact : (ls p).own.active)
    (hofile : ofile = update w.kernel.ofile p
      (Own.ofile { (ls p).own with table := t, pend := d }))
    (hpend : ∀ x ∈ d, t x.1 = none)
    (hkeep : ∀ x ∈ (ls p).inodes, ∀ fd, x.fd = some fd → t fd = (ls p).own.table fd)
    (hft : Ftable w.kernel.file
      (update (tables w.kernel.ofile fun q => (ls q).own) p t)
      (gather (update (fun q => (ls q).files) p F)) fun q => (ls q).news) :
    Inv g ⟨{ w.kernel with ofile := ofile }, w.notes⟩ (update ls p
      { ls p with own := { (ls p).own with table := t, pend := d }, files := F }) := by
  have hother : ∀ q, q ≠ p → ofile q = w.kernel.ofile q := fun q hq => by
    rw [hofile, update_of_ne hq]
  refine hi.of_files ⟨rfl, rfl, rfl, rfl⟩ ⟨rfl, rfl⟩ ⟨rfl, rfl, rfl⟩ (fun _ => rfl)
    (tables_update hact fun q hq _ => hother q hq) ?_ (hi.vias.congr fun q x fd a hx hfd ha hold => ?_)
    ?_ (hi.procs.setOwn hact (hi.procs.cwd_same hact rfl) hofile rfl rfl rfl hpend)
  · rw [update_eq_self]
    exact hft
  · refine ⟨?_, hold⟩
    by_cases hqp : q = p
    · subst hqp
      rw [update_self, ← ha, tables_active hact]
      exact hkeep x hx fd hfd
    · rw [update_of_ne hqp, ha]
  · rw [update_eq_self]
    exact hi.pages

omit hact in
theorem Inv.ofile_eq (hi : Inv g w ls) (hact : (ls p).own.active) (hpend : (ls p).own.pend = none) :
    w.kernel.ofile p = (ls p).own.table := by
  rw [(hi.procs.active p hact).2.1, Own.ofile, hpend]

omit hact in
theorem Table.free_eq_some {t : Table} (h : t.free = some fd) : t fd = none := by
  simpa using List.find?_some h

theorem wp_fdalloc {Q : Option Fd → Hold P → Prop} {F : Multiset FileId} (hpend : l.own.pend = none) (hl' : l.files = f ::ₘ F) (hnone : Q none l)
    (hq : ∀ fd, l.own.table fd = none → Q (some fd) { l with
      own := { l.own with table := update l.own.table fd (some f) }, files := F }) :
    (discipline g P ninodes).wp p (fdalloc f) l Q := by
  refine wp_exec (fun _ => trivial) ?_
  rintro w ls hi rfl r k hk
  have hof := hi.ofile_eq hact hpend
  have htab : tables w.kernel.ofile (fun q => (ls q).own) p = (ls p).own.table := tables_active hact
  simp only [Kernel.exec] at hk
  split at hk
  · rename_i fd hfree
    obtain ⟨rfl, rfl⟩ := Outcome.ok.inj hk
    have hfd : (ls p).own.table fd = none := hof ▸ Table.free_eq_some hfree
    have hft := hi.ftable.install hl' ((congrFun htab fd).trans hfd)
    rw [htab] at hft
    refine ⟨_, hi.setTable (d := (ls p).own.pend) hact ?_ (by simp [hpend])
      (fun x hx a ha => ?_) hft, hq fd hfd⟩
    · rw [hof, Own.ofile]
      simp [hpend]
    · obtain ⟨b, hb, -⟩ := hi.vias p x a (by simpa using hx) ha
      rw [htab] at hb
      rw [update_of_ne]
      rintro rfl
      rw [hfd] at hb
      cases hb
  · obtain ⟨rfl, rfl⟩ := Outcome.ok.inj hk
    exact ⟨_, hi.keep, hnone⟩

theorem wp_fdalloc_pend {Q : Option Fd → Hold P → Prop}
    (hpend : l.own.pend = none) (hnone : Q none l) (hq : ∀ fd, l.own.table fd = none →
      Q (some fd) { l with own := { l.own with pend := some (fd, f) } }) :
    (discipline g P ninodes).wp p (fdalloc f) l Q := by
  refine wp_exec (fun _ => trivial) ?_
  rintro w ls hi rfl r k hk
  have hof := hi.ofile_eq hact hpend
  simp only [Kernel.exec] at hk
  split at hk
  · rename_i fd hfree
    obtain ⟨rfl, rfl⟩ := Outcome.ok.inj hk
    have hfd : (ls p).own.table fd = none := hof ▸ Table.free_eq_some hfree
    refine ⟨_, hi.setTable (t := (ls p).own.table) (F := (ls p).files) hact ?_ (by simp [hfd])
      (fun _ _ _ _ => rfl) ?_, hq fd hfd⟩
    · rw [hof, Own.ofile]
    · rw [update_table hact, update_eq_self]
      exact hi.ftable
  · obtain ⟨rfl, rfl⟩ := Outcome.ok.inj hk
    exact ⟨_, hi.keep, hnone⟩

omit hact in
omit [Fintype P] [DecidableEq P] in
theorem argfd_eq_some {ff : File} (h : k.argfd p n = some (fd, f, ff)) :
    fd.val = n ∧ k.ofile p fd = some f ∧ ff = k.file f := by
  unfold Kernel.argfd at h
  split_ifs at h
  obtain ⟨a, ha, he⟩ := Option.map_eq_some_iff.mp h
  obtain ⟨rfl, rfl, rfl⟩ : _ ∧ _ ∧ _ := by simpa using he
  exact ⟨rfl, ha, rfl⟩

theorem wp_argfd {Q : Option (Fd × FileId × File) → Hold P → Prop}
    (hpend : l.own.pend = none) (hnone : Q none l)
    (hq : ∀ fd f ff, l.own.table fd = some f → Q (some (fd, f, ff)) l) :
    (discipline g P ninodes).wp p (argfd n) l Q := by
  refine wp_exec (fun _ => trivial) ?_
  rintro w ls hi rfl r k hk
  obtain ⟨rfl, rfl⟩ := Outcome.ok.inj hk
  refine ⟨ls p, ?_, ?_⟩
  · rw [update_eq_self]
    exact hi
  · cases hr : w.kernel.argfd p n with
    | none => exact hnone
    | some r =>
      obtain ⟨fd, f, ff⟩ := r
      have := (argfd_eq_some hr).2.1
      rw [hi.ofile_eq hact hpend] at this
      exact hq fd f ff this

theorem wp_argfd_use {Q : Option (Fd × FileId × File) → Hold P → Prop} (hpend : l.own.pend = none) (hnone : Q none l)
    (hq : ∀ fd f ff, Q (some (fd, f, ff)) l ∨ (ff.type = .inode ∨ ff.type = .device) ∧
      ∀ i, Q (some (fd, f, ff)) { l with inodes := ⟨ff.ip, i, some fd, .free⟩ ::ₘ l.inodes }) :
    (discipline g P ninodes).wp p (argfd n) l Q := by
  refine wp_exec (fun _ => trivial) ?_
  rintro w ls hi rfl r k hk
  obtain ⟨rfl, rfl⟩ := Outcome.ok.inj hk
  have hself : Inv g w (update ls p (ls p)) := by
    rw [update_eq_self]
    exact hi
  cases hr : w.kernel.argfd p n with
  | none => exact ⟨ls p, hself, hnone⟩
  | some r =>
    obtain ⟨fd, f, ff⟩ := r
    rcases hq fd f ff with hq | ⟨htype, hq⟩
    · exact ⟨ls p, hself, hq⟩
    · obtain ⟨-, hfd, rfl⟩ := argfd_eq_some hr
      have hold : (w.kernel.file f).Holds (w.kernel.file f).ip := ⟨htype, rfl⟩
      have hpos : 0 < uses w.kernel (w.kernel.file f).ip :=
        Nat.lt_of_lt_of_le (opens_pos hold) (Nat.le_add_left _ _)
      refine ⟨_, hi.of_inodes (hi.itable.useFile rfl hpos) ?_ (hi.vias.gain fun a ha => ?_)
        (hi.ops.fresh p), hq (w.kernel.inode (w.kernel.file f).ip).inum⟩
      · rw [update_eq_self]
        exact hi.cache.gain rfl
      · obtain rfl := Option.some.inj ha
        refine ⟨f, ?_, hold⟩
        rw [tables_active hact, ← hi.ofile_eq hact hpend, hfd]

/-- `exit` is to close the file of the descriptor, which stays set until then. -/
theorem wp_argfd_exit {Q : Option (Fd × FileId × File) → Hold P → Prop} (hpend : l.own.pend = none) (hl' : l.inodes = 0)
    (hnone : l.own.table fd = none → Q none l) (hq : ∀ f ff, Q (some (fd, f, ff)) { l with
      own := { l.own with table := update l.own.table fd none, pend := some (fd, f) },
      files := f ::ₘ l.files }) :
    (discipline g P ninodes).wp p (argfd fd.val) l Q := by
  refine wp_exec (fun _ => trivial) ?_
  rintro w ls hi rfl r k hk
  obtain ⟨rfl, rfl⟩ := Outcome.ok.inj hk
  have hof := hi.ofile_eq hact hpend
  cases hr : w.kernel.argfd p fd.val with
  | none =>
    refine ⟨ls p, ?_, hnone ?_⟩
    · rw [update_eq_self]
      exact hi
    · rw [← hof]
      simpa [Kernel.argfd] using hr
  | some r =>
    obtain ⟨fd', f, ff⟩ := r
    obtain ⟨hval, hfd, -⟩ := argfd_eq_some hr
    obtain rfl := Fin.ext hval
    rw [hof] at hfd
    have htab : tables w.kernel.ofile (fun q => (ls q).own) p = (ls p).own.table :=
      tables_active hact
    have hft := hi.ftable.uninstall ((congrFun htab fd').trans hfd)
    rw [htab] at hft
    refine ⟨_, hi.setTable hact ?_ (by simp) (by simp [hl']) hft, hq f ff⟩
    rw [Own.ofile]
    simp only [update_idem]
    rw [← hfd, update_eq_self, ← hof, update_eq_self]

theorem wp_clearFd (hpend : l.own.pend = none) (hfd : l.own.table fd = some f)
    (hfree : ∀ x ∈ l.inodes, x.fd ≠ some fd) (hq : Q () { l with
      own := { l.own with table := update l.own.table fd none },
      files := f ::ₘ l.files }) :
    (discipline g P ninodes).wp p (clearFd fd) l Q := by
  refine wp_exec (fun _ => trivial) ?_
  rintro w ls hi rfl r k hk
  obtain ⟨-, rfl⟩ := Outcome.ok.inj hk
  have hof := hi.ofile_eq hact hpend
  have htab : tables w.kernel.ofile (fun q => (ls q).own) p = (ls p).own.table := tables_active hact
  have hft := hi.ftable.uninstall ((congrFun htab fd).trans hfd)
  rw [htab] at hft
  refine ⟨_, hi.setTable (d := (ls p).own.pend) hact ?_ (by simp [hpend]) (fun x hx a ha => ?_) hft,
    hq⟩
  · rw [hof, Own.ofile]
    simp [hpend]
  · rw [update_of_ne]
    rintro rfl
    exact hfree x hx ha

theorem wp_clearFd_pend
    (hpend : l.own.pend = some (fd, f)) (hq : Q () { l with own := { l.own with pend := none } }) :
    (discipline g P ninodes).wp p (clearFd fd) l Q := by
  refine wp_exec (fun _ => trivial) ?_
  rintro w ls hi rfl r k hk
  obtain ⟨-, rfl⟩ := Outcome.ok.inj hk
  obtain ⟨-, hof, -, -, -, hnone⟩ := hi.procs.active p hact
  have hfd := hnone (fd, f) (by simp [hpend])
  refine ⟨_, hi.setTable (t := (ls p).own.table) (F := (ls p).files) hact ?_ (by simp)
    (fun _ _ _ _ => rfl) ?_, hq⟩
  · rw [hof, Own.ofile, Own.ofile, hpend]
    simp only [update_idem]
    rw [← hfd, update_eq_self]
  · rw [update_table hact, update_eq_self]
    exact hi.ftable

end

/-! ## Files -/

omit [DecidableEq P] in
theorem uses_setFile (h : e.Holds s ↔ (k.file f).Holds s) : uses (k.setFile f e) s = uses k s :=
  congrArg (cwds k.cwd s + ·) (opens_update_same h)

theorem Inv.setFile (hi : Inv g w ls) (hold : ∀ s, e.Holds s ↔ (w.kernel.file f).Holds s)
    (hend : ∀ page b, e.EndOf page b ↔ (w.kernel.file f).EndOf page b)
    (hft : Ftable (update w.kernel.file f e)
      (tables w.kernel.ofile fun q => (ls q).own)
      (gather (update (fun q => (ls q).files) p F))
      (update (fun q => (ls q).news) p N)) : Inv g ⟨w.kernel.setFile f e, w.notes⟩
      (update ls p { ls p with files := F, news := N }) := by
  refine hi.of_files ⟨rfl, rfl, rfl, rfl⟩ ⟨rfl, rfl⟩ ⟨rfl, rfl, rfl⟩
    (fun s => uses_setFile (hold s)) (tables_update_self ..) hft
    (hi.vias.congr fun q x fd a _ _ ha ho => ⟨ha, (holds_update (hold x.slot)).mpr ho⟩) ?_ ?_
  · rw [update_eq_self]
    exact hi.pages.congr fun page b => endFiles_update_same (hend page b)
  · rw [update_eq_self]
    exact hi.procs

theorem wp_filealloc {Q : Option FileId → Hold P → Prop} (hnone : Q none l)
    (hq : ∀ f, f ∉ l.news → Q (some f) { l with files := f ::ₘ l.files, news := f ::ₘ l.news }) :
    (discipline g P ninodes).wp p filealloc l Q := by
  refine wp_exec (fun _ => trivial) ?_
  rintro w ls hi rfl r k hk
  simp only [Kernel.exec] at hk
  split at hk
  · rename_i f hf
    obtain ⟨rfl, rfl⟩ := Outcome.ok.inj hk
    have hzero : (w.kernel.file f).ref = 0 := by simpa using List.find?_some hf
    refine ⟨_, hi.setFile (fun _ => Iff.rfl) (fun _ _ => Iff.rfl) (hi.ftable.alloc hzero),
      hq f fun hn => ?_⟩
    have := (hi.ftable.news p f hn).2.1
    omega
  · obtain ⟨rfl, rfl⟩ := Outcome.ok.inj hk
    exact ⟨_, hi.keep, hnone⟩

theorem Inv.not_new (hi : Inv g w ls) (hact : (ls p).own.active)
    (hfd : (ls p).own.table fd = some f) (hnews : (ls p).news = 0) (q : P) : f ∉ (ls q).news := by
  intro hq
  have hpos : 0 < (tables w.kernel.ofile (fun q => (ls q).own) p).slots f := by
    rw [tables_active hact]
    exact Table.slots_pos hfd
  obtain rfl := hi.ftable.news_unique hq (Or.inl hpos)
  simp [hnews] at hq

theorem wp_filedup {fd fd' : Fd} (hact : l.own.active)
    (hpend : l.own.pend = some (fd, f)) (hfd : l.own.table fd' = some f) (hnews : l.news = 0)
    (hq : Q () { l with own := { l.own with
      table := update l.own.table fd (some f), pend := none } }) :
    (discipline g P ninodes).wp p (filedup f) l Q := by
  refine wp_exec (fun _ => trivial) ?_
  rintro w ls hi rfl _ k hk
  simp only [Kernel.exec] at hk
  split_ifs at hk
  obtain ⟨-, rfl⟩ := Outcome.ok.inj hk
  have hnone := (hi.procs.active p hact).2.2.2.2.2 (fd, f) (by simp [hpend])
  have htab : tables w.kernel.ofile (fun q => (ls q).own) p = (ls p).own.table := tables_active hact
  have hfree := (congrFun htab fd).trans hnone
  refine ⟨_, ?_, hq⟩
  refine hi.of_files ⟨rfl, rfl, rfl, rfl⟩ ⟨rfl, rfl⟩ ⟨rfl, rfl, rfl⟩
    (fun s => uses_setFile Iff.rfl) (tables_setFd hact ⟨hact, rfl⟩) ?_
    (hi.vias.install hfree fun b s hold => ?_) ?_
    (hi.procs.setOwn hact (hi.procs.cwd_same hact rfl) (hi.procs.ofile_same hact ?_) rfl rfl rfl
      (by simp))
  · rw [update_eq_self, update_eq_self]
    exact hi.ftable.dup hfree (hi.not_new hact hfd hnews)
  · exact (holds_update (by rfl)).mpr hold
  · rw [update_eq_self]
    exact hi.pages.congr fun page b => endFiles_update_same Iff.rfl
  · simp [Own.ofile, hpend]

/-- Nobody uses an inode through a file that is closed for the last time. -/
theorem Inv.vias_drop (hi : Inv g w ls) (hf : f ∈ (ls p).files) (hone : (w.kernel.file f).ref = 1) :
    Vias (update w.kernel.file f e) (tables w.kernel.ofile fun q => (ls q).own)
      (gather fun q => (ls q).inodes) := by
  refine hi.vias.congr fun q x fd a _ _ ha hold => ⟨ha, ?_⟩
  have hne : a ≠ f := by
    rintro rfl
    have := hi.ftable.two_le ha hf
    omega
  rwa [update_of_ne hne]

omit [DecidableEq P] in
theorem uses_setFile_add (k : Kernel P) (f : FileId) (e : File) (s : Slot) :
    uses (k.setFile f e) s + (if (k.file f).Holds s then 1 else 0) =
      uses k s + if e.Holds s then 1 else 0 := by
  have := opens_update k.file f e s
  have hfile : opens (k.setFile f e).file s = opens (update k.file f e) s := rfl
  have hcwd : cwds (k.setFile f e).cwd s = cwds k.cwd s := rfl
  rw [uses, uses, hfile, hcwd]
  omega

theorem Inv.dropInode (hi : Inv g w ls) (hf : f ∈ (ls p).files) (hone : (w.kernel.file f).ref = 1)
    (htype : (w.kernel.file f).type = .inode ∨ (w.kernel.file f).type = .device)
    (he : e.type = .none)
    (hft : Ftable (update w.kernel.file f e) (tables w.kernel.ofile fun q => (ls q).own)
      (gather (update (fun q => (ls q).files) p F))
      (update (fun q => (ls q).news) p N)) :
    Inv g ⟨w.kernel.setFile f e, w.notes.push p (w.kernel.file f).ip⟩ (update ls p
      { ls p with
        files := F, news := N
        inodes := ⟨(w.kernel.file f).ip, (w.kernel.inode (w.kernel.file f).ip).inum, none, .free⟩ ::ₘ
          (ls p).inodes }) := by
  have hv := hi.vias_drop (e := e) hf hone
  have hnot : ∀ s, ¬ e.Holds s := fun s => by simp [File.Holds, he]
  have hiff : ∀ s, (w.kernel.file f).Holds s ↔ (w.kernel.file f).ip = s := fun s => by
    simp [File.Holds, htype]
  have huses : uses w.kernel (w.kernel.file f).ip =
      uses (w.kernel.setFile f e) (w.kernel.file f).ip + 1 := by
    have := uses_setFile_add w.kernel f e (w.kernel.file f).ip
    rw [if_pos ((hiff _).mpr rfl), if_neg (hnot _)] at this
    omega
  have hother : ∀ a, a ≠ (w.kernel.file f).ip → uses (w.kernel.setFile f e) a = uses w.kernel a :=
    fun a ha => uses_setFile (iff_of_false (hnot a) fun h => ha ((hiff a).mp h).symm)
  refine Inv.of_update (tables_update_self ..)
    (hi.itable.ofUse rfl huses hother fun q z hz hfd => ?_) ?_ hft (hv.gain (by simp)) ?_ ?_ ?_
  · obtain ⟨fd, hfd⟩ := Option.ne_none_iff_exists'.mp hfd
    obtain ⟨a, -, ha⟩ := hv q z fd hz hfd
    exact Nat.lt_of_lt_of_le (opens_pos ha) (Nat.le_add_left _ _)
  · rw [update_eq_self]
    exact hi.cache.gain rfl
  · rw [update_eq_self]
    refine hi.pages.congr fun page b => endFiles_update_same ?_
    rcases htype with htype | htype <;> simp [File.EndOf, he, htype]
  · rw [update_eq_self]
    exact hi.procs
  · rw [update_eq_self, update_eq_self]
    exact hi.ops

theorem wp_dropFile {Q : Option File → Hold P → Prop}
    (hl' : l.files = f ::ₘ F) (hN : N ≤ l.news) (hnot : f ∉ N)
    (hmore : Q none { l with files := F, news := N })
    (hnone : ∀ ff, ff.type = .none → Q (some ff) { l with files := F, news := N })
    (hpipe : ∀ ff, f ∉ l.news → ff.type = .pipe → Q (some ff) { l with
      files := F, news := N, pages := .close ff.pipe ff.writable ::ₘ l.pages })
    (hinode : ∀ ff i, f ∉ l.news → ff.type = .inode ∨ ff.type = .device → Q (some ff) { l with
      files := F, news := N, inodes := ⟨ff.ip, i, none, .free⟩ ::ₘ l.inodes }) :
    (discipline g P ninodes).wp p (dropFile f) l Q := by
  refine wp_exec (fun _ => trivial) ?_
  rintro w ls hi rfl r k hk
  have hmem : f ∈ (ls p).files := by simp [hl']
  have hold : (w.kernel.file f).type ≠ .none → f ∉ (ls p).news := fun hne hn =>
    hne (hi.ftable.news p f hn).1
  simp only [Kernel.exec, Kernel.dropFile] at hk
  split_ifs at hk with hzero hmany
  · obtain ⟨rfl, rfl⟩ := Outcome.ok.inj hk
    exact ⟨_, hi.setFile (fun _ => Iff.rfl) (fun _ _ => Iff.rfl)
      (hi.ftable.drop hl' hN hnot ⟨rfl, Or.inl rfl⟩ fun h => by simp only at h; omega), hmore⟩
  · obtain ⟨rfl, rfl⟩ := Outcome.ok.inj hk
    have hone : (w.kernel.file f).ref = 1 := by omega
    have hft := hi.ftable.drop (e := { w.kernel.file f with ref := 0, type := .none }) hl' hN hnot
      ⟨by simp [hone], Or.inr rfl⟩ fun _ => rfl
    have hv := hi.vias_drop (e := { w.kernel.file f with ref := 0, type := .none }) hmem hone
    have hrest : (w.kernel.file f).type = .inode ∨ (w.kernel.file f).type = .device →
        ∃ l, Inv g ⟨_, w.notes.after p (.dropFile f) (some (w.kernel.file f))⟩
          (update ls p l) ∧ Q (some (w.kernel.file f)) l := fun htype => by
      refine ⟨_, ?_, hinode _ (w.kernel.inode (w.kernel.file f).ip).inum
        (hold (by rcases htype with h | h <;> simp [h])) htype⟩
      have hnotes : w.notes.after p (.dropFile f) (some (w.kernel.file f)) =
          w.notes.push p (w.kernel.file f).ip := by simp [Notes.after, htype]
      rw [hnotes]
      exact hi.dropInode hmem hone htype rfl hft
    cases htype : (w.kernel.file f).type with
    | none =>
      refine ⟨_, ?_, hnone _ htype⟩
      have hnotes : w.notes.after p (.dropFile f) (some (w.kernel.file f)) = w.notes := by
        simp [Notes.after, htype]
      rw [hnotes]
      exact hi.setFile (fun s => by simp [File.Holds, htype]) (fun _ _ => by simp [File.EndOf, htype])
        hft
    | pipe =>
      refine ⟨_, ?_, hpipe _ (hold (by simp [htype])) htype⟩
      have hnotes : w.notes.after p (.dropFile f) (some (w.kernel.file f)) = w.notes := by
        simp [Notes.after, htype]
      rw [hnotes]
      refine hi.of_files ⟨rfl, rfl, rfl, rfl⟩ ⟨rfl, rfl⟩ ⟨rfl, rfl, rfl⟩ (fun s => uses_setFile ?_)
        (tables_update_self ..) hft hv (hi.pages.drop ⟨htype, rfl, rfl⟩ rfl) ?_
      · simp [File.Holds, htype]
      · rw [update_eq_self]
        exact hi.procs
    | inode => exact hrest (Or.inl htype)
    | device => exact hrest (Or.inr htype)

theorem wp_setFile {i : Nat}
    {omode : Nat} {F : Multiset Pointer} {N : Multiset FileId} (fd : Fd) (hact : l.own.active)
    (hfd : l.own.table fd = some f) (hnews : f ∈ l.news) (hN : N ≤ l.news) (hnot : f ∉ N)
    (hl' : l.inodes = ⟨s, i, none, .locked⟩ ::ₘ F)
    (hq : Q () { l with inodes := ⟨s, i, some fd, .locked⟩ ::ₘ F, news := N }) :
    (discipline g P ninodes).wp p (setFile f s omode) l Q := by
  refine wp_exec (fun _ => trivial) ?_
  rintro w ls hi rfl _ k hk
  obtain ⟨-, rfl⟩ := Outcome.ok.inj hk
  refine ⟨_, ?_, hq⟩
  set e := (w.kernel.file f).opened s omode (w.kernel.inode s).din with he
  have hnone := (hi.ftable.news p f hnews).1
  have hold : ∀ a, e.Holds a ↔ s = a := fun a => by
    rw [he]
    simp only [File.Holds, File.opened]
    split_ifs <;> simp
  have hiff : ∀ a, ¬ (w.kernel.file f).Holds a := fun a => by simp [File.Holds, hnone]
  have huses : uses (w.kernel.setFile f e) s = uses w.kernel s + 1 := by
    have := uses_setFile_add w.kernel f e s
    rw [if_pos ((hold s).mpr rfl), if_neg (hiff s)] at this
    omega
  have hother : ∀ a, a ≠ s → uses (w.kernel.setFile f e) a = uses w.kernel a := fun a ha =>
    uses_setFile (iff_of_false (fun h => ha ((hold a).mp h).symm) (hiff a))
  have hv : Vias (update w.kernel.file f e) (tables w.kernel.ofile fun q => (ls q).own)
      (gather fun q => (ls q).inodes) := by
    refine hi.vias.congr fun q x b a _ _ ha hx => ⟨ha, ?_⟩
    rw [update_of_ne]
    · exact hx
    · rintro rfl
      exact hiff _ hx
  refine Inv.of_update (tables_update_self ..) (hi.itable.toFile hl' huses hother) ?_ ?_ ?_ ?_ ?_ ?_
  · have hloaded := hi.cache.loaded p ⟨s, i, none, .locked⟩ (by simp [hl']) (Or.inl rfl)
    have hc := hi.cache.relock (y := ⟨s, i, some fd, .locked⟩) hl' rfl ⟨by simp, by simp⟩
      (fun _ => hloaded) ⟨rfl, rfl, rfl, rfl⟩
    rw [update_eq_self] at hc ⊢
    exact hc
  · rw [update_eq_self]
    exact hi.ftable.settle hnews hN hnot rfl
  · rw [gather_update_cons]
    intro q z b hz hb
    rcases Multiset.mem_cons.mp hz with hz | hz
    · obtain ⟨rfl, rfl⟩ := Prod.mk.inj hz
      obtain rfl := Option.some.inj hb
      refine ⟨f, ?_, ?_⟩
      · rw [tables_active hact, hfd]
      · simpa using (hold s).mpr rfl
    · refine hv q z b ?_ hb
      rw [gather_eq_cons (f := fun q => (ls q).inodes) hl']
      exact Multiset.mem_cons_of_mem hz
  · rw [update_eq_self]
    refine hi.pages.congr fun page b => endFiles_update_same (iff_of_false ?_ ?_)
    · rw [he]
      simp only [File.EndOf, File.opened]
      split_ifs <;> simp
    · simp [File.EndOf, hnone]
  · rw [update_eq_self]
    exact hi.procs
  · rw [update_eq_self, update_eq_self]
    exact hi.ops

theorem Inv.setOff {n : Notes P} {off : Nat} (p : P)
    (hi : Inv g ⟨k, n⟩ ls) : Inv g ⟨k.setFile f { k.file f with off := off }, n⟩ ls := by
  have hset := hi.setFile (p := p) (f := f) (e := { k.file f with off := off }) (F := (ls p).files)
    (N := (ls p).news) (fun _ => Iff.rfl) (fun _ _ => Iff.rfl) (by
      rw [update_eq_self, update_eq_self]
      refine hi.ftable.congr fun a => ?_
      by_cases ha : a = f
      · simp [ha]
      · simp [ha])
  rwa [update_eq_self] at hset

theorem wp_readFile {Q : Int → Hold P → Prop} {fault : Bool}
    (hq : ∀ r, Q r l) : (discipline g P ninodes).wp p (readFile f s n fault) l Q := by
  refine wp_exec (fun _ => trivial) ?_
  rintro w ls hi rfl r k hk
  obtain ⟨-, rfl⟩ := Outcome.ok.inj hk
  refine ⟨_, ?_, hq r⟩
  rw [update_eq_self]
  simp only [Kernel.readFile]
  split
  · exact hi
  · exact hi.setOff p

theorem wp_writeFile {Q : Int → Hold P → Prop} {x : Pointer} {c : Chunk}
    {F : Multiset Pointer} (hl' : l.inodes = x ::ₘ F) (hx : x.stage = .locked) (hq : ∀ r, Q r l) :
    (discipline g P ninodes).wp p (writeFile f x.slot c) l Q := by
  refine wp_exec (fun _ => trivial) ?_
  rintro w ls hi rfl r k hk
  obtain ⟨-, rfl⟩ := Outcome.ok.inj hk
  refine ⟨_, ?_, hq r⟩
  rw [update_eq_self]
  simp only [Kernel.writeFile]
  split
  · refine Inv.setOff p (hi.store hl' hx ?_ fun hg => ?_)
    · rfl
    · exact hi.small hl' hx hg
  · exact hi

/-! ## Pipes -/

theorem Inv.setPipe {pi : PipePage} (hi : Inv g w ls)
    (hp : Pages w.kernel.file (update w.kernel.pipe page pi)
      (gather (update (fun q => (ls q).pages) p T))) :
    Inv g ⟨w.kernel.setPipe page pi, w.notes⟩ (update ls p { ls p with pages := T }) := by
  refine hi.of_files ⟨rfl, rfl, rfl, rfl⟩ ⟨rfl, rfl⟩ ⟨rfl, rfl, rfl⟩ (fun _ => rfl)
    (tables_update_self ..) ?_ hi.vias hp ?_
  · rw [update_eq_self, update_eq_self]
    exact hi.ftable
  · rw [update_eq_self]
    exact hi.procs

theorem wp_pipeCloseEnd {Q : Bool → Hold P → Prop} {writable : Bool} (hl' : l.pages = .close page writable ::ₘ T)
    (hboth : Q true { l with pages := .free page ::ₘ T }) (hq : Q false { l with pages := T }) :
    (discipline g P ninodes).wp p (pipeCloseEnd page writable) l Q := by
  refine wp_exec (fun _ => trivial) ?_
  rintro w ls hi rfl r k hk
  simp only [Kernel.exec] at hk
  obtain ⟨hr, rfl⟩ := Outcome.ok.inj hk
  refine ⟨_, hi.setPipe (hi.pages.close hl' ?_), ?_⟩
  · cases writable <;> simp
  · rw [hr]
    cases r with
    | true => exact hboth
    | false => exact hq

theorem wp_kfree (hl' : l.pages = .free page ::ₘ T) (hq : Q () { l with pages := T }) :
    (discipline g P ninodes).wp p (kfree page) l Q := by
  refine Logic.wp_lift fun w ls hi hl _ => ?_
  subst hl
  have hmem : PipeTask.free page ∈ (ls p).pages := by simp [hl']
  obtain ⟨hlive, hr, hw, hnot⟩ := hi.pages.closed_of_free hmem
  refine after_of_exec ⟨hlive, hr, hw, fun f ht hf => ?_⟩ fun r k hk => ?_
  · exact hnot f (w.kernel.file f).writable ⟨ht, hf, rfl⟩
  · obtain ⟨-, rfl⟩ := Outcome.ok.inj hk
    exact ⟨_, hi.setPipe (hi.pages.kfree hl' rfl), hq⟩

theorem wp_pipeInit {rf wf : FileId} (hne : rf ≠ wf)
    (hl' : l.news = {rf, wf}) (hq : Q () { l with news := 0 }) :
    (discipline g P ninodes).wp p (pipeInit rf wf page) l Q := by
  refine wp_exec (fun _ => trivial) ?_
  rintro w ls hi rfl _ k hk
  simp only [Kernel.exec] at hk
  split_ifs at hk with hlive
  obtain ⟨-, rfl⟩ := Outcome.ok.inj hk
  have hrf := (hi.ftable.news p rf (by simp [hl'])).1
  have hwf := (hi.ftable.news p wf (by simp [hl'])).1
  have hrne : ∀ s, ¬ (w.kernel.file rf).Holds s := fun s => by simp [File.Holds, hrf]
  have hwne : ∀ s, ¬ (w.kernel.file wf).Holds s := fun s => by simp [File.Holds, hwf]
  refine ⟨_, ?_, hq⟩
  refine hi.of_files ⟨rfl, rfl, rfl, rfl⟩ ⟨rfl, rfl⟩ ⟨rfl, rfl, rfl⟩ (fun s => ?_)
    (tables_update_self ..) ?_ (hi.vias.congr fun q x fd a _ _ ha hold => ⟨ha, ?_⟩) ?_ ?_
  · rw [uses_setFile, uses_setFile]
    · rfl
    · exact iff_of_false (by simp [File.Holds, File.pipeEnd]) (hrne s)
    · refine iff_of_false (by simp [File.Holds, File.pipeEnd]) ?_
      simpa [hne.symm] using hwne s
  · have hfirst := hi.ftable.settle (p := p) (f := rf) (N := {wf})
      (e := (w.kernel.file rf).pipeEnd page false) (by simp [hl'])
      (by rw [hl']; exact Multiset.le_cons_self _ _) (by simpa using hne) rfl
    have hboth := hfirst.settle (p := p) (f := wf) (N := 0)
      (e := (w.kernel.file wf).pipeEnd page true) (by simp) (by simp) (by simp)
      (by simp [File.pipeEnd, hne.symm])
    rw [update_idem] at hboth
    rw [update_eq_self]
    exact hboth
  · have har : a ≠ rf := by
      rintro rfl
      exact hrne _ hold
    have haw : a ≠ wf := by
      rintro rfl
      exact hwne _ hold
    simpa [har, haw] using hold
  · rw [update_eq_self]
    exact hi.pages.init (by simpa using hlive) hne hrf hwf ⟨rfl, rfl, rfl⟩ ⟨rfl, rfl, rfl⟩
  · rw [update_eq_self]
    exact hi.procs

end Xv6.Namespace
