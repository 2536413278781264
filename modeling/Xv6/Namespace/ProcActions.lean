import Xv6.Namespace.FileActions

/-!
# What `fork`, `exit` and `wait` do to the holdings
-/

namespace Xv6.Namespace

open Xv6.Foundation Function

set_option autoImplicit false

variable {P : Type} [Fintype P] [DecidableEq P] {g : Prop} {ninodes : Nat} {p : P} {l : Hold P}
  {w : World P} {ls : P → Hold P} {Q : Unit → Hold P → Prop}

namespace Procs
variable {state : P → ProcState P} {cwd : P → Option Slot} {ofile : P → Table}
  {start : P → Table} {gave : P → Bool} {own : P → Own P} {q r : P} {m m' : Nat}
  (h : Procs state cwd ofile start gave own)
include h

omit [Fintype P] [DecidableEq P] in
theorem child_unique (hp : (own p).child = some (q, m)) (hr : (own r).child = some (q, m')) :
    r = p := by
  have hp := (h.child p q m hp).1
  have hr := (h.child r q m' hr).1
  rw [hp] at hr
  exact (ProcState.used.inj hr).symm

omit [Fintype P] [DecidableEq P] in
theorem inactive_of_child (hp : (own p).child = some (q, m)) : (own q).active = false := by
  by_contra hact
  have hrun := (h.active q (by simpa using hact)).1
  simp [(h.child p q m hp).1] at hrun

omit [Fintype P] in
theorem enter (hrun : state p = .running) (hchild : (own p).child = none) :
    Procs state cwd ofile (update start p (ofile p)) (update gave p false)
      (update own p ⟨true, ofile p, none, ofile p, false, cwd p, none⟩) := by
  refine ⟨fun q hq => ?_, fun q r m hc => ?_, h.empty⟩
  · by_cases hqp : q = p
    · subst hqp
      simp [hrun, Own.ofile]
    · simpa [hqp] using h.active q (by simpa [hqp] using hq)
  · by_cases hqp : q = p
    · simp [hqp] at hc
    · exact h.child q r m (by simpa [hqp] using hc)

omit [Fintype P] in
theorem allocproc (hq : state q = .unused) :
    Procs (update state q (.used p)) cwd ofile start gave
      (update own p { own p with child := some (q, 0) }) := by
  have hempty := h.empty q (Or.inl hq)
  refine ⟨fun r hr => ?_, fun r a m hc => ?_, fun r hr => ?_⟩
  · have := h.active r
    simp only [update_apply] at hr ⊢
    grind [Own.ofile]
  · have := h.child r a m
    simp only [update_apply] at hc ⊢
    grind
  · have := h.empty r
    simp only [update_apply] at hr
    grind

omit [Fintype P] in
theorem endChild {x : ProcState P} (hact : (own p).active) (hchild : (own p).child = some (q, m))
    (hx : x = .running ∨ x = .unused ∧ m = 0) :
    Procs (update state q x) cwd ofile start gave
      (update own p { own p with child := none }) := by
  have hq := h.child p q m hchild
  have hrun := (h.active p hact).1
  refine ⟨fun r hr => ?_, fun r a m hc => ?_, fun r hr => ?_⟩
  · have := h.active r
    simp only [update_apply] at hr ⊢
    grind [Own.ofile]
  · have := h.child r a m
    have := fun (hr : (own r).child = some (q, m)) => h.child_unique hchild hr
    simp only [update_apply] at hc ⊢
    grind
  · have := h.empty r
    simp only [update_apply] at hr
    grind

omit [Fintype P] in
theorem forkFd {fd : Fd} {a : Option FileId} (hact : (own p).active)
    (hchild : (own p).child = some (q, m)) (hfd : fd.val = m) :
    Procs state cwd (update ofile q (update (ofile q) fd a)) start
      (update gave p true)
      (update own p { own p with gave := true, child := some (q, m + 1) }) := by
  have hq := h.child p q m hchild
  have hpq : p ≠ q := by
    rintro rfl
    simp [(h.active p hact).1] at hq
  refine ⟨fun r hr => ?_, fun r b n hc => ?_, fun r hr => ?_⟩
  · by_cases hrp : r = p
    · subst hrp
      obtain ⟨h1, h2, h3, h4, -, h5⟩ := h.active r hact
      simp only [update_self, update_of_ne hpq]
      exact ⟨h1, h2, h3, h4, trivial, h5⟩
    · have := h.active r (by simpa [hrp] using hr)
      simp only [update_apply, hrp, if_false]
      grind
  · have := h.child r b n
    have := fun (hr : (own r).child = some (q, n)) => h.child_unique hchild hr
    simp only [update_apply] at hc ⊢
    grind
  · have := h.empty r
    simp only [update_apply]
    grind

omit [Fintype P] in
theorem forkCwd {s : Option Slot} (hact : (own p).active) (hchild : (own p).child = some (q, NOFILE)) :
    Procs state (update cwd q s) ofile start (update gave p true)
      (update own p { own p with gave := true, child := some (q, NOFILE + 1) }) := by
  have hq := h.child p q NOFILE hchild
  have hpq : p ≠ q := by
    rintro rfl
    simp [(h.active p hact).1] at hq
  refine ⟨fun r hr => ?_, fun r b n hc => ?_, fun r hr => ?_⟩
  · by_cases hrp : r = p
    · subst hrp
      obtain ⟨h1, h2, h3, h4, -, h5⟩ := h.active r hact
      simp only [update_self, update_of_ne hpq]
      exact ⟨h1, h2, h3, h4, trivial, h5⟩
    · have := h.active r (by simpa [hrp] using hr)
      simp only [update_apply, hrp, if_false]
      grind
  · have := h.child r b n
    have := fun (hr : (own r).child = some (q, n)) => h.child_unique hchild hr
    simp only [update_apply] at hc ⊢
    grind
  · have := h.empty r
    simp only [update_apply]
    grind

omit [Fintype P] in
theorem exit (hact : (own p).active) (hpend : (own p).pend = none)
    (htable : ∀ fd, (own p).table fd = none) (hcwd : (own p).cwd = none)
    (hchild : (own p).child = none) : Procs (update state p .zombie) cwd ofile start gave
      (update own p { own p with active := false }) := by
  obtain ⟨hrun, hof, hc, -⟩ := h.active p hact
  have hempty : ∀ fd, ofile p fd = none := by
    rw [hof, Own.ofile, hpend]
    exact htable
  refine ⟨fun r hr => ?_, fun r b n hc => ?_, fun r hr => ?_⟩
  · have := h.active r
    simp only [update_apply] at hr ⊢
    grind [Own.ofile]
  · have := h.child r b n
    simp only [update_apply] at hc ⊢
    grind
  · have := h.empty r
    simp only [update_apply] at hr
    grind

omit [Fintype P] in
theorem reap (hq : state q = .zombie) :
    Procs (update state q .unused) cwd ofile start gave own := by
  refine ⟨fun r hr => ?_, fun r b n hc => ?_, fun r hr => ?_⟩
  · have := h.active r hr
    simp only [update_apply]
    grind
  · have := h.child r b n hc
    simp only [update_apply]
    grind
  · have := h.empty r
    simp only [update_apply] at hr
    grind

end Procs

theorem Inv.setProcs {state : P → ProcState P} {n : Notes P} {o : Own P} (hi : Inv g w ls)
    (hn : n.ptrs = w.notes.ptrs ∧ n.ops = w.notes.ops)
    (ht : tables w.kernel.ofile (update (fun q => (ls q).own) p o) =
      tables w.kernel.ofile fun q => (ls q).own)
    (hp : Procs state w.kernel.cwd w.kernel.ofile n.start n.gave
      (update (fun q => (ls q).own) p o)) :
    Inv g ⟨{ w.kernel with state := state }, n⟩ (update ls p { ls p with own := o }) := by
  refine hi.of_files ⟨rfl, rfl, rfl, rfl⟩ hn ⟨rfl, rfl, rfl⟩ (fun _ => rfl) ht ?_ hi.vias ?_ hp
  · rw [update_eq_self, update_eq_self]
    exact hi.ftable
  · rw [update_eq_self]
    exact hi.pages

abbrev Hold.start (t : Table) (c : Option Slot) : Hold P :=
  ⟨⟨true, t, none, t, false, c, none⟩, false, none, 0, 0, 0, 0⟩

theorem Inv.enter {w' : World P} {r : Int} (hi : Inv g w ls) (hd : Done r (ls p))
    (h : Namespace.enter p w = some w') : ∃ t c, Inv g w' (update ls p (.start t c)) := by
  unfold Namespace.enter at h
  split_ifs at h with hrun
  obtain rfl := Option.some.inj h
  obtain ⟨hinodes, hfiles, hpages, hnews, hop, hchild, hpend, -⟩ := hd
  have hfresh : (ls p).fresh = none := by
    by_contra hne
    have := hi.ops.fresh p hne
    simp [hop] at this
  have heq : (Hold.start (w.kernel.ofile p) (w.kernel.cwd p) : Hold P) = { ls p with
      own := ⟨true, w.kernel.ofile p, none, w.kernel.ofile p, false, w.kernel.cwd p, none⟩ } := by
    simp [Hold.start, hinodes, hfiles, hpages, hnews, hop, hfresh]
  refine ⟨w.kernel.ofile p, w.kernel.cwd p, ?_⟩
  rw [heq]
  refine hi.setProcs ⟨rfl, rfl⟩ ?_ (hi.procs.enter hrun hchild)
  rw [tables_update rfl fun _ _ _ => rfl]
  cases hact : (ls p).own.active with
  | true =>
    rw [hi.ofile_eq hact (hpend hact)]
    exact update_table hact
  | false =>
    funext q
    by_cases hqp : q = p
    · subst hqp
      simp [tables, hact]
    · simp [hqp]

theorem wp_isInit {Q : Bool → Hold P → Prop} (hq : ∀ r, Q r l) :
    (discipline g P ninodes).wp p isInit l Q := by
  refine wp_exec (fun _ => trivial) ?_
  rintro w ls hi rfl r k hk
  obtain ⟨-, rfl⟩ := Outcome.ok.inj hk
  exact ⟨_, hi.keep, hq r⟩

theorem wp_panicWith {α : Type} {Q : α → Hold P → Prop} {e : Panic} :
    (discipline g P ninodes).wp p (panicWith e) l Q := by
  intro w ls hi hl _
  exact after_of_exec trivial fun r => r.elim

theorem wp_allocproc {q : P} (hact : l.own.active)
    (hq : Q () { l with own := { l.own with child := some (q, 0) } }) :
    (discipline g P ninodes).wp p (allocproc q) l Q := by
  refine wp_exec (fun _ => trivial) ?_
  rintro w ls hi rfl _ k hk
  simp only [Kernel.exec] at hk
  split_ifs at hk with hunused
  obtain ⟨-, rfl⟩ := Outcome.ok.inj hk
  refine ⟨_, ?_, hq⟩
  exact hi.setProcs ⟨rfl, rfl⟩ (tables_same hact ⟨hact, rfl⟩) (hi.procs.allocproc hunused)

theorem wp_freeproc {q : P} (hact : l.own.active)
    (hchild : l.own.child = some (q, 0)) (hq : Q () { l with own := { l.own with child := none } }) :
    (discipline g P ninodes).wp p (freeproc q) l Q := by
  refine wp_exec (fun _ => trivial) ?_
  rintro w ls hi rfl _ k hk
  obtain ⟨-, rfl⟩ := Outcome.ok.inj hk
  refine ⟨_, ?_, hq⟩
  exact hi.setProcs ⟨rfl, rfl⟩ (tables_same hact ⟨hact, rfl⟩)
    (hi.procs.endChild hact hchild (Or.inr ⟨rfl, rfl⟩))

theorem wp_forkRun {q : P} {m : Nat} (hact : l.own.active)
    (hchild : l.own.child = some (q, m)) (hq : Q () { l with own := { l.own with child := none } }) :
    (discipline g P ninodes).wp p (forkRun q) l Q := by
  refine wp_exec (fun _ => trivial) ?_
  rintro w ls hi rfl _ k hk
  obtain ⟨-, rfl⟩ := Outcome.ok.inj hk
  refine ⟨_, ?_, hq⟩
  exact hi.setProcs ⟨rfl, rfl⟩ (tables_same hact ⟨hact, rfl⟩)
    (hi.procs.endChild hact hchild (Or.inl rfl))

theorem wp_exitProc (hact : l.own.active) (hpend : l.own.pend = none)
    (htable : ∀ fd, l.own.table fd = none) (hcwd : l.own.cwd = none) (hchild : l.own.child = none)
    (hq : Q () { l with own := { l.own with active := false } }) :
    (discipline g P ninodes).wp p exitProc l Q := by
  refine wp_exec (fun _ => trivial) ?_
  rintro w ls hi rfl _ k hk
  obtain ⟨-, rfl⟩ := Outcome.ok.inj hk
  refine ⟨_, hi.setProcs ⟨rfl, rfl⟩ ?_ (hi.procs.exit hact hpend htable hcwd hchild), hq⟩
  funext q
  by_cases hqp : q = p
  · subst hqp
    simp [tables, hact, hi.ofile_eq hact hpend]
  · simp [tables, hqp]

theorem wp_reap {q : P} (hq : Q () l) : (discipline g P ninodes).wp p (reap q) l Q := by
  refine wp_exec (fun _ => trivial) ?_
  rintro w ls hi rfl _ k hk
  simp only [Kernel.exec] at hk
  split_ifs at hk with hz
  obtain ⟨-, rfl⟩ := Outcome.ok.inj hk
  refine ⟨_, hi.setProcs (o := (ls p).own) ⟨rfl, rfl⟩ (tables_update_self ..) ?_, hq⟩
  rw [update_eq_self]
  exact hi.procs.reap hz

section Fork
variable {q : P} {m : Nat} {Q : Unit → Hold P → Prop}

omit [Fintype P] in
theorem tables_child {ofile : P → Table} {own : P → Own P} {o : Own P} {fd : Fd} {a : Option FileId}
    (hq : (own q).active = false) (hact : (own p).active)
    (ho : o.active ∧ o.table = (own p).table) :
    tables (update ofile q (update (ofile q) fd a)) (update own p o) =
      update (tables ofile own) q (update (tables ofile own q) fd a) := by
  have hne : q ≠ p := by
    rintro rfl
    simp [hq] at hact
  funext r
  by_cases hrp : r = p
  · subst hrp
    simp [tables, ho, hact, Ne.symm hne]
  · by_cases hrq : r = q
    · subst hrq
      simp [tables, hne, hq]
    · simp [tables, hrp, hrq]

theorem wp_forkFd {fd : Fd} (hact : l.own.active)
    (hpend : l.own.pend = none) (hnews : l.news = 0) (hchild : l.own.child = some (q, fd.val))
    (hq : Q () { l with own := { l.own with gave := true, child := some (q, fd.val + 1) } }) :
    (discipline g P ninodes).wp p (forkFd q fd) l Q := by
  refine wp_exec (fun _ => trivial) ?_
  rintro w ls hi rfl _ k hk
  have hinact := hi.procs.inactive_of_child hchild
  have hnone : w.kernel.ofile q fd = none := (hi.procs.child p q _ hchild).2.1 fd le_rfl
  have hfree : tables w.kernel.ofile (fun q => (ls q).own) q fd = none := by
    simpa [tables, hinact] using hnone
  simp only [Kernel.exec] at hk
  split at hk
  · obtain ⟨-, rfl⟩ := Outcome.ok.inj hk
    refine ⟨_, ?_, hq⟩
    refine hi.setProcs ⟨rfl, rfl⟩ (tables_same hact ⟨hact, rfl⟩) ?_
    have := hi.procs.forkFd (a := none) hact hchild rfl
    rwa [← hnone, update_eq_self, update_eq_self] at this
  · rename_i f hf
    split_ifs at hk
    obtain ⟨-, rfl⟩ := Outcome.ok.inj hk
    rw [hi.ofile_eq hact hpend] at hf
    refine ⟨_, ?_, hq⟩
    refine hi.of_files ⟨rfl, rfl, rfl, rfl⟩ ⟨rfl, rfl⟩ ⟨rfl, rfl, rfl⟩ (fun s => ?_)
      (tables_child hinact hact ⟨hact, rfl⟩) ?_ ?_ ?_ (hi.procs.forkFd hact hchild rfl)
    · exact congrArg (cwds w.kernel.cwd s + ·) (opens_update_same Iff.rfl)
    · rw [update_eq_self, update_eq_self]
      exact hi.ftable.dup hfree (hi.not_new hact hf hnews)
    · exact hi.vias.install hfree fun b s hold => (holds_update (by rfl)).mpr hold
    · rw [update_eq_self]
      exact hi.pages.congr fun page b => endFiles_update_same Iff.rfl

theorem wp_forkCwd (hact : l.own.active) (hchild : l.own.child = some (q, NOFILE))
    (hq : Q () { l with own := { l.own with gave := true, child := some (q, NOFILE + 1) } }) :
    (discipline g P ninodes).wp p (forkCwd q) l Q := by
  refine wp_exec (fun _ => trivial) ?_
  rintro w ls hi rfl _ k hk
  simp only [Kernel.exec] at hk
  split at hk
  · rename_i s hs
    obtain ⟨-, rfl⟩ := Outcome.ok.inj hk
    have hnone := (hi.procs.child p q _ hchild).2.2 le_rfl
    have huses : uses ((w.kernel.addRef s).setCwd q (some s)) s = uses w.kernel s + 1 := by
      have := uses_setCwd (w.kernel.addRef s) q (some s) s
      have hcwd : (w.kernel.addRef s).cwd q = none := hnone
      have hsame : uses (w.kernel.addRef s) s = uses w.kernel s := rfl
      rw [hcwd, hsame] at this
      simpa using this
    have hother : ∀ a, a ≠ s → uses ((w.kernel.addRef s).setCwd q (some s)) a = uses w.kernel a := by
      intro a ha
      have := uses_setCwd (w.kernel.addRef s) q (some s) a
      have hcwd : (w.kernel.addRef s).cwd q = none := hnone
      have hsame : uses (w.kernel.addRef s) a = uses w.kernel a := rfl
      rw [hcwd, hsame] at this
      simpa [Ne.symm ha] using this
    refine ⟨_, ?_, hq⟩
    refine Inv.of_update (tables_same hact ⟨hact, rfl⟩) ?_ ?_ ?_ ?_ ?_
      (hi.procs.forkCwd hact hchild) ?_
    · rw [update_eq_self]
      exact hi.itable.addUse (cwd_ref_pos hi hs) huses hother
    · rw [update_eq_self, update_eq_self]
      refine hi.cache.congr (fun a => ?_) fun _ _ _ => Iff.rfl
      have := cwd_ref_pos hi hs
      by_cases ha : a = s <;> simp_all [Kernel.addRef]
    · rw [update_eq_self, update_eq_self]
      exact hi.ftable
    · rw [update_eq_self]
      exact hi.vias
    · rw [update_eq_self]
      exact hi.pages
    · rw [update_eq_self, update_eq_self]
      exact hi.ops
  · cases hk

end Fork

end Xv6.Namespace
