import Xv6.Namespace.CallSpecs

/-!
# Lifetimes of inode table entries, files and pipes

What holds in every state of every run of the kernel from boot on, whatever system calls the
processes make and however their sections interleave.
-/

namespace Xv6.Namespace

open Xv6.Foundation Function
open Xv6.Disk (ROOTINO NINODE)

set_option autoImplicit false

/-! ## Boot -/

def rootSlot : Slot := ⟨0, by decide⟩

/-- What `userinit` leaves: one process, in the root directory, with no files. -/
def Kernel.boot {P : Type} [DecidableEq P] (p₀ : P) (disk : Nat → DInode) : Kernel P where
  disk := disk
  committed := disk
  outstanding := 0
  inode s := ⟨if s = rootSlot then 1 else 0, if s = rootSlot then ROOTINO else 0, false, none,
    ⟨none, 0, 0, 0, fun _ => zeroDirent⟩⟩
  file _ := ⟨0, .none, false, false, 0, rootSlot, 0⟩
  pipe _ := ⟨false, false, false⟩
  initproc := p₀
  state p := if p = p₀ then .running else .unused
  cwd p := if p = p₀ then some rootSlot else none
  ofile _ _ := none

def boot {P : Type} [DecidableEq P] (p₀ : P) (disk : Nat → DInode) : System P where
  shared := ⟨.boot p₀ disk, ⟨fun _ => [], fun _ => 0, fun _ _ => none, fun _ => false⟩⟩
  thread _ := .ret 0
  panicked := none

variable {P : Type} [Fintype P] [DecidableEq P] {g : Prop} {ninodes : Nat} {p₀ : P}
  {disk : Nat → DInode} {p : P}

def Hold.idle : Hold P := ⟨⟨false, fun _ => none, none, fun _ => none, false, none, none⟩, false,
  none, 0, 0, 0, 0⟩

theorem inv_boot (hdisk : g → ∀ i, (disk i).nlink < 2 ^ 15 ∧
    ((disk i).type ≠ none → 0 < (disk i).nlink)) :
    Inv g (boot p₀ disk).shared fun _ => (Hold.idle : Hold P) := by
  have hopens : ∀ s, opens (Kernel.boot p₀ disk).file s = 0 := fun s => by
    simp [opens, Kernel.boot, File.Holds]
  have hcwds : ∀ s, cwds (Kernel.boot p₀ disk).cwd s = if s = rootSlot then 1 else 0 := fun s => by
    rw [cwds, Finset.sum_eq_single p₀]
    · simp [Kernel.boot, eq_comm]
    · intro q _ hq
      simp [Kernel.boot, hq]
    · simp
  have hinodes : gather (fun _ : P => (Hold.idle : Hold P).inodes) = 0 := gather_zero fun _ => rfl
  have hfiles : gather (fun _ : P => (Hold.idle : Hold P).files) = 0 := gather_zero fun _ => rfl
  have hpages : gather (fun _ : P => (Hold.idle : Hold P).pages) = 0 := gather_zero fun _ => rfl
  refine ⟨?_, ?_, ?_, ?_, ?_, ?_, ?_⟩
  · rw [hinodes]
    refine ⟨fun s => ?_, fun p s => ?_, by simp, by simp, fun s s' h h' _ => ?_, fun p s => ?_⟩
    · have huses : uses (Kernel.boot p₀ disk) s = if s = rootSlot then 1 else 0 := by
        rw [uses, hcwds, hopens, Nat.add_zero]
      have hzero : refCount (0 : Multiset (P × Pointer)) s = 0 := rfl
      rw [hzero, Nat.add_zero]
      exact huses.symm
    · simp [boot, refCountOf]
    · have hroot : ∀ s, 0 < ((boot p₀ disk).shared.kernel.inode s).ref → s = rootSlot := fun s h => by
        by_contra hne
        simp [boot, Kernel.boot, hne] at h
      rw [hroot s h, hroot s' h']
    · simp [boot, Kernel.boot, lockCount]
  · rw [hinodes]
    refine ⟨by simp, by simp, fun s _ hv => ?_, fun hg i hi => ?_, fun hg i => (hdisk hg i).1⟩
    · simp [boot, Kernel.boot] at hv
    · exact Or.inl (Nat.pos_iff_ne_zero.mp ((hdisk hg i).2 hi))
  · rw [hfiles]
    refine ⟨fun f => ?_, fun f _ => rfl, by simp [Hold.idle]⟩
    simp [boot, Kernel.boot, slots, Table.slots, tables, Hold.idle, fileCount]
  · rw [hinodes]
    intro p x fd hx
    simp at hx
  · rw [hpages]
    refine ⟨fun page _ => ⟨fun b => ?_, ?_⟩, fun page h => ?_⟩
    · simp [boot, Kernel.boot, ends, endFiles, File.EndOf, taskCount]
    · simp [taskCount]
    · simp [boot, Kernel.boot] at h
  · refine ⟨by simp [Hold.idle], by simp [Hold.idle], fun q hq => ?_⟩
    have hne : q ≠ p₀ := by
      rintro rfl
      simp [boot, Kernel.boot] at hq
    simp [boot, Kernel.boot, hne]
  · refine ⟨by simp [boot, Kernel.boot, Hold.idle], fun _ => rfl, by simp [Hold.idle], fun hg i hi => ?_⟩
    exact ⟨(hdisk hg i).2 hi, (hdisk hg i).1⟩

/-- The discipline is kept in every state of every run from boot on. -/
theorem kept_of_run {t : List (Label P (Call P))} {σ : System P}
    (hdisk : g → ∀ i, (disk i).nlink < 2 ^ 15 ∧ ((disk i).type ≠ none → 0 < (disk i).nlink))
    (hr : Run ((machine P ninodes).Step fun _ a w => g → Guard a w) (boot p₀ disk) t σ) :
    (discipline g P ninodes).Kept σ := by
  refine Logic.Kept.run calls_discipline ?_ hr
  refine ⟨⟨fun _ => Hold.idle, inv_boot hdisk, fun p => ?_⟩, by simp [boot]⟩
  exact ⟨rfl, rfl, rfl, rfl, rfl, rfl, fun _ => rfl, fun h => by cases h⟩

theorem kept_of_any {t : List (Label P (Call P))} {σ : System P}
    (hr : Run ((machine P ninodes).Step fun _ _ _ => True) (boot p₀ disk) t σ) :
    (discipline False P ninodes).Kept σ :=
  kept_of_run (fun h => h.elim) (hr.mono fun _ _ _ h => h.mono fun _ _ _ _ h => h.elim)

/-! ## The inode table -/

section Inodes
variable {w : World P} {ls : P → Hold P}

theorem Inv.ref_eq (hi : Inv g w ls) (s : Slot) : (w.kernel.inode s).ref =
    cwds w.kernel.cwd s + opens w.kernel.file s + ∑ p, (w.notes.ptrs p).count s := by
  have hcount : refCount (gather fun p => (ls p).inodes) s = ∑ p, (w.notes.ptrs p).count s := by
    rw [refCount, countP_gather]
    refine Finset.sum_congr rfl fun p _ => ?_
    rw [hi.itable.ptrs p s]
    exact (countP_gather_of_owner (f := fun p => (ls p).inodes)
      fun x => x.slot = s ∧ x.fd = none).symm
  rw [hi.itable.refs s, hcount, uses]

theorem Inv.holder {p : P} {s : Slot} (hi : Inv g w ls) (hs : (w.kernel.inode s).lock = some p) :
    s ∈ w.notes.ptrs p ∨
      ∃ fd f, w.kernel.ofile p fd = some f ∧ 0 < (w.kernel.file f).ref ∧
        (w.kernel.file f).Holds s := by
  obtain ⟨x, hx, rfl, -⟩ := hi.itable.mem_of_lock hs
  cases hfd : x.fd with
  | none =>
    left
    have hpos : 0 < refCountOf (gather fun p => (ls p).inodes) p x.slot :=
      Multiset.countP_pos.mpr ⟨_, hx, rfl, rfl, hfd⟩
    rw [← hi.itable.ptrs] at hpos
    exact List.count_pos_iff.mp hpos
  | some fd =>
    right
    obtain ⟨f, hf, hold⟩ := hi.vias p x fd hx hfd
    refine ⟨fd, f, ?_, ?_, hold⟩
    · unfold tables at hf
      split_ifs at hf with hact
      · obtain ⟨-, hof, -, -, -, hpend⟩ := hi.procs.active p hact
        rw [hof, Own.ofile]
        cases hp : (ls p).own.pend with
        | none => exact hf
        | some y =>
          have hne : fd ≠ y.1 := by
            rintro rfl
            rw [hpend y hp] at hf
            cases hf
          simpa [hne] using hf
      · exact hf
    · have hslots := (Table.slots_pos hf).trans_le (slots_le _ p f)
      rw [hi.ftable.count f]
      omega

theorem Inv.idle {p : P} {r : Int} (hi : Inv g w ls) (hd : Done r (ls p)) :
    w.notes.ptrs p = [] ∧ w.notes.ops p = 0 := by
  obtain ⟨hinodes, -, -, -, hop, -⟩ := hd
  constructor
  · refine List.eq_nil_iff_forall_not_mem.mpr fun s hs => ?_
    have hpos := List.count_pos_iff.mpr hs
    rw [hi.itable.ptrs, refCountOf] at hpos
    obtain ⟨⟨q, x⟩, hx, rfl, -⟩ := Multiset.countP_pos.mp hpos
    simp [hinodes] at hx
  · simp [hi.ops.ops p, hop]

end Inodes

omit [Fintype P] in
/-- Only `iget` names another inode by a table entry, and only by one that is not in use. -/
theorem exec_inum {a : Act P} {k k' : Kernel P} {r : a.Resp} (h : k.exec p a = .ok r k')
    {s : Slot} (hs : (k'.inode s).inum ≠ (k.inode s).inum) : (k.inode s).ref = 0 := by
  have hupd : ∀ (b : Slot) (e : Inode P), e.inum = (k.inode b).inum →
      ∀ s, (update k.inode b e s).inum = (k.inode s).inum := fun b e he s => by
    by_cases hsb : s = b
    · rw [hsb, update_self, he]
    · rw [update_of_ne hsb]
  cases a with
  | iget i =>
    simp only [Kernel.exec] at h
    split at h
    · obtain ⟨-, rfl⟩ := Outcome.ok.inj h
      exact absurd (hupd _ _ (by rfl) s) hs
    · split at h
      · rename_i b hb
        obtain ⟨-, rfl⟩ := Outcome.ok.inj h
        by_cases hsb : s = b
        · rw [hsb]
          exact emptyEntry_eq_some hb
        · simp [hsb] at hs
      · cases h
  | _ =>
    exfalso
    simp only [Kernel.exec, Kernel.dropFile, Kernel.readFile, Kernel.writeFile] at h
    (repeat' split at h) <;> cases h <;>
      first
        | exact hs rfl
        | exact hs (hupd _ _ (by rfl) s)

/-- The inode table against all that points into it. -/
structure InodeTable (ninodes : Nat) (σ : System P) : Prop where
  unique : ∀ s s', 0 < (σ.shared.kernel.inode s).ref → 0 < (σ.shared.kernel.inode s').ref →
    (σ.shared.kernel.inode s).inum = (σ.shared.kernel.inode s').inum → s = s'
  /-- counted are the working directories, the open files and the calls in progress -/
  refs : ∀ s, (σ.shared.kernel.inode s).ref = cwds σ.shared.kernel.cwd s +
    opens σ.shared.kernel.file s + ∑ p, (σ.shared.notes.ptrs p).count s
  completed : ∀ p, σ.Idle p → σ.shared.notes.ptrs p = [] ∧ σ.shared.notes.ops p = 0
  recycled : ∀ l σ' s, (machine P ninodes).step σ l = some σ' →
    (σ'.shared.kernel.inode s).inum ≠ (σ.shared.kernel.inode s).inum →
    (σ.shared.kernel.inode s).ref = 0
  holder : ∀ p s, (σ.shared.kernel.inode s).lock = some p → s ∈ σ.shared.notes.ptrs p ∨
    ∃ fd f, σ.shared.kernel.ofile p fd = some f ∧ 0 < (σ.shared.kernel.file f).ref ∧
      (σ.shared.kernel.file f).Holds s
  /-- `acquiresleep` in `iput` does not block -/
  last : ∀ p s, σ.next? p = some (.iputTest s) → (σ.shared.kernel.inode s).ref = 1 →
    (σ.shared.kernel.inode s).lock = none
  outstanding : σ.shared.kernel.outstanding = ∑ p, σ.shared.notes.ops p
  begun : ∀ p, σ.next? p = some .beginOp → σ.shared.notes.ops p = 0
  ended : ∀ p, σ.next? p = some .endOp → σ.shared.notes.ops p = 1

/-- In every run of system calls, however they interleave, and whether they succeed or not. -/
theorem inode_table_discipline {t : List (Label P (Call P))} {σ : System P}
    (hr : Run ((machine P ninodes).Step fun _ _ _ => True) (boot p₀ disk) t σ) :
    InodeTable ninodes σ := by
  have hk := kept_of_any hr
  have hsafe := fun p a (ha : σ.next? p = some a) => hk.safe ha fun h => h.elim
  obtain ⟨⟨ls, hi, hwp⟩, -⟩ := hk
  have hi : Inv False σ.shared ls := hi
  refine ⟨hi.itable.unique, hi.ref_eq, fun p hp => ?_, fun l σ' s hstep hs => ?_,
    fun p s => hi.holder, fun p s hs => hsafe p _ hs, ?_, fun p hp => hsafe p _ hp,
    fun p hp => hsafe p _ hp⟩
  · obtain ⟨r, -, hd⟩ := Logic.exists_done_of_idle hp (hwp p)
    exact hi.idle hd
  · rcases Machine.step_cases _ hstep with ⟨p, c, w, -, -, henter, rfl⟩ |
      ⟨p, a, k, r, w, -, -, he, rfl⟩ | ⟨p, a, k, e, -, -, -, rfl⟩
    · simp only [machine, enter] at henter
      split_ifs at henter
      obtain rfl := Option.some.inj henter
      exact absurd rfl hs
    · obtain ⟨k', hk', rfl⟩ := exec_eq_ok he
      exact exec_inum hk' hs
    · exact absurd rfl hs
  · rw [hi.ops.outstanding]
    exact Finset.sum_congr rfl fun p _ => (hi.ops.ops p).symm

/-- An image with the root directory and one empty file `f` in it. -/
def smallDisk : Nat → DInode
  | 1 => ⟨some .dir, 0, 1, 3 * direntSize, fun
    | 0 => ⟨1, dot⟩
    | 1 => ⟨1, dotdot⟩
    | 2 => ⟨2, ['f']⟩
    | _ => zeroDirent⟩
  | 2 => ⟨some .file, 0, 1, 0, fun _ => zeroDirent⟩
  | _ => ⟨none, 0, 0, 0, fun _ => zeroDirent⟩

/-- The state after `n` steps of a call, which the only process makes right after boot. -/
def afterCall (c : Call Unit) (n : Nat) : Option (System Unit) :=
  (machine Unit 4).runs (fun _ _ _ => true) (.call () c :: List.replicate n (.run ()))
    (boot () smallDisk)

/-- `open("f")` in the middle of `namex`, with the root directory locked. -/
def opening : System Unit := (afterCall (.open ['f'] O_RDONLY) 5).get (by decide +kernel)

theorem inode_table_discipline_opening :
    (opening.shared.kernel.inode rootSlot).lock = some () ∧ InodeTable 4 opening :=
  ⟨by decide +kernel, inode_table_discipline (Machine.run_of_any .refl (Option.some_get _).symm)⟩

/-! ## Files and pipes -/

def Quiet (σ : System P) : Prop := ∀ p, σ.Idle p

section Files
variable {w : World P} {ls : P → Hold P}

theorem Inv.tables_quiet (hi : Inv g w ls) (hd : ∀ p, ∃ r, Done r (ls p)) :
    tables w.kernel.ofile (fun p => (ls p).own) = w.kernel.ofile := by
  funext p
  unfold tables
  split_ifs with hact
  · obtain ⟨r, -, -, -, -, -, -, hpend, -⟩ := hd p
    exact (hi.ofile_eq hact (hpend hact)).symm
  · rfl

theorem Inv.ref_eq_slots (hi : Inv g w ls) (hd : ∀ p, ∃ r, Done r (ls p)) (f : FileId) :
    (w.kernel.file f).ref = slots w.kernel.ofile f := by
  have hfiles : gather (fun p => (ls p).files) = 0 := gather_zero fun p => by
    obtain ⟨r, -, hf, -⟩ := hd p
    exact hf
  have hcount := hi.ftable.count f
  rw [hi.tables_quiet hd, hfiles] at hcount
  exact hcount

theorem Inv.ends_quiet (hi : Inv g w ls) (hd : ∀ p, ∃ r, Done r (ls p)) (page : Nat) :
    ((w.kernel.pipe page).live = false → ∀ b, endFiles w.kernel.file page b = 0) ∧
    ((w.kernel.pipe page).live →
      endFiles w.kernel.file page false = (w.kernel.pipe page).readopen.toNat ∧
      endFiles w.kernel.file page true = (w.kernel.pipe page).writeopen.toNat ∧
      ((w.kernel.pipe page).readopen ∨ (w.kernel.pipe page).writeopen)) := by
  have hpages : gather (fun p => (ls p).pages) = 0 := gather_zero fun p => by
    obtain ⟨r, -, -, hp, -⟩ := hd p
    exact hp
  have hp := hi.pages
  rw [hpages] at hp
  have hzero : ∀ t, taskCount (0 : Multiset (P × PipeTask)) t = 0 := fun _ => rfl
  constructor
  · intro hdead b
    have := (hp.dead page hdead).1 b
    rwa [ends, hzero, Nat.add_zero] at this
  · intro hlive
    rcases hp.live page hlive with ⟨-, hr, hw, hopen⟩ | ⟨hone, -⟩
    · rw [ends, hzero, Nat.add_zero] at hr hw
      exact ⟨hr, hw, hopen⟩
    · simp [hzero] at hone

end Files

theorem endFiles_pos {file : FileId → File} {page : Nat} {b : Bool} :
    0 < endFiles file page b ↔ ∃ f, (file f).EndOf page b := by
  rw [endFiles, Finset.sum_pos_iff]
  constructor
  · rintro ⟨f, -, hf⟩
    refine ⟨f, ?_⟩
    by_contra hne
    simp [hne] at hf
  · rintro ⟨f, hf⟩
    exact ⟨f, Finset.mem_univ f, by simp [hf]⟩

omit [Fintype P] in
theorem Notes.after_start (n : Notes P) (p : P) (a : Act P) (r : a.Resp) :
    (n.after p a r).start = n.start := by
  unfold Notes.after
  split <;> first | rfl | (split <;> rfl)

omit [Fintype P] in
theorem exec_ofile {a : Act P} {w w' : World P} {r : a.Resp} (h : exec p a w = .ok r w') :
    w'.notes.start p = w.notes.start p ∧ (w'.notes.gave p = false →
      w.notes.gave p = false ∧ ∀ q, q ≠ p → w'.kernel.ofile q = w.kernel.ofile q) := by
  obtain ⟨k, hk, rfl⟩ := exec_eq_ok h
  refine ⟨by rw [Notes.after_start], fun hgave => ?_⟩
  have hsame : ∀ q, q ≠ p → ∀ t : Table, update w.kernel.ofile p t q = w.kernel.ofile q :=
    fun q hq t => by rw [update_of_ne hq]
  cases a with
  | forkFd q fd => simp [Notes.after] at hgave
  | forkCwd q => simp [Notes.after] at hgave
  | dropFile f =>
    constructor
    · cases r with
      | none => exact hgave
      | some ff =>
        simp only [Notes.after] at hgave
        split_ifs at hgave <;> exact hgave
    · intro q hq
      simp only [Kernel.exec, Kernel.dropFile] at hk
      (repeat' split at hk) <;> cases hk <;> rfl
  | iputTest s =>
    constructor
    · cases r <;> exact hgave
    · intro q hq
      simp only [Kernel.exec] at hk
      (repeat' split at hk) <;> cases hk <;> rfl
  | _ =>
    refine ⟨hgave, fun q hq => ?_⟩
    simp only [Kernel.exec, Kernel.readFile, Kernel.writeFile] at hk
    (repeat' split at hk) <;> cases hk <;>
      first
        | rfl
        | exact hsame q hq _

/-- What a call of `p` alone has done to threads and descriptors since `σ`. -/
structure Alone (p : P) (σ τ : System P) : Prop where
  thread : ∀ q, q ≠ p → τ.thread q = σ.thread q
  start : τ.shared.notes.start p = σ.shared.kernel.ofile p
  others : τ.shared.notes.gave p = false →
    ∀ q, q ≠ p → τ.shared.kernel.ofile q = σ.shared.kernel.ofile q

omit [Fintype P] in
theorem Alone.step {σ τ τ' : System P} (h : Alone p σ τ)
    (hs : (machine P ninodes).step τ (.run p) = some τ') : Alone p σ τ' := by
  rcases Machine.step_cases _ hs with ⟨_, _, _, hl, -⟩ | ⟨_, a, k, r, w, hl, -, he, rfl⟩ |
    ⟨_, a, k, e, -, -, -, rfl⟩
  · cases hl
  · obtain rfl := Label.run.inj hl
    obtain ⟨hstart, hgave⟩ := exec_ofile he
    refine ⟨fun q hq => ?_, hstart.trans h.start, fun hg q hq => ?_⟩
    · simpa [hq] using h.thread q hq
    · obtain ⟨hg', hsame⟩ := hgave hg
      exact (hsame q hq).trans (h.others hg' q hq)
  · exact ⟨h.thread, h.start, h.others⟩

omit [Fintype P] in
theorem Alone.runs {σ τ τ' : System P} {n : Nat} (h : Alone p σ τ)
    (hs : (machine P ninodes).runs (fun _ _ _ => true) (List.replicate n (.run p)) τ = some τ') :
    Alone p σ τ' := by
  induction n generalizing τ with
  | zero =>
    obtain rfl := Option.some.inj hs
    exact h
  | succ n ih =>
    rw [List.replicate_succ] at hs
    simp only [Machine.runs] at hs
    split_ifs at hs
    obtain ⟨τ₁, hstep, hrest⟩ := Option.bind_eq_some_iff.mp hs
    exact ih (h.step hstep) hrest

/-- Files, descriptors and pipes in a state `σ`. -/
structure FileTable (ninodes : Nat) (σ : System P) : Prop where
  count : Quiet σ → ∀ f, (σ.shared.kernel.file f).ref = slots σ.shared.kernel.ofile f
  untyped : ∀ f, (σ.shared.kernel.file f).ref = 0 → (σ.shared.kernel.file f).type = .none
  /-- the page of a pipe is in use as long as there is a descriptor for one of its ends -/
  page : Quiet σ → ∀ page, (σ.shared.kernel.pipe page).live ↔
    ∃ p fd f b, σ.shared.kernel.ofile p fd = some f ∧ (σ.shared.kernel.file f).EndOf page b
  openEnds : Quiet σ → ∀ page, (σ.shared.kernel.pipe page).live →
    ((σ.shared.kernel.pipe page).readopen ↔ ∃ f, 0 < (σ.shared.kernel.file f).ref ∧
      (σ.shared.kernel.file f).EndOf page false) ∧
    ((σ.shared.kernel.pipe page).writeopen ↔ ∃ f, 0 < (σ.shared.kernel.file f).ref ∧
      (σ.shared.kernel.file f).EndOf page true)
  /-- only a page in use is freed, when both ends are closed -/
  freed : ∀ p page, σ.next? p = some (.kfree page) → (σ.shared.kernel.pipe page).live ∧
    (σ.shared.kernel.pipe page).readopen = false ∧ (σ.shared.kernel.pipe page).writeopen = false ∧
    ∀ f b, ¬ (σ.shared.kernel.file f).EndOf page b
  failed : ∀ p, σ.thread p = .ret (-1) →
    σ.shared.kernel.ofile p = σ.shared.notes.start p ∧ σ.shared.notes.gave p = false
  /-- a call that runs alone and fails changes no descriptor and no count -/
  unchanged : Quiet σ → ∀ p c n σ', (machine P ninodes).runs (fun _ _ _ => true)
    (.call p c :: List.replicate n (.run p)) σ = some σ' → σ'.thread p = .ret (-1) →
    σ'.shared.kernel.ofile = σ.shared.kernel.ofile ∧
      ∀ f, (σ'.shared.kernel.file f).ref = (σ.shared.kernel.file f).ref

omit [DecidableEq P] in
theorem exists_of_slots_pos {tables : P → Table} {f : FileId} (h : 0 < slots tables f) :
    ∃ p fd, tables p fd = some f := by
  obtain ⟨p, -, hp⟩ := Finset.sum_pos_iff.mp h
  obtain ⟨fd, -, hfd⟩ := Finset.sum_pos_iff.mp hp
  refine ⟨p, fd, ?_⟩
  by_contra hne
  simp [hne] at hfd

theorem Inv.failed {w : World P} {ls : P → Hold P} (hi : Inv g w ls) (hd : Done (-1) (ls p)) :
    w.kernel.ofile p = w.notes.start p ∧ w.notes.gave p = false := by
  obtain ⟨-, -, -, -, -, -, hpend, hfail⟩ := hd
  obtain ⟨hact, htable, hgave⟩ := hfail rfl
  obtain ⟨-, -, -, hstart, hg, -⟩ := hi.procs.active p hact
  rw [hi.ofile_eq hact (hpend hact), htable, hstart, hg]
  exact ⟨rfl, hgave⟩

section Reached
variable {t : List (Label P (Call P))} {σ : System P}

variable (hr : Run ((machine P ninodes).Step fun _ _ _ => True) (boot p₀ disk) t σ)
include hr

theorem ref_eq_of_quiet (hquiet : Quiet σ) (f : FileId) :
    (σ.shared.kernel.file f).ref = slots σ.shared.kernel.ofile f := by
  obtain ⟨⟨ls, hi, hwp⟩, -⟩ := kept_of_any hr
  refine Inv.ref_eq_slots hi (fun p => ?_) f
  obtain ⟨r, -, hd⟩ := Logic.exists_done_of_idle (hquiet p) (hwp p)
  exact ⟨r, hd⟩

theorem ofile_of_failed {p : P} (hp : σ.thread p = .ret (-1)) :
    σ.shared.kernel.ofile p = σ.shared.notes.start p ∧ σ.shared.notes.gave p = false := by
  obtain ⟨⟨ls, hi, hwp⟩, -⟩ := kept_of_any hr
  have hd := hwp p
  rw [hp] at hd
  exact Inv.failed hi hd

/-- A call that runs alone and fails changes no descriptor and no count. -/
theorem unchanged_of_failed (hquiet : Quiet σ) {p : P} {c : Call P} {n : Nat} {σ' : System P}
    (hs : (machine P ninodes).runs (fun _ _ _ => true) (.call p c :: List.replicate n (.run p)) σ =
      some σ') (hp : σ'.thread p = .ret (-1)) : σ'.shared.kernel.ofile = σ.shared.kernel.ofile ∧
      ∀ f, (σ'.shared.kernel.file f).ref = (σ.shared.kernel.file f).ref := by
  have hr' := Machine.run_of_any hr hs
  have halone : Alone p σ σ' := by
    simp only [Machine.runs] at hs
    split_ifs at hs
    obtain ⟨σ₁, hcall, hrest⟩ := Option.bind_eq_some_iff.mp hs
    refine Alone.runs ?_ hrest
    rcases Machine.step_cases _ hcall with ⟨q, c, w, hl, -, henter, rfl⟩ | ⟨_, _, _, _, _, hl, -⟩ |
      ⟨_, _, _, _, hl, -⟩
    · obtain ⟨rfl, rfl⟩ := Label.call.inj hl
      simp only [machine, enter] at henter
      split_ifs at henter
      obtain rfl := Option.some.inj henter
      exact ⟨fun q hq => by simp [hq], update_self .., fun _ _ _ => rfl⟩
    · cases hl
    · cases hl
  obtain ⟨hof, hgave⟩ := ofile_of_failed hr' hp
  have hofile : σ'.shared.kernel.ofile = σ.shared.kernel.ofile := by
    funext q
    by_cases hqp : q = p
    · rw [hqp, hof, halone.start]
    · exact halone.others hgave q hqp
  have hquiet' : Quiet σ' := fun q => by
    by_cases hqp : q = p
    · simp [Sys.Idle, Sys.next?, hqp, hp]
    · have := hquiet q
      unfold Sys.Idle Sys.next? at this ⊢
      rwa [halone.thread q hqp]
  exact ⟨hofile, fun f => by rw [ref_eq_of_quiet hr' hquiet', ref_eq_of_quiet hr hquiet, hofile]⟩

end Reached

/-- In every run of system calls, however they interleave, and whether they succeed or not. -/
theorem file_table_lifetimes {t : List (Label P (Call P))} {σ : System P}
    (hr : Run ((machine P ninodes).Step fun _ _ _ => True) (boot p₀ disk) t σ) :
    FileTable ninodes σ := by
  have hk := kept_of_any hr
  have hsafe := fun p a (ha : σ.next? p = some a) => hk.safe ha fun h => h.elim
  obtain ⟨⟨ls, hi, hwp⟩, -⟩ := hk
  have hi : Inv False σ.shared ls := hi
  have hdone : Quiet σ → ∀ p, ∃ r, Done r (ls p) := fun hq p => by
    obtain ⟨r, -, hd⟩ := Logic.exists_done_of_idle (hq p) (hwp p)
    exact ⟨r, hd⟩
  have hpos : ∀ f page b, (σ.shared.kernel.file f).EndOf page b → 0 < (σ.shared.kernel.file f).ref := by
    intro f page b hf
    by_contra hzero
    have := hi.ftable.untyped f (by omega)
    rw [hf.1] at this
    cases this
  refine ⟨fun hq => ref_eq_of_quiet hr hq, hi.ftable.untyped, fun hq page => ⟨fun hlive => ?_, ?_⟩,
    fun hq page hlive => ?_, fun p page hp => ?_, fun p => ofile_of_failed hr,
    fun hq p c n σ' => unchanged_of_failed hr hq⟩
  · obtain ⟨hread, hwrite, hopen⟩ := (hi.ends_quiet (hdone hq) page).2 hlive
    obtain ⟨f, b, hf⟩ : ∃ f b, (σ.shared.kernel.file f).EndOf page b := by
      rcases hopen with hopen | hopen
      · obtain ⟨f, hf⟩ := endFiles_pos.mp (by rw [hread, hopen]; decide)
        exact ⟨f, false, hf⟩
      · obtain ⟨f, hf⟩ := endFiles_pos.mp (by rw [hwrite, hopen]; decide)
        exact ⟨f, true, hf⟩
    have hslots := hpos f page b hf
    rw [ref_eq_of_quiet hr hq] at hslots
    obtain ⟨p, fd, hfd⟩ := exists_of_slots_pos hslots
    exact ⟨p, fd, f, b, hfd, hf⟩
  · rintro ⟨p, fd, f, b, -, hf⟩
    by_contra hdead
    have := (hi.ends_quiet (hdone hq) page).1 (by simpa using hdead) b
    have := endFiles_pos.mpr ⟨f, hf⟩
    omega
  · obtain ⟨hread, hwrite, -⟩ := (hi.ends_quiet (hdone hq) page).2 hlive
    have hiff : ∀ b x, endFiles σ.shared.kernel.file page b = Bool.toNat x →
        (x = true ↔ ∃ f, 0 < (σ.shared.kernel.file f).ref ∧ (σ.shared.kernel.file f).EndOf page b) := by
      intro b x hx
      constructor
      · rintro rfl
        obtain ⟨f, hf⟩ := endFiles_pos.mp (by rw [hx]; decide)
        exact ⟨f, hpos f page b hf, hf⟩
      · rintro ⟨f, -, hf⟩
        have := endFiles_pos.mpr ⟨f, hf⟩
        rw [hx] at this
        cases x
        · cases this
        · rfl
    exact ⟨hiff false _ hread, hiff true _ hwrite⟩
  · obtain ⟨hlive, hread, hwrite, hnot⟩ := hsafe p _ hp
    exact ⟨hlive, hread, hwrite, fun f b hf => hnot f hf.1 hf.2.1⟩

/-- `pipe` has returned. -/
def piped : System Unit := (afterCall (.pipe (some 7) true) 5).get (by decide +kernel)

theorem file_table_lifetimes_piped :
    piped.Idle () ∧ (piped.shared.kernel.pipe 7).live = true ∧ FileTable 4 piped :=
  ⟨by decide +kernel, by decide +kernel,
    file_table_lifetimes (Machine.run_of_any .refl (Option.some_get _).symm)⟩

end Xv6.Namespace
