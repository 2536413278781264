import Mathlib.Algebra.Order.BigOperators.Group.Finset
import Xv6.Namespace.Itable

/-!
# The file table and pipes

Reference counts of the open files against descriptors and calls in progress, and the two ends of
every pipe against the open files.
-/

namespace Xv6.Namespace

open Xv6.Foundation Function

set_option autoImplicit false

variable {P : Type} [Fintype P] [DecidableEq P] {s : Slot}

/-! ## Descriptors -/

def Table.slots (t : Table) (f : FileId) : Nat := ∑ fd, if t fd = some f then 1 else 0

def slots (tables : P → Table) (f : FileId) : Nat := ∑ p, (tables p).slots f

def fileCount (T : Multiset (P × FileId)) (f : FileId) : Nat := T.countP fun x => x.2 = f

section Counting
variable {t : Table} {fd : Fd} {f f' : FileId} {p : P} {T : Multiset (P × FileId)}

omit [Fintype P] [DecidableEq P] in
@[simp]
theorem fileCount_cons : fileCount ((p, f') ::ₘ T) f = fileCount T f + if f' = f then 1 else 0 :=
  Multiset.countP_cons _ _ _

omit [Fintype P] [DecidableEq P] in
theorem fileCount_pos (h : (p, f) ∈ T) : 0 < fileCount T f :=
  Multiset.countP_pos.mpr ⟨_, h, rfl⟩

theorem Table.slots_update (t : Table) (fd : Fd) (o : Option FileId) (f : FileId) :
    Table.slots (update t fd o) f + (if t fd = some f then 1 else 0) =
      t.slots f + if o = some f then 1 else 0 :=
  sum_update_add (fun o => if o = some f then 1 else 0) t fd o

theorem Table.slots_pos (h : t fd = some f) : 0 < t.slots f :=
  Finset.sum_pos_iff.mpr ⟨fd, Finset.mem_univ fd, by simp [h]⟩

theorem slots_update (tables : P → Table) (p : P) (t : Table) (f : FileId) :
    slots (update tables p t) f + (tables p).slots f = slots tables f + t.slots f :=
  sum_update_add (fun t : Table => t.slots f) tables p t

omit [DecidableEq P] in
theorem slots_le (tables : P → Table) (p : P) (f : FileId) : (tables p).slots f ≤ slots tables f :=
  Finset.single_le_sum (f := fun p => (tables p).slots f) (fun _ _ => Nat.zero_le _)
    (Finset.mem_univ p)

theorem slots_setFd (tables : P → Table) (p : P) (fd : Fd) (o : Option FileId) (f : FileId) :
    slots (update tables p (update (tables p) fd o)) f +
      (if tables p fd = some f then 1 else 0) = slots tables f + if o = some f then 1 else 0 := by
  have h1 := slots_update tables p (update (tables p) fd o) f
  have h2 := Table.slots_update (tables p) fd o f
  omega

theorem slots_add_le (tables : P → Table) {p q : P} (f : FileId) (hne : p ≠ q) :
    (tables p).slots f + (tables q).slots f ≤ slots tables f := by
  have h := Finset.sum_le_sum_of_subset (f := fun p => (tables p).slots f)
    (Finset.subset_univ ({p, q} : Finset P))
  rwa [Finset.sum_pair hne] at h

end Counting

/-- `T` are the files that calls in progress refer to in local variables, `news` those they have
allocated and not yet given a type. -/
structure Ftable (file : FileId → File) (tables : P → Table) (T : Multiset (P × FileId))
    (news : P → Multiset FileId) : Prop where
  count : ∀ f, (file f).ref = slots tables f + fileCount T f
  untyped : ∀ f, (file f).ref = 0 → (file f).type = .none
  news : ∀ p f, f ∈ news p → (file f).type = .none ∧ (file f).ref = 1 ∧
    (0 < (tables p).slots f ∨ (p, f) ∈ T)

namespace Ftable
variable {file file' : FileId → File} {tables : P → Table} {T : Multiset (P × FileId)}
  {news : P → Multiset FileId} {t : P → Multiset FileId} {F N : Multiset FileId} {p q : P}
  {f : FileId} {fd : Fd} {e : File}

section
variable (h : Ftable file tables T news)
include h

theorem news_unique (hf : f ∈ news p) (hq : 0 < (tables q).slots f ∨ (q, f) ∈ T) : p = q := by
  obtain ⟨-, hone, hp⟩ := h.news p f hf
  by_contra hne
  have hc := h.count f
  have hle := slots_le tables p f
  have hle' := slots_le tables q f
  have hadd := slots_add_le tables f hne
  rcases hp with hp | hp <;> rcases hq with hq | hq
  · omega
  · have := fileCount_pos hq
    omega
  · have := fileCount_pos hp
    omega
  · obtain ⟨R, rfl⟩ := Multiset.exists_cons_of_mem hp
    have hq' : (q, f) ∈ R := by
      rcases Multiset.mem_cons.mp hq with hq | hq
      · exact absurd (congrArg Prod.fst hq).symm hne
      · exact hq
    have := fileCount_pos hq'
    rw [fileCount_cons, if_pos rfl] at hc
    omega

end

section Steps
variable (h : Ftable file tables (gather t) news)
include h

omit [DecidableEq P] in
/-- A file that a call refers to beside a descriptor is not closed for the last time. -/
theorem two_le (hfd : tables q fd = some f) (hf : f ∈ t p) : 2 ≤ (file f).ref := by
  have hcount := h.count f
  have hslots := (Table.slots_pos hfd).trans_le (slots_le tables q f)
  have hfiles : 0 < fileCount (gather t) f := fileCount_pos (p := p) (by simpa using hf)
  omega

omit [DecidableEq P] in
theorem congr (hf : ∀ f, (file' f).ref = (file f).ref ∧ (file' f).type = (file f).type) :
    Ftable file' tables (gather t) news := by
  refine ⟨fun f => ?_, fun f => ?_, fun p f hn => ?_⟩
  · rw [(hf f).1, h.count]
  · rw [(hf f).1, (hf f).2]
    exact h.untyped f
  · rw [(hf f).1, (hf f).2]
    exact h.news p f hn

theorem alloc (hzero : (file f).ref = 0) :
    Ftable (update file f { file f with ref := 1 }) tables
      (gather (update t p (f ::ₘ t p))) (update news p (f ::ₘ news p)) := by
  have hnone := h.untyped f hzero
  have hnews : ∀ q, f ∉ news q := fun q hq => by
    have := (h.news q f hq).2.1
    omega
  rw [gather_eq (p := p) rfl] at h
  rw [gather_update_cons]
  refine ⟨fun a => ?_, fun a => ?_, fun q a ha => ?_⟩
  · have := h.count a
    simp only [fileCount_cons, update_apply]
    grind
  · have := h.untyped a
    simp only [update_apply]
    grind
  · have := h.news q a
    have := hnews q
    simp only [Multiset.mem_cons, Prod.mk.injEq, update_apply] at ha ⊢
    grind

theorem install (hf : t p = f ::ₘ F) (hfd : tables p fd = none) :
    Ftable file (update tables p (update (tables p) fd (some f)))
      (gather (update t p F)) news := by
  rw [gather_eq_cons hf] at h
  rw [gather_update]
  have hslots : ∀ a, slots (update tables p (update (tables p) fd (some f))) a =
      slots tables a + if f = a then 1 else 0 := fun a => by
    have := slots_setFd tables p fd (some f) a
    simpa [hfd] using this
  have htable : ∀ a, Table.slots (update (tables p) fd (some f)) a =
      (tables p).slots a + if f = a then 1 else 0 := fun a => by
    have := Table.slots_update (tables p) fd (some f) a
    simpa [hfd] using this
  refine ⟨fun a => ?_, h.untyped, fun q a ha => ?_⟩
  · have := h.count a
    rw [fileCount_cons] at this
    have := hslots a
    omega
  · have := h.news q a ha
    have := htable a
    simp only [update_apply]
    grind

theorem uninstall (hfd : tables p fd = some f) :
    Ftable file (update tables p (update (tables p) fd none))
      (gather (update t p (f ::ₘ t p))) news := by
  rw [gather_eq (p := p) rfl] at h
  rw [gather_update_cons]
  have hslots : ∀ a, slots (update tables p (update (tables p) fd none)) a +
      (if f = a then 1 else 0) = slots tables a := fun a => by
    have := slots_setFd tables p fd none a
    simpa [hfd] using this
  have htable : ∀ a, Table.slots (update (tables p) fd none) a +
      (if f = a then 1 else 0) = (tables p).slots a := fun a => by
    have := Table.slots_update (tables p) fd none a
    simpa [hfd] using this
  refine ⟨fun a => ?_, h.untyped, fun q a ha => ?_⟩
  · have := h.count a
    rw [fileCount_cons]
    have := hslots a
    omega
  · have := h.news q a ha
    have := htable a
    simp only [Multiset.mem_cons, Prod.mk.injEq, update_apply]
    grind

theorem dup (hfd : tables q fd = none) (hnew : ∀ a, f ∉ news a) :
    Ftable (update file f { file f with ref := (file f).ref + 1 })
      (update tables q (update (tables q) fd (some f))) (gather t) news := by
  have hslots : ∀ a, slots (update tables q (update (tables q) fd (some f))) a =
      slots tables a + if f = a then 1 else 0 := fun a => by
    have := slots_setFd tables q fd (some f) a
    simpa [hfd] using this
  have htable : ∀ a, Table.slots (update (tables q) fd (some f)) a =
      (tables q).slots a + if f = a then 1 else 0 := fun a => by
    have := Table.slots_update (tables q) fd (some f) a
    simpa [hfd] using this
  refine ⟨fun a => ?_, fun a => ?_, fun r a ha => ?_⟩
  · have := h.count a
    have := hslots a
    simp only [update_apply]
    grind
  · have := h.untyped a
    simp only [update_apply]
    grind
  · have := h.news r a ha
    have := htable a
    have := hnew r
    simp only [update_apply]
    grind

theorem drop (hf : t p = f ::ₘ F) (hN : N ≤ news p) (hnot : f ∉ N)
    (he : e.ref = (file f).ref - 1 ∧ (e.type = (file f).type ∨ e.type = .none))
    (hlast : e.ref = 0 → e.type = .none) :
    Ftable (update file f e) tables (gather (update t p F))
      (update news p N) := by
  have hother : ∀ q, q ≠ p → f ∉ news q := fun q hq hn =>
    hq (h.news_unique hn (Or.inr (by simp [hf])))
  have hsub := Multiset.subset_of_le hN
  rw [gather_eq_cons hf] at h
  rw [gather_update]
  refine ⟨fun a => ?_, fun a => ?_, fun q a ha => ?_⟩
  · have := h.count a
    rw [fileCount_cons] at this
    simp only [update_apply]
    grind
  · have := h.untyped a
    simp only [update_apply]
    grind
  · have := h.news q a
    have := hother q
    have := @hsub a
    simp only [update_apply] at ha ⊢
    grind

theorem settle (hf : f ∈ news p) (hN : N ≤ news p) (hnot : f ∉ N) (he : e.ref = (file f).ref) :
    Ftable (update file f e) tables (gather t) (update news p N) := by
  have hone := (h.news p f hf).2.1
  have hother : ∀ q, f ∈ news q → q = p := fun q hn =>
    h.news_unique hn (h.news p f hf).2.2
  have hsub := Multiset.subset_of_le hN
  refine ⟨fun a => ?_, fun a => ?_, fun q a ha => ?_⟩
  · have := h.count a
    simp only [update_apply]
    grind
  · have := h.untyped a
    simp only [update_apply]
    grind
  · have := h.news q a
    have := hother q
    have := @hsub a
    simp only [update_apply] at ha ⊢
    grind

end Steps

end Ftable

/-! ## Pointers of files -/

/-- An open file that has a reference to a table entry. -/
def File.Holds (f : File) (s : Slot) : Prop := (f.type = .inode ∨ f.type = .device) ∧ f.ip = s

instance (f : File) (s : Slot) : Decidable (f.Holds s) := inferInstanceAs (Decidable (_ ∧ _))

def opens (file : FileId → File) (s : Slot) : Nat := ∑ f, if (file f).Holds s then 1 else 0

def cwds (cwd : P → Option Slot) (s : Slot) : Nat := ∑ p, if cwd p = some s then 1 else 0

theorem opens_update (file : FileId → File) (f : FileId) (e : File) (s : Slot) :
    opens (update file f e) s + (if (file f).Holds s then 1 else 0) =
      opens file s + if e.Holds s then 1 else 0 :=
  sum_update_add (fun e : File => if e.Holds s then 1 else 0) file f e

theorem holds_update {file : FileId → File} {f b : FileId} {e : File}
    (h : e.Holds s ↔ (file f).Holds s) :
    (update file f e b).Holds s ↔ (file b).Holds s := by
  by_cases hb : b = f
  · rw [hb, update_self, h]
  · rw [update_of_ne hb]

theorem opens_update_same {file : FileId → File} {f : FileId} {e : File}
    (h : e.Holds s ↔ (file f).Holds s) : opens (update file f e) s = opens file s := by
  have := opens_update file f e s
  simp only [h] at this
  omega

theorem opens_pos {file : FileId → File} {f : FileId} (h : (file f).Holds s) : 0 < opens file s :=
  Finset.sum_pos_iff.mpr ⟨f, Finset.mem_univ f, by simp [h]⟩

theorem cwds_update (cwd : P → Option Slot) (p : P) (o : Option Slot) (s : Slot) :
    cwds (update cwd p o) s + (if cwd p = some s then 1 else 0) =
      cwds cwd s + if o = some s then 1 else 0 :=
  sum_update_add (fun o => if o = some s then 1 else 0) cwd p o

/-- A pointer that is used through a descriptor is that of the descriptor's file. -/
def Vias (file : FileId → File) (tables : P → Table) (T : Multiset (P × Pointer)) : Prop :=
  ∀ p x fd, (p, x) ∈ T → x.fd = some fd → ∃ f, tables p fd = some f ∧ (file f).Holds x.slot

namespace Vias
variable {file file' : FileId → File} {tables : P → Table} {f : P → Multiset Pointer}
  {F : Multiset Pointer} {p : P} {x y : Pointer}

section
variable (h : Vias file tables (gather f))
include h

omit [DecidableEq P] in
theorem congr {tables' : P → Table}
    (hkeep : ∀ q x fd a, x ∈ f q → x.fd = some fd → tables q fd = some a → (file a).Holds x.slot →
      tables' q fd = some a ∧ (file' a).Holds x.slot) : Vias file' tables' (gather f) := by
  intro q x fd hx hfd
  obtain ⟨a, ha, hold⟩ := h q x fd hx hfd
  exact ⟨a, hkeep q x fd a (by simpa using hx) hfd ha hold⟩

theorem install {q : P} {fd : Fd} {a : FileId} (hfree : tables q fd = none)
    (hfile : ∀ b s, (file b).Holds s → (file' b).Holds s) :
    Vias file' (update tables q (update (tables q) fd (some a))) (gather f) := by
  refine h.congr fun r x e b _ _ hb hold => ⟨?_, hfile b _ hold⟩
  have hne : r = q → e ≠ fd := by
    rintro rfl rfl
    rw [hfree] at hb
    cases hb
  simp only [update_apply]
  grind

theorem exchange (hf : f p = x ::ₘ F) (hy : y.slot = x.slot ∧ y.fd = x.fd) :
    Vias file tables (gather (update f p (y ::ₘ F))) := by
  rw [gather_eq_cons hf] at h
  rw [gather_update_cons]
  intro q z fd hz hfd
  rcases Multiset.mem_cons.mp hz with hz | hz
  · obtain ⟨rfl, rfl⟩ := Prod.mk.inj hz
    rw [hy.1]
    exact h q x fd (Multiset.mem_cons_self _ _) (hy.2 ▸ hfd)
  · exact h q z fd (Multiset.mem_cons_of_mem hz) hfd

theorem gain (hy : ∀ fd, y.fd = some fd → ∃ a, tables p fd = some a ∧ (file a).Holds y.slot) :
    Vias file tables (gather (update f p (y ::ₘ f p))) := by
  rw [gather_eq (p := p) rfl] at h
  rw [gather_update_cons]
  intro q z fd hz hfd
  rcases Multiset.mem_cons.mp hz with hz | hz
  · obtain ⟨rfl, rfl⟩ := Prod.mk.inj hz
    exact hy fd hfd
  · exact h q z fd hz hfd

theorem lose (hf : f p = x ::ₘ F) : Vias file tables (gather (update f p F)) := by
  rw [gather_eq_cons hf] at h
  rw [gather_update]
  exact fun q z fd hz => h q z fd (Multiset.mem_cons_of_mem hz)

end

end Vias

/-! ## Pipes -/

/-- One end of a pipe that is still to be closed, and a page that is still to be freed. -/
inductive PipeTask where
  | close (page : Nat) (writable : Bool)
  | free (page : Nat)
  deriving DecidableEq

def File.EndOf (f : File) (page : Nat) (writable : Bool) : Prop :=
  f.type = .pipe ∧ f.pipe = page ∧ f.writable = writable

instance (f : File) (page : Nat) (writable : Bool) : Decidable (f.EndOf page writable) :=
  inferInstanceAs (Decidable (_ ∧ _))

def endFiles (file : FileId → File) (page : Nat) (writable : Bool) : Nat :=
  ∑ f, if (file f).EndOf page writable then 1 else 0

def taskCount (T : Multiset (P × PipeTask)) (t : PipeTask) : Nat := T.countP fun x => x.2 = t

def ends (file : FileId → File) (T : Multiset (P × PipeTask)) (page : Nat) (writable : Bool) : Nat :=
  endFiles file page writable + taskCount T (.close page writable)

omit [Fintype P] [DecidableEq P] in
@[simp]
theorem taskCount_cons {T : Multiset (P × PipeTask)} {p : P} {t t' : PipeTask} :
    taskCount ((p, t') ::ₘ T) t = taskCount T t + if t' = t then 1 else 0 :=
  Multiset.countP_cons _ _ _

theorem endFiles_update (file : FileId → File) (f : FileId) (e : File) (page : Nat)
    (writable : Bool) : endFiles (update file f e) page writable +
      (if (file f).EndOf page writable then 1 else 0) =
      endFiles file page writable + if e.EndOf page writable then 1 else 0 :=
  sum_update_add (fun e : File => if e.EndOf page writable then 1 else 0) file f e

theorem endFiles_update_same {file : FileId → File} {f : FileId} {e : File} {page : Nat}
    {writable : Bool} (h : e.EndOf page writable ↔ (file f).EndOf page writable) :
    endFiles (update file f e) page writable = endFiles file page writable := by
  have := endFiles_update file f e page writable
  simp only [h] at this
  omega

/-- A page is not a pipe; or a pipe with the ends that are open; or about to be freed. -/
structure Pages (file : FileId → File) (pipe : Nat → PipePage) (T : Multiset (P × PipeTask)) :
    Prop where
  dead : ∀ page, (pipe page).live = false →
    (∀ w, ends file T page w = 0) ∧ taskCount T (.free page) = 0
  live : ∀ page, (pipe page).live →
    (taskCount T (.free page) = 0 ∧ ends file T page false = (pipe page).readopen.toNat ∧
      ends file T page true = (pipe page).writeopen.toNat ∧
      ((pipe page).readopen ∨ (pipe page).writeopen)) ∨
    (taskCount T (.free page) = 1 ∧ (∀ w, ends file T page w = 0) ∧
      (pipe page).readopen = false ∧ (pipe page).writeopen = false)

namespace Pages
variable {file file' : FileId → File} {pipe : Nat → PipePage} {t : P → Multiset PipeTask}
  {F : Multiset PipeTask} {p : P} {f : FileId} {e : File} {page : Nat} {writable : Bool}

section
variable (h : Pages file pipe (gather t))
include h

omit [DecidableEq P] in
theorem congr (hf : ∀ page w, endFiles file' page w = endFiles file page w) :
    Pages file' pipe (gather t) := by
  have he : ∀ page w, ends file' (gather t) page w = ends file (gather t) page w := fun page w => by
    rw [ends, hf, ends]
  refine ⟨fun page => ?_, fun page => ?_⟩
  · simpa only [he] using h.dead page
  · simpa only [he] using h.live page

theorem drop (hf : (file f).EndOf page writable) (he : e.type = .none) :
    Pages (update file f e) pipe
      (gather (update t p (.close page writable ::ₘ t p))) := by
  rw [gather_eq (p := p) rfl] at h
  rw [gather_update_cons]
  have hends : ∀ a w, ends (update file f e)
      ((p, PipeTask.close page writable) ::ₘ others t p (t p)) a w =
        ends file (others t p (t p)) a w := fun a w => by
    have := endFiles_update file f e a w
    simp only [ends, taskCount_cons, PipeTask.close.injEq]
    have hnot : ¬ e.EndOf a w := by simp [File.EndOf, he]
    have hiff : (file f).EndOf a w ↔ page = a ∧ writable = w := by
      obtain ⟨h1, h2, h3⟩ := hf
      simp [File.EndOf, h1, h2, h3]
    simp only [hnot, hiff, if_false] at this
    omega
  refine ⟨fun a ha => ?_, fun a ha => ?_⟩
  · have := h.dead a ha
    simpa [hends] using this
  · have := h.live a ha
    simpa [hends] using this

theorem close {pi : PipePage} (hf : t p = .close page writable ::ₘ F)
    (hpi : pi.live = (pipe page).live ∧ pi.readopen = ((pipe page).readopen && writable) ∧
      pi.writeopen = ((pipe page).writeopen && !writable)) :
    Pages file (update pipe page pi)
      (gather (update t p
        (if !pi.readopen && !pi.writeopen then .free page ::ₘ F else F))) := by
  rw [gather_eq_cons hf] at h
  have hends : ∀ a w, ends file ((p, PipeTask.close page writable) ::ₘ others t p F) a w =
      ends file (others t p F) a w + if page = a ∧ writable = w then 1 else 0 := fun a w => by
    simp only [ends, taskCount_cons, PipeTask.close.injEq]
    omega
  have hlive : (pipe page).live := by
    by_contra hd
    have := (h.dead page (by simpa using hd)).1 writable
    rw [hends] at this
    simp at this
  have hpage := h.live page hlive
  simp only [hends, taskCount_cons, reduceCtorEq, if_false, add_zero] at hpage
  -- the other pages
  have hdead : ∀ a, a ≠ page → (pipe a).live = false →
      (∀ w, ends file (others t p F) a w = 0) ∧ taskCount (others t p F) (.free a) = 0 := by
    intro a hne ha
    simpa [hends, hne.symm] using h.dead a ha
  have hother : ∀ a, a ≠ page → (pipe a).live →
      (taskCount (others t p F) (.free a) = 0 ∧
        ends file (others t p F) a false = (pipe a).readopen.toNat ∧
        ends file (others t p F) a true = (pipe a).writeopen.toNat ∧
        ((pipe a).readopen ∨ (pipe a).writeopen)) ∨
      (taskCount (others t p F) (.free a) = 1 ∧ (∀ w, ends file (others t p F) a w = 0) ∧
        (pipe a).readopen = false ∧ (pipe a).writeopen = false) := by
    intro a hne ha
    simpa [hends, hne.symm] using h.live a ha
  have hfree : ∀ a w, ends file ((p, PipeTask.free page) ::ₘ others t p F) a w =
      ends file (others t p F) a w := fun a w => by simp [ends]
  rcases hpage with ⟨hzero, hread, hwrite, -⟩ | ⟨-, hnone, -⟩
  · have ends_of_open : ends file (others t p F) page false = pi.readopen.toNat ∧
        ends file (others t p F) page true = pi.writeopen.toNat := by
      rw [hpi.2.1, hpi.2.2]
      revert hread hwrite
      cases writable <;> cases (pipe page).readopen <;> cases (pipe page).writeopen <;> simp +contextual
    have ends_of_closed : pi.readopen = false → pi.writeopen = false → ∀ w,
        ends file (others t p F) page w = 0 := by
      intro hr hw w
      rw [hr, hw] at ends_of_open
      cases w
      · exact ends_of_open.1
      · exact ends_of_open.2
    split_ifs with hboth
    · rw [gather_update_cons]
      refine ⟨fun a ha => ?_, fun a ha => ?_⟩
      · by_cases hne : a = page
        · simp [hne, hpi, hlive] at ha
        · rw [update_of_ne hne] at ha
          simpa [hfree, Ne.symm hne] using hdead a hne ha
      · by_cases hne : a = page
        · subst hne
          obtain ⟨hr, hw⟩ : pi.readopen = false ∧ pi.writeopen = false := by simpa using hboth
          refine Or.inr ⟨by simp [hzero], fun w => ?_, by simpa using hr, by simpa using hw⟩
          rw [hfree]
          exact ends_of_closed hr hw w
        · rw [update_of_ne hne] at ha ⊢
          simpa [hfree, Ne.symm hne] using hother a hne ha
    · rw [gather_update]
      refine ⟨fun a ha => ?_, fun a ha => ?_⟩
      · by_cases hne : a = page
        · simp [hne, hpi, hlive] at ha
        · rw [update_of_ne hne] at ha
          exact hdead a hne ha
      · by_cases hne : a = page
        · subst hne
          rw [update_self]
          refine Or.inl ⟨hzero, ends_of_open.1, ends_of_open.2, ?_⟩
          by_contra hno
          exact hboth (by simpa [not_or] using hno)
        · rw [update_of_ne hne] at ha ⊢
          exact hother a hne ha
  · have := hnone writable
    simp at this

theorem kfree {pi : PipePage} (hf : t p = .free page ::ₘ F) (hpi : pi.live = false) :
    Pages file (update pipe page pi) (gather (update t p F)) := by
  rw [gather_eq_cons hf] at h
  rw [gather_update]
  have hends : ∀ a w, ends file ((p, PipeTask.free page) ::ₘ others t p F) a w =
      ends file (others t p F) a w := fun a w => by simp [ends]
  have hcount : taskCount ((p, PipeTask.free page) ::ₘ others t p F) (.free page) =
      taskCount (others t p F) (.free page) + 1 := by simp
  refine ⟨fun a ha => ?_, fun a ha => ?_⟩
  · by_cases hne : a = page
    · subst hne
      cases hl : (pipe a).live with
      | false =>
        have := (h.dead a hl).2
        omega
      | true =>
        have := h.live a hl
        simp only [hends, hcount] at this
        rcases this with ⟨hzero, -⟩ | ⟨hone, hnone, -⟩
        · omega
        · exact ⟨hnone, by omega⟩
    · rw [update_of_ne hne] at ha
      simpa [hends, Ne.symm hne] using h.dead a ha
  · by_cases hne : a = page
    · simp [hne, hpi] at ha
    · rw [update_of_ne hne] at ha ⊢
      simpa [hends, Ne.symm hne] using h.live a ha

theorem closed_of_free (hf : PipeTask.free page ∈ t p) :
    (pipe page).live ∧ (pipe page).readopen = false ∧ (pipe page).writeopen = false ∧
      ∀ a w, ¬ (file a).EndOf page w := by
  obtain ⟨F, hF⟩ := Multiset.exists_cons_of_mem hf
  have hpos : 0 < taskCount (gather t) (.free page) := by
    rw [gather_eq_cons hF]
    simp
  have hlive : (pipe page).live := by
    by_contra hd
    have := (h.dead page (by simpa using hd)).2
    omega
  rcases h.live page hlive with ⟨hzero, -⟩ | ⟨-, hnone, hr, hw⟩
  · omega
  · refine ⟨hlive, hr, hw, fun a w ha => ?_⟩
    have hpos : 0 < endFiles file page w :=
      Finset.sum_pos_iff.mpr ⟨a, Finset.mem_univ a, by simp [ha]⟩
    have := hnone w
    rw [ends] at this
    omega

omit [DecidableEq P] in
theorem init {rf wf : FileId} {er ew : File} (hdead : (pipe page).live = false) (hne : rf ≠ wf)
    (hrf : (file rf).type = .none) (hwf : (file wf).type = .none)
    (her : er.EndOf page false) (hew : ew.EndOf page true) :
    Pages (update (update file rf er) wf ew)
      (update pipe page ⟨true, true, true⟩) (gather t) := by
  have hends : ∀ a w, ends (update (update file rf er) wf ew) (gather t) a w =
      ends file (gather t) a w + if a = page then 1 else 0 := fun a w => by
    have h1 := endFiles_update file rf er a w
    have h2 := endFiles_update (update file rf er) wf ew a w
    rw [update_of_ne hne.symm] at h2
    obtain ⟨r1, r2, r3⟩ := her
    obtain ⟨w1, w2, w3⟩ := hew
    simp only [File.EndOf, hrf, hwf, r1, r2, r3, w1, w2, w3, reduceCtorEq, false_and, if_false,
      true_and] at h1 h2
    simp only [ends]
    cases w <;> simp at h1 h2 <;> simp only [eq_comm (a := a)] <;> omega
  obtain ⟨hzero, hfree⟩ := h.dead page hdead
  refine ⟨fun a ha => ?_, fun a ha => ?_⟩
  · by_cases hap : a = page
    · simp [hap] at ha
    · rw [update_of_ne hap] at ha
      simpa [hends, hap] using h.dead a ha
  · by_cases hap : a = page
    · subst hap
      exact Or.inl ⟨hfree, by simp [hends, hzero], by simp [hends, hzero], by simp⟩
    · rw [update_of_ne hap] at ha ⊢
      simpa [hends, hap] using h.live a ha

end

end Pages

end Xv6.Namespace
