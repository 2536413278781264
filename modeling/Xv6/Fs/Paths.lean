import Mathlib.Data.List.GetD
import Mathlib.Data.List.TakeWhile
import Xv6.Fs.DirMap

/-!
# Path resolution

`skipelem` and `namex`. A path is the list of the bytes of a string, so that the end of the list is
its terminating zero, and a pointer into it is the rest of the list. `components` are the segments
between slashes; `namex` follows them through the directories, taking a reference to the next inode
before it drops the one it holds.
-/

namespace Xv6.Fs

open Xv6.Foundation Xv6.Disk Function

set_option autoImplicit false

/-! ## `skipelem` -/

def slash : Byte := 47

def bytesOf (s : List Byte) : Bytes := fun i => s.getD i 0

def skipelem (path : List Byte) (name : Bytes) : Option (List Byte × Bytes) :=
  let s := path.dropWhile (· == slash)
  if s = [] then none
  else
    let len := (s.takeWhile (· != slash)).length
    let name := if DIRSIZ ≤ len then blit name 0 (bytesOf s) DIRSIZ
      else Function.update (blit name 0 (bytesOf s) len) len 0
    some ((s.dropWhile (· != slash)).dropWhile (· == slash), name)

/-- The names that `skipelem` yields when it is called until it returns zero. -/
def skipelems : Nat → List Byte → Bytes → List Name
  | 0, _, _ => []
  | fuel + 1, path, name =>
    match skipelem path name with
    | none => []
    | some (path, name) => nameOf name :: skipelems fuel path name

/-- The maximal segments of a path without slashes, empty ones left out. -/
def components (path : List Byte) : List (List Byte) := (path.splitOn slash).filter (· ≠ [])

theorem components_nil : components [] = [] := by
  simp [components, List.splitOn]

theorem components_slash (p : List Byte) : components (slash :: p) = components p := by
  have h := List.splitOnP_append_cons_of_forall_mem (p := (· == slash))
    (show ∀ b ∈ ([] : List Byte), (b == slash) = false by simp) slash (by simp) p
  rw [components, List.splitOn, ← List.nil_append (slash :: p), h, List.filter_cons_of_neg (by simp)]
  rfl

theorem components_dropWhile (p : List Byte) : components (p.dropWhile (· == slash)) = components p := by
  induction p with
  | nil => rfl
  | cons b p ih =>
    rw [List.dropWhile_cons]
    split
    · rename_i hb
      rw [ih, beq_iff_eq.mp hb, components_slash]
    · rfl

theorem components_append {e rest : List Byte} (he : e ≠ []) (hs : slash ∉ e)
    (hrest : rest = [] ∨ ∃ r, rest = slash :: r) : components (e ++ rest) = e :: components rest := by
  have hno : ∀ b ∈ e, (b == slash) = false := fun b hb => by
    rw [beq_eq_false_iff_ne]
    rintro rfl
    exact hs hb
  rcases hrest with rfl | ⟨r, rfl⟩
  · rw [List.append_nil, components_nil, components, List.splitOn, List.splitOnP_eq_singleton hno,
      List.filter_cons_of_pos (by simpa using he)]
    rfl
  · rw [components_slash, components, List.splitOn,
      List.splitOnP_append_cons_of_forall_mem hno slash (by simp) r,
      List.filter_cons_of_pos (by simpa using he)]
    rfl

theorem dropWhile_eq_nil_or {p : Byte → Bool} (l : List Byte) :
    l.dropWhile p = [] ∨ ∃ b r, l.dropWhile p = b :: r ∧ p b = false := by
  induction l with
  | nil => exact Or.inl rfl
  | cons b l ih =>
    rw [List.dropWhile_cons]
    split
    · exact ih
    · rename_i hb
      exact Or.inr ⟨b, l, rfl, by simpa using hb⟩

theorem components_eq_nil {p : List Byte} :
    components (p.dropWhile (· == slash)) = [] ↔ p.dropWhile (· == slash) = [] := by
  constructor
  · intro h
    rcases dropWhile_eq_nil_or (p := (· == slash)) p with hn | ⟨b, r, hbr, hb⟩
    · exact hn
    · exfalso
      rw [hbr, ← List.takeWhile_append_dropWhile (p := (· != slash)) (l := b :: r)] at h
      have hb' : (b != slash) = true := by simpa using hb
      rw [components_append ?_ ?_ ?_] at h
      · cases h
      · simp [hb']
      · intro hm
        simpa using List.mem_takeWhile_imp hm
      · rcases dropWhile_eq_nil_or (p := (· != slash)) (b :: r) with hn | ⟨c, r', hcr, hc⟩
        · exact Or.inl hn
        · exact Or.inr ⟨r', by rw [hcr, show c = slash by simpa using hc]⟩
  · intro h
    rw [h, components_nil]

theorem nameFrom_eq_take {b : Bytes} {l : List Byte} {n i : Nat} (hz : (0 : Byte) ∉ l)
    (hb : ∀ o, o < n → o < l.length → b (i + o) = bytesOf l o) (hend : l.length < n → b (i + l.length) = 0) :
    nameFrom b n i = l.take n := by
  induction n generalizing l i with
  | zero => rfl
  | succ n ih =>
    rw [nameFrom]
    cases l with
    | nil =>
      rw [if_pos (by simpa using hend (by simp))]
      rfl
    | cons c l =>
      have hc : b i = c := by simpa [bytesOf] using hb 0 (by omega) (by simp)
      have hne : c ≠ 0 := fun h => hz (by simp [h])
      rw [hc, if_neg hne, List.take_succ_cons, ih (fun h => hz (List.mem_cons_of_mem _ h))]
      · intro o h1 h2
        have := hb (o + 1) (by omega) (by simpa using h2)
        rw [show i + 1 + o = i + (o + 1) by omega, this]
        simp [bytesOf]
      · intro h
        have := hend (by simpa using h)
        rwa [List.length_cons, ← Nat.add_assoc, Nat.add_right_comm] at this

theorem skipelem_eq_some {path path' : List Byte} {name name' : Bytes} (hz : (0 : Byte) ∉ path)
    (h : skipelem path name = some (path', name')) :
    ∃ c, components path = c :: components path' ∧ nameOf name' = c.take DIRSIZ ∧
      path'.length < path.length ∧ (0 : Byte) ∉ path' ∧ (components path' = [] ↔ path' = []) := by
  unfold skipelem at h
  set s := path.dropWhile (· == slash) with hs
  dsimp only at h
  split at h
  · cases h
  rename_i hne
  obtain ⟨rfl, rfl⟩ : (s.dropWhile (· != slash)).dropWhile (· == slash) = path' ∧ _ = name' := by
    simpa using h
  have hsub : ∀ b ∈ s, b ∈ path := fun b hb => (List.dropWhile_suffix _).mem hb
  obtain ⟨b, r, hbr, hb⟩ := (dropWhile_eq_nil_or (p := (· == slash)) path).resolve_left hne
  rw [← hs] at hbr
  set e := s.takeWhile (· != slash) with he
  have hse : s = e ++ s.dropWhile (· != slash) := (List.takeWhile_append_dropWhile).symm
  have hene : e ≠ [] := by
    have hb' : (b != slash) = true := by simpa using hb
    rw [he, hbr, List.takeWhile_cons, hb']
    simp
  have hcomp : components path = e :: components ((s.dropWhile (· != slash)).dropWhile (· == slash)) := by
    rw [← components_dropWhile path, ← hs, components_dropWhile (s.dropWhile (· != slash))]
    conv_lhs => rw [hse]
    refine components_append hene (fun hm => ?_) ?_
    · simpa using List.mem_takeWhile_imp hm
    · rcases dropWhile_eq_nil_or (p := (· != slash)) s with hn | ⟨c, r', hcr, hc⟩
      · exact Or.inl hn
      · exact Or.inr ⟨r', by rw [hcr, show c = slash by simpa using hc]⟩
  refine ⟨e, hcomp, ?_, ?_, ?_, components_eq_nil⟩
  · have hez : (0 : Byte) ∉ e := fun hm => hz (hsub 0 ((List.takeWhile_prefix _).mem hm))
    have hbytes : ∀ o < e.length, bytesOf s o = bytesOf e o := fun o ho => by
      unfold bytesOf
      conv_lhs => rw [hse]
      exact List.getD_append _ _ _ _ ho
    rw [nameOf]
    split
    · rename_i hlen
      refine nameFrom_eq_take hez (fun o h1 h2 => ?_) fun hlt => absurd hlt (by omega)
      rw [Nat.zero_add, blit_of_mem (Nat.zero_le o) (by omega), Nat.sub_zero, hbytes o h2]
    · rename_i hlen
      refine nameFrom_eq_take hez (fun o h1 h2 => ?_) fun _ => ?_
      · rw [Nat.zero_add, update_of_ne (by omega), blit_of_mem (Nat.zero_le o) (by omega),
          Nat.sub_zero, hbytes o h2]
      · rw [Nat.zero_add, update_self]
        rfl
  · have h1 : (s.dropWhile (· != slash)).length < s.length := by
      conv_rhs => rw [hse]
      rw [List.length_append]
      have := List.length_pos_iff.mpr hene
      omega
    have h2 : s.length ≤ path.length := (List.dropWhile_suffix _).length_le
    have h3 : ((s.dropWhile (· != slash)).dropWhile (· == slash)).length ≤
        (s.dropWhile (· != slash)).length := (List.dropWhile_suffix _).length_le
    omega
  · exact fun hm => hz (hsub 0 ((List.dropWhile_suffix _).mem ((List.dropWhile_suffix _).mem hm)))

variable {path : List Byte}

theorem skipelem_eq_none {name : Bytes} (h : skipelem path name = none) : components path = [] := by
  unfold skipelem at h
  dsimp only at h
  split at h
  · rename_i hnil
    rw [← components_dropWhile, hnil, components_nil]
  · cases h

/-- `skipelem` yields the components in order, each cut to `DIRSIZ` bytes. -/
theorem skipelems_eq (hz : (0 : Byte) ∉ path) (fuel : Nat) (name : Bytes)
    (hfuel : path.length < fuel) :
    skipelems fuel path name = (components path).map (List.take DIRSIZ) := by
  induction fuel generalizing path name with
  | zero => omega
  | succ fuel ih =>
    rw [skipelems]
    cases hs : skipelem path name with
    | none =>
      rw [skipelem_eq_none hs]
      rfl
    | some p =>
      obtain ⟨path', name'⟩ := p
      obtain ⟨c, hc, hn, hlt, hz', -⟩ := skipelem_eq_some hz hs
      dsimp only
      rw [hc, hn, List.map_cons, ih hz' name' (by omega)]

/-! ## `namex` -/

def idup (ip : Nat) : K Nat := do
  modify fun k => k.setInode ip ((k.inode ip).withRef ((k.inode ip).ref + 1))
  pure ip

/-- The loop of `namex` with `ip` in hand. It returns the inode, or none for zero, and the buffer
`name`. -/
def namexLoop (nameiparent : Bool) : Nat → Nat → List Byte → Bytes → K (Option Nat × Bytes)
  | 0, ip, _, name => pure (some ip, name)
  | fuel + 1, ip, path, name =>
    match skipelem path name with
    | none =>
      if nameiparent then do
        iput ip
        pure (none, name)
      else pure (some ip, name)
    | some (path, name) => do
      ilock ip
      let k ← get
      if (k.inode ip).din.type ≠ T_DIR then do
        iunlockput ip
        pure (none, name)
      else if nameiparent = true ∧ path = [] then do
        iunlock ip
        pure (some ip, name)
      else do
        let found ← dirlookup ip name
        match found with
        | none => do
          iunlockput ip
          pure (none, name)
        | some (next, _) => do
          iunlockput ip
          namexLoop nameiparent fuel next path name

def namex (cwd : Nat) (path : List Byte) (nameiparent : Bool) (name : Bytes) :
    K (Option Nat × Bytes) := do
  let ip ← if path.head? = some slash then iget ROOTDEV ROOTINO else idup cwd
  namexLoop nameiparent (path.length + 1) ip path name

/-! ## The graph of the directories -/

def child (D : DTable) (v : View) (i : Nat) (a : Name) : Option Nat := (entries (D i) v).toMap a

def walk (D : DTable) (v : View) : Nat → List Name → Option Nat
  | i, [] => some i
  | i, a :: as => if (D i).type = T_DIR then (child D v i a).bind fun t => walk D v t as else none

/-- The directory that the components before the last lead to, and the last component. -/
def walkParent (D : DTable) (v : View) : Nat → List Name → Option (Nat × Name)
  | _, [] => none
  | i, [a] => if (D i).type = T_DIR then some (i, a) else none
  | i, a :: b :: as =>
    if (D i).type = T_DIR then (child D v i a).bind fun t => walkParent D v t (b :: as) else none

/-- A walk fails if and only if a step is taken from an inode that is no directory, or to a name that
the directory does not bind. -/
theorem walk_eq_none_iff {D : DTable} {v : View} {i : Nat} {as : List Name} :
    walk D v i as = none ↔ ∃ before a after t, as = before ++ a :: after ∧
      walk D v i before = some t ∧ ((D t).type ≠ T_DIR ∨ child D v t a = none) := by
  induction as generalizing i with
  | nil => simp [walk]
  | cons a as ih =>
    rw [walk]
    constructor
    · intro h
      by_cases hd : (D i).type = T_DIR
      · rw [if_pos hd] at h
        cases hc : child D v i a with
        | none => exact ⟨[], a, as, i, rfl, rfl, Or.inr hc⟩
        | some t =>
          rw [hc, Option.bind_some] at h
          obtain ⟨before, b, after, t', rfl, hw, ho⟩ := ih.mp h
          refine ⟨a :: before, b, after, t', rfl, ?_, ho⟩
          rw [walk, if_pos hd, hc, Option.bind_some, hw]
      · exact ⟨[], a, as, i, rfl, rfl, Or.inl hd⟩
    · rintro ⟨before, b, after, t, he, hw, ho⟩
      cases before with
      | nil =>
        obtain ⟨rfl, rfl⟩ := List.cons.inj he
        obtain rfl : i = t := Option.some.inj hw
        rcases ho with ho | ho
        · rw [if_neg ho]
        · rw [ho]
          split <;> rfl
      | cons c before =>
        obtain ⟨rfl, rfl⟩ := List.cons.inj he
        rw [walk] at hw
        split at hw
        · rename_i hd
          rw [if_pos hd]
          cases hc : child D v i a with
          | none => rfl
          | some t' =>
            rw [hc, Option.bind_some] at hw
            rw [Option.bind_some]
            exact ih.mpr ⟨before, b, after, t, rfl, hw, ho⟩
        · cases hw

theorem walkParent_eq_some_iff {D : DTable} {v : View} {i t : Nat} {as : List Name} {a : Name} :
    walkParent D v i as = some (t, a) ↔
      ∃ before, as = before ++ [a] ∧ walk D v i before = some t ∧ (D t).type = T_DIR := by
  induction as generalizing i with
  | nil => simp [walkParent]
  | cons b as ih =>
    cases as with
    | nil =>
      rw [walkParent]
      constructor
      · intro h
        split at h
        · rename_i hd
          obtain ⟨rfl, rfl⟩ := Prod.mk.inj (Option.some.inj h)
          exact ⟨[], rfl, rfl, hd⟩
        · cases h
      · rintro ⟨before, he, hw, hd⟩
        cases before with
        | nil =>
          obtain rfl : b = a := by simpa using he
          obtain rfl : i = t := Option.some.inj hw
          rw [if_pos hd]
        | cons c before => simp at he
    | cons c as =>
      rw [walkParent]
      constructor
      · intro h
        split at h
        · rename_i hd
          obtain ⟨t', hc, hw⟩ := Option.bind_eq_some_iff.mp h
          obtain ⟨before, he, hw', hd'⟩ := ih.mp hw
          refine ⟨b :: before, by rw [he]; rfl, ?_, hd'⟩
          rw [walk, if_pos hd, hc, Option.bind_some, hw']
        · cases h
      · rintro ⟨before, he, hw, hd⟩
        cases before with
        | nil => simp at he
        | cons b' before =>
          obtain ⟨rfl, he'⟩ := List.cons.inj he
          rw [walk] at hw
          split at hw
          · rename_i hdi
            obtain ⟨t', hc, hw'⟩ := Option.bind_eq_some_iff.mp hw
            rw [if_pos hdi, hc, Option.bind_some]
            exact ih.mpr ⟨before, he', hw', hd⟩
          · cases hw

/-- Inode `i` has a link or a holder, so that the end of a walk through it does not free it. -/
def Pinned (k : Kernel) (D : DTable) (i : Nat) : Prop :=
  (D i).nlink ≠ 0 ∨ ∃ j < NINODE, 0 < (k.inode j).ref ∧ (k.inode j).inum = i

/-- A graph of directories, with nobody in the middle of an operation on one: every directory has the
shape of one, and its entries, as the root, are inodes in use. -/
structure Graph (k : Kernel) (D : DTable) (dirty : Set Nat) : Prop where
  sound : Sound k D dirty
  unlocked : ∀ j, (k.inode j).locked = false
  size : ∀ i, Live k.sb D i → (D i).type = T_DIR → (D i).size % direntSize = 0
  whole : ∀ i, Live k.sb D i → (D i).type = T_DIR → ∀ bn, bn * BSIZE < (D i).size →
    slotAddr D k.view (fileSlot i bn) ∉ dirty
  distinct : ∀ i, Live k.sb D i → (D i).type = T_DIR → (entries (D i) k.view).Distinct
  edges : ∀ i, Live k.sb D i → (D i).type = T_DIR → ∀ a t, child D k.view i a = some t →
    Live k.sb D t ∧ Pinned k D t
  root : Live k.sb D ROOTINO ∧ Pinned k D ROOTINO

/-- The state `k'` of a walk that started at `k`: it holds references to the entries `held` and the
lock of `lock`, and has otherwise only filled the inode cache. -/
structure Visit (k k' : Kernel) (D : DTable) (dirty : Set Nat) (held : List Nat)
    (lock : Option Nat) : Prop where
  sound : Sound k' D dirty
  sb : k'.sb = k.sb
  log : k'.log = k.log
  disk : k'.disk = k.disk
  view : ∀ c, c ∉ dirty → k'.view c = k.view c
  ref : ∀ j, (k'.inode j).ref = (k.inode j).ref + held.count j
  inum : ∀ j, 0 < (k.inode j).ref → (k'.inode j).inum = (k.inode j).inum
  locked : ∀ j, (k'.inode j).locked = decide (lock = some j)

section Visit
variable {k k' k1 k2 : Kernel} {D : DTable} {dirty : Set Nat} {ip i j : Nat} {R : Prop}
  {held : List Nat} {lock : Option Nat} {E : Panic → Kernel → Prop} {Q : Unit → Kernel → Prop}

theorem Graph.visit (h : Graph k D dirty) : Visit k k D dirty [] none :=
  ⟨h.sound, rfl, rfl, rfl, fun _ _ => rfl, fun _ => by simp, fun _ _ => rfl, fun j => by
    simp [h.unlocked j]⟩

section
variable (h : Visit k k1 D dirty held lock)
include h

theorem Visit.reads (hs : Sound k2 D dirty)
    (hr : Reads k1 k2 dirty) : Visit k k2 D dirty held lock :=
  ⟨hs, hr.1.sb.trans h.sb, hr.1.log.trans h.log, hr.1.disk.trans h.disk,
    fun c hc => (hr.2 c (Or.inl hc)).trans (h.view c hc), fun j => by rw [hr.1.inode]; exact h.ref j,
    fun j hj => by rw [hr.1.inode]; exact h.inum j hj, fun j => by rw [hr.1.inode]; exact h.locked j⟩

theorem Visit.setInode {x : Inode} {held' : List Nat} {lock' : Option Nat} (hs : Sound (k1.setInode ip x) D dirty)
    (href : x.ref = (k.inode ip).ref + held'.count ip)
    (hheld : ∀ j, j ≠ ip → held'.count j = held.count j)
    (hinum : 0 < (k.inode ip).ref → x.inum = (k.inode ip).inum)
    (hlock : x.locked = decide (lock' = some ip))
    (hlocks : ∀ j, j ≠ ip → (lock' = some j ↔ lock = some j)) :
    Visit k (k1.setInode ip x) D dirty held' lock' := by
  refine ⟨hs, h.sb, h.log, h.disk, h.view, fun j => ?_, fun j hj => ?_, fun j => ?_⟩
  · by_cases he : j = ip
    · subst he
      rw [setInode_inode, update_self, href]
    · rw [setInode_inode, update_of_ne he, hheld j he]
      exact h.ref j
  · by_cases he : j = ip
    · subst he
      rw [setInode_inode, update_self]
      exact hinum hj
    · rw [setInode_inode, update_of_ne he]
      exact h.inum j hj
  · by_cases he : j = ip
    · subst he
      rw [setInode_inode, update_self, hlock]
    · rw [setInode_inode, update_of_ne he, h.locked j]
      simp only [hlocks j he]

omit h in
theorem Taken.visit (ht : Taken k1 k2 ip i) (h : Visit k k1 D dirty held lock)
    (hs : Sound k2 D dirty) : Visit k k2 D dirty (ip :: held) lock := by
  obtain ⟨hip, ⟨href, hi, rfl⟩ | ⟨href, rfl⟩⟩ := ht
  · refine h.setInode hs ?_ (fun j hj => List.count_cons_of_ne (Ne.symm hj)) ?_ ?_ fun _ _ => Iff.rfl
    · rw [List.count_cons_self, ← Nat.add_assoc, ← h.ref ip]
      rfl
    · exact h.inum ip
    · exact h.locked ip
  · have hk := h.ref ip
    refine h.setInode hs ?_ (fun j hj => List.count_cons_of_ne (Ne.symm hj)) ?_ ?_ fun _ _ => Iff.rfl
    · rw [List.count_cons_self]
      simp only [Inode.recycled]
      omega
    · intro hpos
      omega
    · exact h.locked ip

theorem Visit.ref_pos (hm : ip ∈ held) : 0 < (k1.inode ip).ref := by
  have := List.count_pos_iff.mpr hm
  rw [h.ref ip]
  omega

theorem Visit.congr {held' : List Nat}
    (hc : ∀ j, held'.count j = held.count j) : Visit k k1 D dirty held' lock :=
  ⟨h.sound, h.sb, h.log, h.disk, h.view, fun j => by rw [hc]; exact h.ref j, h.inum, h.locked⟩

end

theorem Visit.ilock (h : Visit k k1 D dirty held none) (hip : ip < NINODE) (hm : ip ∈ held)
    (hi : (k1.inode ip).inum = i) (hl : Live k.sb D i) (hroom : R → k.log.lh.length < NBUF) :
    wp (ilock ip) (fun _ k2 => Visit k k2 D dirty held (some ip) ∧ Opened k2 ip i) (Fail R) k1 := by
  have href := h.ref_pos hm
  have hl1 : Live k1.sb D (k1.inode ip).inum := by
    rw [hi, h.sb]
    exact hl
  have hvisit : wp (Fs.ilock ip)
      (fun _ k2 => Sound k2 D dirty → Visit k k2 D dirty held (some ip)) (Fail R) k1 := by
    rw [Fs.ilock, wp_bind, wp_get, wp_bind, wp_check]
    refine ⟨fun hlt => ?_, fun _ => ?_⟩
    · rw [decide_eq_true_eq] at hlt
      omega
    rw [wp_bind, wp_check, h.locked ip]
    refine ⟨fun hf => by simp at hf, fun _ => ?_⟩
    rw [wp_bind, wp_set, wp_when]
    have hs2 : Sound (k1.setInode ip ((k1.inode ip).withLocked true)) D dirty :=
      h.sound.touch hip href rfl rfl rfl id
    have hv2 : Visit k (k1.setInode ip ((k1.inode ip).withLocked true)) D dirty held (some ip) :=
      h.setInode hs2 (h.ref ip) (fun _ _ => rfl) (h.inum ip) (by simp [Inode.withLocked])
        fun j hj => by simp [Ne.symm hj]
    refine ⟨fun _ => ?_, fun _ _ => hv2⟩
    rw [h.sound.table.dev ip hip href]
    refine wp_bread hs2.inv (by simp) (by simpa [h.log] using hroom) ?_
    intro bp k3 h3 q3 v3
    have hdin : getDInode (k3.view (iblock k1.sb (k1.inode ip).inum)) ((k1.inode ip).inum % IPB) =
        D (k1.inode ip).inum := by
      have hmeta := (h.sound.inv.geo.iblock_range hl1.2.1).2.trans (bmapstart_lt_datastart k1.sb)
      rw [v3 _ (Or.inl (h.sound.inv.not_dirty_meta hmeta))]
      exact h.sound.inv.dinode _ hl1.1 hl1.2.1 (by simp)
    rw [wp_bind, bufData_spec h3.cache List.mem_cons_self]
    refine wp_brelse h3 fun k4 h4 q4 v4 => ?_
    have q := q3.trans q4
    have hs4 : Sound k4 D dirty := ⟨h4, by rw [q.inode, q.sb]; exact hs2.table⟩
    have hv4 := hv2.reads hs4 ⟨q, fun c hc => (congrFun v4 c).trans (v3 c hc)⟩
    have hip4 : k4.inode ip = (k1.inode ip).withLocked true := by
      rw [q.inode, setInode_inode, update_self]
    rw [wp_bind, wp_modify, wp_check, hip4]
    refine ⟨fun ht => ?_, fun _ hs => ?_⟩
    · rw [decide_eq_true_eq, hdin] at ht
      exact absurd ht hl1.2.2
    · exact hv4.setInode hs (h.ref ip) (fun _ _ => rfl) (h.inum ip) (by simp [Inode.filled])
        fun _ _ => Iff.rfl
  refine wp_mono (wp_and (ilock_spec h.sound hip href hl1.1 hl1.2.1) hvisit) ?_ (fun _ _ he => he.2)
  rintro _ k2 ⟨⟨hs2, ho2, -⟩, hv2⟩
  exact ⟨hv2 hs2, hi ▸ ho2⟩

theorem Graph.dir (hg : Graph k D dirty) (h : Visit k k1 D dirty held lock) (ho : Opened k1 ip i)
    (ht : (D i).type = T_DIR) : Dir k1 D dirty ip i ∧ dirOf k1 ip = entries (D i) k.view := by
  have hl : Live k.sb D i := by
    rw [← h.sb]
    exact ho.live h.sound.table
  obtain ⟨hent, hslot⟩ := entries_of_view hg.sound hl (hg.size i hl ht) (hg.whole i hl ht) h.view
  have hdir : dirOf k1 ip = entries (D i) k.view := by rw [dirOf, ho.din h.sound.table, hent]
  refine ⟨⟨h.sound, ho, ht, hg.size i hl ht, fun bn hbn => ?_, ?_⟩, hdir⟩
  · rw [hslot]
    exact hg.whole i hl ht bn hbn
  · rw [hdir]
    exact hg.distinct i hl ht

theorem Visit.dirlookup (hg : Graph k D dirty) (h : Visit k k1 D dirty held (some ip))
    (ho : Opened k1 ip i) (ht : (D i).type = T_DIR) (name : Bytes)
    (hroom : R → k1.log.lh.length < NBUF ∧ emptyInode k1.inode ≠ none) : wp (dirlookup ip name)
      (fun r k2 => Opened k2 ip i ∧ match r with
        | none => Visit k k2 D dirty held (some ip) ∧ child D k.view i (nameOf name) = none
        | some (next, _) => Visit k k2 D dirty (next :: held) (some ip) ∧ next < NINODE ∧
            child D k.view i (nameOf name) = some (k2.inode next).inum)
      (Fail R) k1 := by
  obtain ⟨hd, he⟩ := hg.dir h ho ht
  refine wp_post (dirlookup_finds name hd hroom) ?_
  rintro r k2 ⟨hd2, -, hl⟩
  rw [he] at hl
  refine ⟨hd2.opened, ?_⟩
  cases r with
  | none => exact ⟨h.reads hd2.sound hl.1, SlotTable.toMap_eq_none.mpr hl.2⟩
  | some p =>
    obtain ⟨k3, j, t, hs3, hr3, ht3, hat, -⟩ := hl
    refine ⟨ht3.visit (h.reads hs3 hr3) hd2.sound, ht3.1, ?_⟩
    rw [ht3.entry.2, child]
    refine SlotTable.Distinct.toMap_eq ?_ hat
    rw [← he]
    exact hd.distinct

theorem Visit.iunlock (h : Visit k k1 D dirty held (some ip)) (hip : ip < NINODE) (hm : ip ∈ held)
    (hq : ∀ k2, Visit k k2 D dirty held none → (∀ j, (k2.inode j).inum = (k1.inode j).inum) →
      Q () k2) : wp (iunlock ip) Q E k1 := by
  have href := h.ref_pos hm
  rw [Fs.iunlock, wp_bind, wp_get, wp_bind, wp_check, h.locked ip]
  refine ⟨fun hf => ?_, fun _ => ?_⟩
  · simp only [decide_true, Bool.not_true, Bool.false_or, decide_eq_true_eq] at hf
    omega
  rw [wp_set]
  refine hq _ (h.setInode (h.sound.touch hip href rfl rfl rfl id) (h.ref ip) (fun _ _ => rfl)
    (h.inum ip) (by simp [Inode.withLocked]) fun j hj => by simp [Ne.symm hj]) fun j => ?_
  by_cases he : j = ip
  · subst he
    rw [setInode_inode, update_self]
    rfl
  · rw [setInode_inode, update_of_ne he]

/-- A reference that is dropped on the way is never the last one to an inode without links. -/
theorem Visit.iput
    (h : Visit k k1 D dirty (ip :: held) none) (hip : ip < NINODE) (hi : (k1.inode ip).inum = i)
    (hpin : Pinned k D i)
    (hq : ∀ k2, Visit k k2 D dirty held none → (∀ j, (k2.inode j).inum = (k1.inode j).inum) →
      Q () k2) : wp (iput ip) Q E k1 := by
  have href := h.ref_pos List.mem_cons_self
  rw [iput_of_not_last]
  · refine hq _ (h.setInode (h.sound.touch hip href rfl rfl rfl id) ?_
      (fun j hj => (List.count_cons_of_ne (Ne.symm hj)).symm) (h.inum ip) (h.locked ip)
      fun _ _ => Iff.rfl) fun j => ?_
    · have hr := h.ref ip
      rw [List.count_cons_self] at hr
      simp only [Inode.withRef]
      omega
    · by_cases he : j = ip
      · subst he
        rw [setInode_inode, update_self]
        rfl
      · rw [setInode_inode, update_of_ne he]
  · rintro ⟨h1, hv, hn⟩
    have hdin := (h.sound.table.valid ip hip href hv).2.2.1
    rw [hi] at hdin
    rcases hpin with hl | ⟨j, hj, hrj, hij⟩
    · rw [hdin] at hn
      exact hl hn
    · have hrj1 : 0 < (k1.inode j).ref := by
        rw [h.ref j]
        omega
      have hsame := h.sound.table.unique j hj ip hip hrj1 href (by rw [h.inum j hrj, hij, hi])
      subst hsame
      have hr := h.ref j
      rw [List.count_cons_self] at hr
      omega

theorem Visit.iunlockput
    (h : Visit k k1 D dirty (ip :: held) (some ip)) (ho : Opened k1 ip i) (hpin : Pinned k D i) :
    wp (iunlockput ip) (fun _ k2 => Visit k k2 D dirty held none ∧
      ∀ j, (k2.inode j).inum = (k1.inode j).inum) E k1 := by
  rw [Fs.iunlockput, wp_bind]
  refine h.iunlock ho.entry List.mem_cons_self fun k2 h2 hi2 => ?_
  refine h2.iput ho.entry (by rw [hi2, ho.inum]) hpin fun k3 h3 hi3 => ⟨h3, fun j => ?_⟩
  rw [hi3, hi2]

end Visit

/-! ## The loop -/

def pathNames (path : List Byte) : List Name := (components path).map (List.take DIRSIZ)

/-- What `namex` returns, when the walk is `as` from `i`. -/
def Resolved (nameiparent : Bool) (D : DTable) (v : View) (i : Nat) (as : List Name) (k' : Kernel)
    (r : Option Nat × Bytes) : Prop :=
  match nameiparent with
  | false => r.1.map (fun ip => (k'.inode ip).inum) = walk D v i as
  | true => r.1.map (fun ip => ((k'.inode ip).inum, nameOf r.2)) = walkParent D v i as

section Resolved
variable {nameiparent : Bool} {D : DTable} {v : View} {i t : Nat} {a : Name} {as : List Name}
  {k' : Kernel} {name : Bytes} {r : Option Nat × Bytes}

theorem resolved_of_not_dir (ht : (D i).type ≠ T_DIR) :
    Resolved nameiparent D v i (a :: as) k' (none, name) := by
  cases nameiparent with
  | false => simp [Resolved, walk, ht]
  | true => cases as <;> simp [Resolved, walkParent, ht]

theorem resolved_of_missing (ht : (D i).type = T_DIR) (hc : child D v i a = none)
    (hlast : ¬ (nameiparent = true ∧ as = [])) : Resolved nameiparent D v i (a :: as) k' (none, name) := by
  cases nameiparent with
  | false => simp [Resolved, walk, ht, hc]
  | true =>
    cases as with
    | nil => exact absurd ⟨rfl, rfl⟩ hlast
    | cons b as => simp [Resolved, walkParent, ht, hc]

theorem Resolved.step (hr : Resolved nameiparent D v t as k' r) (ht : (D i).type = T_DIR)
    (hc : child D v i a = some t) (hlast : ¬ (nameiparent = true ∧ as = [])) :
    Resolved nameiparent D v i (a :: as) k' r := by
  cases nameiparent with
  | false => simpa [Resolved, walk, ht, hc] using hr
  | true =>
    cases as with
    | nil => exact absurd ⟨rfl, rfl⟩ hlast
    | cons b as => simpa [Resolved, walkParent, ht, hc] using hr

end Resolved

/-- What `namex` needs in order not to run out of anything: a buffer to read into, and two free entries
in the inode table, for the inode in hand and the next. -/
def WalkRoom (k : Kernel) : Prop :=
  k.log.lh.length < NBUF ∧
    ∃ a < NINODE, ∃ b < NINODE, a ≠ b ∧ (k.inode a).ref = 0 ∧ (k.inode b).ref = 0

theorem emptyInode_ne_none {inode : Nat → Inode} {j : Nat} (hj : j < NINODE) (hr : (inode j).ref = 0) :
    emptyInode inode ≠ none := by
  intro hn
  have := List.find?_eq_none.mp hn j (List.mem_range.mpr hj)
  simp [hr] at this

theorem WalkRoom.next {k k1 : Kernel} {D : DTable} {dirty : Set Nat} {ip : Nat} {lock : Option Nat}
    (hroom : WalkRoom k) (h : Visit k k1 D dirty [ip] lock) :
    k1.log.lh.length < NBUF ∧ emptyInode k1.inode ≠ none := by
  obtain ⟨hlog, a, ha, b, hb, hab, hra, hrb⟩ := hroom
  refine ⟨by rw [h.log]; exact hlog, ?_⟩
  by_cases he : a = ip
  · have hz : [ip].count b = 0 := List.count_eq_zero.mpr (by simp [← he, Ne.symm hab])
    exact emptyInode_ne_none hb (by rw [h.ref b, hrb, hz])
  · have hz : [ip].count a = 0 := List.count_eq_zero.mpr (by simp [he])
    exact emptyInode_ne_none ha (by rw [h.ref a, hra, hz])

theorem namexLoop_resolves {k k1 : Kernel} {D : DTable} {dirty : Set Nat} {ip i : Nat}
    {nameiparent : Bool} {R : Prop} (hg : Graph k D dirty) (fuel : Nat)
    (name : Bytes) (hfuel : path.length < fuel) (hz : (0 : Byte) ∉ path)
    (h : Visit k k1 D dirty [ip] none) (hip : ip < NINODE) (hi : (k1.inode ip).inum = i)
    (hl : Live k.sb D i) (hpin : Pinned k D i) (hroom : R → WalkRoom k) :
    wp (namexLoop nameiparent fuel ip path name)
      (fun r k' => Visit k k' D dirty r.1.toList none ∧
        Resolved nameiparent D k.view i (pathNames path) k' r)
      (Fail R) k1 := by
  induction fuel generalizing k1 ip i path name with
  | zero => omega
  | succ fuel ih =>
    rw [namexLoop]
    cases hs : skipelem path name with
    | none =>
      have hnil : pathNames path = [] := by rw [pathNames, skipelem_eq_none hs, List.map_nil]
      rw [hnil]
      cases nameiparent with
      | false => exact ⟨h, by simp [Resolved, walk, hi]⟩
      | true =>
        dsimp only
        rw [if_pos rfl, wp_bind]
        exact h.iput hip hi hpin fun k2 h2 _ => ⟨h2, rfl⟩
    | some p =>
      obtain ⟨path', name'⟩ := p
      obtain ⟨c, hc, hn, hlt, hz', hlast⟩ := skipelem_eq_some hz hs
      have hcons : pathNames path = nameOf name' :: pathNames path' := by
        rw [pathNames, hc, List.map_cons, hn]
        rfl
      have hend : pathNames path' = [] ↔ path' = [] := by rw [pathNames, List.map_eq_nil_iff, hlast]
      rw [hcons]
      refine wp_then (h.ilock hip List.mem_cons_self hi hl fun hR => (hroom hR).1) ?_
      rintro _ k2 ⟨h2, ho2⟩
      rw [wp_bind, wp_get, ho2.din h2.sound.table]
      refine wp_ite (fun ht => ?_) fun ht => ?_
      · refine wp_then (h2.iunlockput ho2 hpin) ?_
        rintro _ k3 ⟨h3, -⟩
        exact ⟨h3, resolved_of_not_dir ht⟩
      rw [ne_eq, not_not] at ht
      refine wp_ite (fun hstop => ?_) fun hgo => ?_
      · obtain ⟨rfl, rfl⟩ := hstop
        rw [wp_bind]
        refine h2.iunlock hip List.mem_cons_self fun k3 h3 hi3 => ⟨h3, ?_⟩
        rw [hend.mpr rfl]
        simp [Resolved, walkParent, ht, hi3, ho2.inum]
      rw [← hend] at hgo
      refine wp_then (h2.dirlookup hg ho2 ht name' fun hR => (hroom hR).next h2) ?_
      rintro found k3 ⟨ho3, hfound⟩
      cases found with
      | none =>
        obtain ⟨h3, hmiss⟩ := hfound
        refine wp_then (h3.iunlockput ho3 hpin) ?_
        rintro _ k4 ⟨h4, -⟩
        exact ⟨h4, resolved_of_missing ht hmiss hgo⟩
      | some p =>
        obtain ⟨next, off⟩ := p
        obtain ⟨h3, hnext, hchild⟩ := hfound
        obtain ⟨hlt', hpin'⟩ := hg.edges i hl ht _ _ hchild
        have hswap : Visit k k3 D dirty [ip, next] (some ip) := h3.congr fun j =>
          (List.Perm.swap next ip []).count_eq j
        refine wp_then (hswap.iunlockput ho3 hpin) ?_
        rintro _ k4 ⟨h4, hi4⟩
        refine wp_post (ih name' (by omega) hz' h4 hnext (hi4 next) hlt' hpin') ?_
        rintro r k5 ⟨h5, hr5⟩
        exact ⟨h5, hr5.step ht hchild hgo⟩

/-- Where a walk starts: at the root for a path with a leading slash, else at the current directory. -/
def startInode (k : Kernel) (cwd : Nat) (path : List Byte) : Nat :=
  if path.head? = some slash then ROOTINO else (k.inode cwd).inum

theorem namex_resolves {k : Kernel} {D : DTable} {dirty : Set Nat} {cwd : Nat}
    {R : Prop} (nameiparent : Bool) (name : Bytes) (hg : Graph k D dirty) (hcwd : cwd < NINODE)
    (href : 0 < (k.inode cwd).ref) (hl : Live k.sb D (k.inode cwd).inum) (hz : (0 : Byte) ∉ path)
    (hroom : R → WalkRoom k) : wp (namex cwd path nameiparent name)
      (fun r k' => Visit k k' D dirty r.1.toList none ∧
        Resolved nameiparent D k.view (startInode k cwd path) (pathNames path) k' r)
      (Fail R) k := by
  have hgo : ∀ ip k1, Taken k k1 ip (startInode k cwd path) → Sound k1 D dirty →
      Live k.sb D (startInode k cwd path) → Pinned k D (startInode k cwd path) →
      wp (namexLoop nameiparent (path.length + 1) ip path name)
        (fun r k' => Visit k k' D dirty r.1.toList none ∧
          Resolved nameiparent D k.view (startInode k cwd path) (pathNames path) k' r)
        (Fail R) k1 := fun ip k1 ht hs hli hpin =>
    namexLoop_resolves hg _ name (Nat.lt_succ_self _) hz (ht.visit hg.visit hs) ht.1 ht.entry.2 hli hpin
      hroom
  rw [namex, startInode] at *
  split
  · rename_i habs
    simp only [if_pos habs] at hgo
    refine wp_seq (wp_and (iget_spec hg.sound) (iget_taken (R := R) fun hR => ?_)) ?_
      (fun _ _ he => he.2)
    · obtain ⟨-, a, ha, -, -, -, hra, -⟩ := hroom hR
      exact emptyInode_ne_none ha hra
    · rintro ip k1 ⟨⟨hs1, -⟩, ht1⟩
      exact hgo ip k1 ht1 hs1 hg.root.1 hg.root.2
  · rename_i hrel
    simp only [if_neg hrel] at hgo
    rw [idup, wp_bind, wp_bind, wp_modify]
    exact hgo cwd _ ⟨hcwd, Or.inl ⟨href, rfl, rfl⟩⟩ (hg.sound.touch hcwd href rfl rfl rfl id) hl
      (Or.inr ⟨cwd, hcwd, href, rfl⟩)

/-- Path resolution follows the components. `skipelem` yields the segments between slashes, each cut to
`DIRSIZ` bytes. From any graph of directories, `namex` for an inode returns the one that the walk along
them leads to, and zero if and only if a step leaves from no directory or finds no entry; for a parent
it returns the directory before the last component, with that component in the buffer, and zero if
there is none. It ends with one more reference to what it returns, none otherwise, and no lock. -/
theorem namex_follows_components {k : Kernel} {D : DTable} {dirty : Set Nat} {cwd : Nat}
    {path : List Byte} (hg : Graph k D dirty) (hcwd : cwd < NINODE) (href : 0 < (k.inode cwd).ref)
    (hl : Live k.sb D (k.inode cwd).inum) (hz : (0 : Byte) ∉ path) (name : Bytes) :
    skipelems (path.length + 1) path name = (components path).map (List.take DIRSIZ) ∧
    wp (namex cwd path false name)
      (fun r k' => Visit k k' D dirty r.1.toList none ∧ r.1.map (fun ip => (k'.inode ip).inum) =
        walk D k.view (startInode k cwd path) (pathNames path))
      (Fail (WalkRoom k)) k ∧
    (walk D k.view (startInode k cwd path) (pathNames path) = none ↔
      ∃ before a after t, pathNames path = before ++ a :: after ∧
        walk D k.view (startInode k cwd path) before = some t ∧
        ((D t).type ≠ T_DIR ∨ child D k.view t a = none)) ∧
    wp (namex cwd path true name)
      (fun r k' => Visit k k' D dirty r.1.toList none ∧
        ∀ t a, r.1.map (fun ip => ((k'.inode ip).inum, nameOf r.2)) = some (t, a) ↔
          ∃ before, pathNames path = before ++ [a] ∧
            walk D k.view (startInode k cwd path) before = some t ∧ (D t).type = T_DIR)
      (Fail (WalkRoom k)) k := by
  refine ⟨skipelems_eq hz _ name (Nat.lt_succ_self _),
    namex_resolves false name hg hcwd href hl hz id, walk_eq_none_iff, ?_⟩
  refine wp_mono (namex_resolves true name hg hcwd href hl hz id) ?_ (fun _ _ he => he)
  rintro r k' ⟨hv, hr⟩
  refine ⟨hv, fun t a => ?_⟩
  rw [show r.1.map (fun ip => ((k'.inode ip).inum, nameOf r.2)) = _ from hr, walkParent_eq_some_iff]

/-- The root directory has the directory `d`, and this has the file `f`. -/
def treeImage : FileImage :=
  [(T_DIR, direntBlock [(1, [46]), (1, [46, 46]), (2, [100])]),
    (T_DIR, direntBlock [(2, [46]), (1, [46, 46]), (3, [102])]), (2, fun _ => 0)]

theorem treeImage_small : treeImage.Small := ⟨by decide, by decide, by decide⟩

/-- Nobody is in a directory of the image. -/
def treeKernel : Kernel :=
  (imageKernel treeImage).setInode 0 ⟨ROOTDEV, 1, 1, false, true, imageTable treeImage 1⟩

theorem treeKernel_view : treeKernel.view = imageDisk treeImage := imageKernel_view _

theorem entries_tree {i : Nat} (h1 : 1 ≤ i) (h3 : i ≤ 3) (ht : (imageTable treeImage i).type = T_DIR) :
    (entries (imageTable treeImage i) treeKernel.view).Distinct ∧
      ∀ s ∈ entries (imageTable treeImage i) treeKernel.view, ∀ x ∈ s, 1 ≤ x.2 ∧ x.2 ≤ 3 := by
  rw [treeKernel_view]
  obtain rfl | rfl | rfl : i = 1 ∨ i = 2 ∨ i = 3 := by omega
  · exact ⟨SlotTable.distinct_of_pairwise (by decide +kernel), by decide +kernel⟩
  · exact ⟨SlotTable.distinct_of_pairwise (by decide +kernel), by decide +kernel⟩
  · exact absurd ht (by decide)

theorem treeKernel_graph : Graph treeKernel (imageTable treeImage) ∅ := by
  have hlive : ∀ {i}, Live treeKernel.sb (imageTable treeImage) i ↔ 1 ≤ i ∧ i ≤ 3 := treeImage_small.live
  have hpin : ∀ {i}, 1 ≤ i → i ≤ 3 → Pinned treeKernel (imageTable treeImage) i := by
    intro i h1 h3
    obtain rfl | rfl | rfl : i = 1 ∨ i = 2 ∨ i = 3 := by omega
    all_goals exact Or.inl (by decide)
  have hinv : FsInv treeKernel (imageTable treeImage) [] ∅ [] none :=
    (imageKernel_inv treeImage_small).setInode _ _
  have htable : Table treeKernel.inode treeKernel.sb.ninodes (imageTable treeImage) :=
    (imageKernel_table treeImage_small).touch (by decide) (by decide) rfl rfl rfl id
  refine ⟨⟨hinv, htable⟩, fun j => ?_, fun i hi ht => ?_, fun _ _ _ _ _ => id, fun i hi ht => ?_,
    fun i hi ht a t hc => ?_, hlive.mpr (by decide), hpin (by decide) (by decide)⟩
  · unfold treeKernel
    by_cases hj : j = 0
    · rw [hj, setInode_inode, update_self]
    · rw [setInode_inode, update_of_ne hj]
      simp [imageKernel, hj]
  · obtain ⟨h1, h3⟩ := hlive.mp hi
    obtain rfl | rfl | rfl : i = 1 ∨ i = 2 ∨ i = 3 := by omega
    all_goals rfl
  · obtain ⟨h1, h3⟩ := hlive.mp hi
    exact (entries_tree h1 h3 ht).1
  · obtain ⟨h1, h3⟩ := hlive.mp hi
    obtain ⟨j, hj⟩ := SlotTable.at_of_toMap hc
    obtain ⟨ht1, ht3⟩ := (entries_tree h1 h3 ht).2 _ (List.mem_of_getElem? hj) _ rfl
    exact ⟨hlive.mpr ⟨ht1, ht3⟩, hpin ht1 ht3⟩

/-- The path `/d//../d/f` leads to the file, `/d/f/.` leads nowhere, and the parent of `d/../x` is the
root. -/
theorem namex_follows_components_tree :
    (∃ ip name k', namex 0 [47, 100, 47, 47, 46, 46, 47, 100, 47, 102] false (fun _ => 0) treeKernel =
      .ok (some ip, name) k' ∧ (k'.inode ip).inum = 3 ∧ ∀ j, (k'.inode j).locked = false) ∧
    (∃ name k', namex 0 [47, 100, 47, 102, 47, 46] false (fun _ => 0) treeKernel =
      .ok (none, name) k' ∧ ∀ j, (k'.inode j).locked = false) ∧
    ∃ ip name k', namex 0 [100, 47, 46, 46, 47, 120] true (fun _ => 0) treeKernel =
      .ok (some ip, name) k' ∧ (k'.inode ip).inum = ROOTINO ∧ nameOf name = [120] := by
  have hg := treeKernel_graph
  have hl : Live treeKernel.sb (imageTable treeImage) (treeKernel.inode 0).inum := hg.root.1
  have hinum : (treeKernel.inode 0).inum = ROOTINO := rfl
  have href : 0 < (treeKernel.inode 0).ref := by decide
  have hroom : WalkRoom treeKernel :=
    ⟨by decide, 1, by decide, 2, by decide, by decide, by decide, by decide⟩
  have hwalk : walk (imageTable treeImage) treeKernel.view ROOTINO
        (pathNames [47, 100, 47, 47, 46, 46, 47, 100, 47, 102]) = some 3 ∧
      walk (imageTable treeImage) treeKernel.view ROOTINO (pathNames [47, 100, 47, 102, 47, 46]) = none ∧
      walk (imageTable treeImage) treeKernel.view ROOTINO [[100], [46, 46]] = some ROOTINO := by
    rw [treeKernel_view]
    decide +kernel
  generalize treeKernel = k at hg hl hinum href hroom hwalk ⊢
  obtain ⟨hfile, hnone, hparent⟩ := hwalk
  refine ⟨?_, ?_, ?_⟩
  · obtain ⟨-, hnamex, -, -⟩ := namex_follows_components hg (by decide) href hl
      (show (0 : Byte) ∉ [47, 100, 47, 47, 46, 46, 47, 100, 47, 102] by decide) fun _ => 0
    obtain ⟨r, k', hrun, hv, hr⟩ := ok_of_wp (wp_mono hnamex (fun _ _ hq => hq)
      fun _ _ he => absurd hroom he.1)
    rw [startInode, if_pos (by decide), hfile] at hr
    obtain ⟨_ | ip, name⟩ := r
    · cases hr
    · exact ⟨ip, name, k', hrun, Option.some.inj hr, fun j => by simp [hv.locked j]⟩
  · obtain ⟨-, hnamex, -, -⟩ := namex_follows_components hg (by decide) href hl
      (show (0 : Byte) ∉ [47, 100, 47, 102, 47, 46] by decide) fun _ => 0
    obtain ⟨r, k', hrun, hv, hr⟩ := ok_of_wp (wp_mono hnamex (fun _ _ hq => hq)
      fun _ _ he => absurd hroom he.1)
    rw [startInode, if_pos (by decide), hnone] at hr
    obtain ⟨_ | ip, name⟩ := r
    · exact ⟨name, k', hrun, fun j => by simp [hv.locked j]⟩
    · cases hr
  · obtain ⟨-, -, -, hnamex⟩ := namex_follows_components hg (by decide) href hl
      (show (0 : Byte) ∉ [100, 47, 46, 46, 47, 120] by decide) fun _ => 0
    obtain ⟨r, k', hrun, -, hr⟩ := ok_of_wp (wp_mono hnamex (fun _ _ hq => hq)
      fun _ _ he => absurd hroom he.1)
    rw [startInode, if_neg (by decide), hinum] at hr
    have hx := (hr ROOTINO [120]).mpr ⟨[[100], [46, 46]], by decide, hparent, rfl⟩
    obtain ⟨_ | ip, name⟩ := r
    · cases hx
    · obtain ⟨hi, hname⟩ := Prod.mk.inj (Option.some.inj hx)
      exact ⟨ip, name, k', hrun, hi, hname⟩

end Xv6.Fs
