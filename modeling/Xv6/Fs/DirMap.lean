import Xv6.Foundation.Run
import Xv6.Foundation.SlotMap
import Xv6.Fs.ByteStrings
import Xv6.Fs.Directories

/-!
# Directories as finite maps

The entries of a directory are a table of slots: an entry is free if its inode number is zero, and
otherwise binds its name, the bytes before the first zero among `DIRSIZ`. `dirlookup` reads the
table, `dirlink` puts a binding into it and `sys_unlink` clears a slot, so as long as no name is
bound twice the directory is a finite map and stays one.
-/

namespace Xv6.Fs

open Xv6.Foundation Xv6.Disk Function

set_option autoImplicit false

/-! ## Names -/

abbrev Name := List Byte

/-- The bytes from `i` on before the first zero, at most `n` of them. -/
def nameFrom (b : Bytes) : Nat → Nat → Name
  | 0, _ => []
  | n + 1, i => if b i = 0 then [] else b i :: nameFrom b n (i + 1)

def nameOf (b : Bytes) : Name := nameFrom b DIRSIZ 0

theorem strncmpZero_iff (s t : Bytes) (n i : Nat) :
    strncmpZero s t n i = true ↔ nameFrom s n i = nameFrom t n i := by
  induction n generalizing i with
  | zero => simp [strncmpZero, nameFrom]
  | succ n ih =>
    rw [strncmpZero, nameFrom, nameFrom]
    by_cases hs : s i = 0
    · by_cases ht : t i = 0
      · rw [if_neg fun h => h.1 hs, if_pos hs, if_pos ht, beq_iff_eq, hs, ht]
        simp
      · rw [if_neg fun h => h.1 hs, if_pos hs, if_neg ht, beq_iff_eq, hs]
        exact ⟨fun h => absurd h.symm ht, fun h => by cases h⟩
    · by_cases ht : t i = 0
      · rw [if_neg fun h => hs (h.2.trans ht), if_neg hs, if_pos ht, beq_iff_eq, ht]
        exact ⟨fun h => absurd h hs, fun h => by cases h⟩
      · rw [if_neg hs, if_neg ht, List.cons.injEq]
        by_cases he : s i = t i
        · rw [if_pos ⟨hs, he⟩, ih]
          simp [he]
        · rw [if_neg fun h => he h.2, beq_iff_eq]
          simp [he]

theorem namecmp_iff {s t : Bytes} : namecmp s t = true ↔ nameOf s = nameOf t :=
  strncmpZero_iff s t DIRSIZ 0

theorem nameFrom_congr {s t : Bytes} {n i : Nat} (h : ∀ o, i ≤ o → o < i + n → s o = t o) :
    nameFrom s n i = nameFrom t n i := by
  induction n generalizing i with
  | zero => rfl
  | succ n ih =>
    rw [nameFrom, nameFrom, h i le_rfl (by omega), ih fun o h1 h2 => h o (by omega) (by omega)]

/-- The zeros that `strncpy` pads with come after the end of the name. -/
theorem nameFrom_strncpy (t : Bytes) {n i : Nat} (h : ∀ j < i, t j ≠ 0) :
    nameFrom (strncpy t) n i = nameFrom t n i := by
  induction n generalizing i with
  | zero => rfl
  | succ n ih =>
    have hi : strncpy t i = t i := by
      unfold strncpy
      rw [if_neg]
      simpa using h
    rw [nameFrom, nameFrom, hi]
    split
    · rfl
    · rename_i hz
      rw [ih fun j hj => ?_]
      rcases Nat.lt_succ_iff_lt_or_eq.mp hj with hj | rfl
      · exact h j hj
      · exact hz

/-! ## Entries -/

/-- What a `struct dirent` binds. -/
def entryOf (de : Bytes) : Option (Name × Nat) :=
  if direntInum de = 0 then none else some (nameOf (direntName de), direntInum de)

theorem entryOf_congr {d e : Bytes} (h : ∀ o < direntSize, d o = e o) : entryOf d = entryOf e := by
  have hi : direntInum d = direntInum e :=
    getLE_congr fun i _ hi => h i (hi.trans (by decide))
  have hn : nameOf (direntName d) = nameOf (direntName e) := nameFrom_congr fun o _ ho => h _ (by
    have hs : DIRSIZ + 2 = direntSize := rfl
    omega)
  rw [entryOf, entryOf, hi, hn]

theorem entryOf_zero : entryOf (fun _ => 0) = none := if_pos (getLE_zero 0 2)

theorem direntInum_dirent {i : Nat} (name : Bytes) (hi : i < 2 ^ 16) :
    direntInum (dirent i name) = i := by
  have h : getLE (dirent i name) 0 2 = getLE (putLE (fun _ => 0) 0 2 i) 0 2 := by
    refine getLE_congr fun o _ ho => ?_
    rw [dirent, putLE, if_pos (by omega), if_pos (by omega), Nat.sub_zero]
  rw [direntInum, h, getLE_putLE_self _ _ _ _ (by simpa using hi)]

theorem entryOf_dirent {i : Nat} (name : Bytes) (h0 : 0 < i) (hi : i < 2 ^ 16) :
    entryOf (dirent i (strncpy name)) = some (nameOf name, i) := by
  have hname : direntName (dirent i (strncpy name)) = strncpy name := by
    funext o
    simp [direntName, dirent]
  rw [entryOf, direntInum_dirent _ hi, if_neg (by omega), hname, nameOf, nameFrom_strncpy _ (by simp),
    nameOf]

theorem lookup_match_iff {name de : Bytes} :
    direntInum de ≠ 0 ∧ namecmp name (direntName de) = true ↔
      entryOf de = some (nameOf name, direntInum de) := by
  unfold entryOf
  rw [namecmp_iff]
  by_cases h : direntInum de = 0
  · simp [h]
  · simp [h, eq_comm]

def direntAt (x : DInode) (v : View) (j : Nat) : Bytes := fun o =>
  v (blockAt x v ((direntSize * j + o) / BSIZE)) ((direntSize * j + o) % BSIZE)

def entries (x : DInode) (v : View) : SlotTable Name Nat :=
  (List.range (x.size / direntSize)).map fun j => entryOf (direntAt x v j)

def dirOf (k : Kernel) (dp : Nat) : SlotTable Name Nat := entries (k.inode dp).din k.view

/-- An open directory: its size is a multiple of that of an entry, no block of it has been torn by a
failed copy, and no name is bound twice. -/
structure Dir (k : Kernel) (D : DTable) (dirty : Set Nat) (dp inum : Nat) : Prop where
  sound : Sound k D dirty
  opened : Opened k dp inum
  type : (D inum).type = T_DIR
  size : (D inum).size % direntSize = 0
  whole : ∀ bn, bn * BSIZE < (D inum).size → slotAddr D k.view (fileSlot inum bn) ∉ dirty
  distinct : (dirOf k dp).Distinct

/-- Blocks were read, and nothing else happened. -/
def Reads (k k' : Kernel) (dirty : Set Nat) : Prop := Quiet k k' ∧ Kept k k' dirty []

section Dir
variable {k k' k1 k2 : Kernel} {D D' : DTable} {dirty dirty' : Set Nat} {dp inum ip i j : Nat}
  {R : Prop} {src : Bytes} {E : Panic → Kernel → Prop}

theorem Reads.refl (k : Kernel) (dirty : Set Nat) : Reads k k dirty :=
  ⟨Quiet.refl k, fun _ _ => rfl⟩

theorem Reads.trans (h : Reads k k1 dirty) (h' : Reads k1 k2 dirty) : Reads k k2 dirty :=
  ⟨h.1.trans h'.1, fun c hc => (h'.2 c hc).trans (h.2 c hc)⟩

theorem dirOf_eq (ho : Opened k dp inum) (ht : Table k.inode k.sb.ninodes D) :
    dirOf k dp = (List.range ((D inum).size / direntSize)).map fun j =>
      entryOf fun o => fileByte D k.view inum (direntSize * j + o) := by
  rw [dirOf, entries, ho.din ht]
  simp only [fileByte, slotAddr_fileSlot_eq]
  rfl

theorem getElem?_dirOf (ho : Opened k dp inum) (ht : Table k.inode k.sb.ninodes D) (j : Nat) :
    (dirOf k dp)[j]? = if j < (D inum).size / direntSize then
      some (entryOf fun o => fileByte D k.view inum (direntSize * j + o)) else none := by
  rw [dirOf_eq ho ht, List.getElem?_map]
  split
  · rename_i hj
    rw [List.getElem?_range hj]
    rfl
  · rename_i hj
    rw [List.getElem?_eq_none (by rw [List.length_range]; omega)]
    rfl

theorem length_dirOf (ho : Opened k dp inum) (ht : Table k.inode k.sb.ninodes D) :
    (dirOf k dp).length = (D inum).size / direntSize := by
  rw [dirOf_eq ho ht, List.length_map, List.length_range]

theorem entries_of_view {v : View} (hs : Sound k D dirty) (hl : Live k.sb D inum)
    (hsize : (D inum).size % direntSize = 0)
    (hwhole : ∀ bn, bn * BSIZE < (D inum).size → slotAddr D k.view (fileSlot inum bn) ∉ dirty)
    (hview : ∀ c, c ∉ dirty → v c = k.view c) : entries (D inum) v = entries (D inum) k.view ∧
      ∀ bn, slotAddr D v (fileSlot inum bn) = slotAddr D k.view (fileSlot inum bn) := by
  have hslot : ∀ bn, slotAddr D v (fileSlot inum bn) = slotAddr D k.view (fileSlot inum bn) :=
    fun bn => slotAddr_congr fun _ =>
      hview _ (hs.inv.not_dirty_indirect (by rw [fileSlot_inode]; exact hl))
  refine ⟨List.map_congr_left fun j hj => entryOf_congr fun o ho => ?_, hslot⟩
  rw [List.mem_range] at hj
  have hlt : direntSize * j + o < (D inum).size := by
    unfold direntSize at *
    omega
  have hbn : (direntSize * j + o) / BSIZE * BSIZE < (D inum).size :=
    lt_of_le_of_lt (Nat.div_mul_le_self _ BSIZE) hlt
  rw [direntAt, direntAt, ← slotAddr_fileSlot_eq (i := inum), ← slotAddr_fileSlot_eq (i := inum), hslot,
    hview _ (hwhole _ hbn)]

namespace Dir

variable (h : Dir k D dirty dp inum)
include h

theorem live : Live k.sb D inum := h.opened.live h.sound.table

theorem holes : HoleFree D k.view inum :=
  h.sound.inv.holes inum h.live (by simp)

theorem size_eq : (D inum).size = direntSize * (dirOf k dp).length := by
  rw [length_dirOf h.opened h.sound.table, Nat.mul_div_cancel' (Nat.dvd_of_mod_eq_zero h.size)]

theorem offset_lt : direntSize * j < (D inum).size ↔ j < (dirOf k dp).length := by
  rw [h.size_eq]
  exact Nat.mul_lt_mul_left (by decide)

theorem block {o : Nat} (ho : o < (D inum).size) :
    slotAddr D k.view (fileSlot inum (o / BSIZE)) ≠ 0 ∧
      slotAddr D k.view (fileSlot inum (o / BSIZE)) ∉ dirty := by
  have hlt : o / BSIZE * BSIZE < (D inum).size := lt_of_le_of_lt (Nat.div_mul_le_self o BSIZE) ho
  exact ⟨h.holes _ hlt, h.whole _ hlt⟩

theorem frame (hs : Sound k' D dirty) (ho : Opened k' dp inum)
    (hview : ∀ c, c ∉ dirty → k'.view c = k.view c) :
    Dir k' D dirty dp inum ∧ dirOf k' dp = dirOf k dp := by
  obtain ⟨hent, hslot⟩ := entries_of_view h.sound h.live h.size h.whole hview
  have hdir : dirOf k' dp = dirOf k dp := by
    rw [dirOf, dirOf, ho.din hs.table, h.opened.din h.sound.table, hent]
  refine ⟨⟨hs, ho, h.type, h.size, fun bn hbn => ?_, ?_⟩, hdir⟩
  · rw [hslot]
    exact h.whole bn hbn
  · rw [hdir]
    exact h.distinct

theorem reads (hs : Sound k' D dirty) (hr : Reads k k' dirty) :
    Dir k' D dirty dp inum ∧ dirOf k' dp = dirOf k dp :=
  h.frame hs (h.opened.quiet hr.1) fun c hc => hr.2 c (Or.inl hc)

theorem getElem?_written
    (hw : FileWritten k k' D D' dp inum (direntSize * j) direntSize True dirty dirty')
    (hex : Exact k k' D D' inum src (direntSize * j) direntSize dirty dirty')
    (hj : j ≤ (dirOf k dp).length) (i : Nat) :
    (dirOf k' dp)[i]? = if i = j then some (entryOf src) else (dirOf k dp)[i]? := by
  have hsize : (D' inum).size / direntSize = max (dirOf k dp).length (j + 1) := by
    rw [hw.same]
    simp only [h.size_eq, direntSize]
    omega
  rw [getElem?_dirOf (h.opened.of_entry hw.entry) hw.table, hsize]
  by_cases hij : i = j
  · subst hij
    rw [if_pos (by omega), if_pos rfl]
    congr 1
    refine entryOf_congr fun o ho => ?_
    rw [hex.bytes _ (by omega) (by omega), Nat.add_sub_cancel_left]
  · rw [if_neg hij, getElem?_dirOf h.opened h.sound.table, ← length_dirOf h.opened h.sound.table]
    by_cases hi : i < (dirOf k dp).length
    · rw [if_pos (by omega), if_pos hi]
      congr 1
      refine entryOf_congr fun o ho => ?_
      have hlt : direntSize * i + o < (D inum).size := by
        rw [h.size_eq]
        unfold direntSize at *
        omega
      exact hex.rest _ (by unfold direntSize at *; omega) (h.block hlt).1 (h.block hlt).2
    · rw [if_neg (by omega), if_neg hi]

theorem of_written
    (hw : FileWritten k k' D D' dp inum (direntSize * j) direntSize True dirty dirty')
    (hex : Exact k k' D D' inum src (direntSize * j) direntSize dirty dirty')
    (hj : j ≤ (dirOf k dp).length) (hd : (dirOf k' dp).Distinct) : Dir k' D' dirty' dp inum := by
  have hsize : (D' inum).size = max (D inum).size (direntSize * j + direntSize) := by rw [hw.same]
  have hle : direntSize * j ≤ (D inum).size := by
    rw [h.size_eq]
    exact Nat.mul_le_mul_left _ hj
  refine ⟨⟨hw.inv, hw.table⟩, h.opened.of_entry hw.entry, ?_, ?_,
    hw.whole hex h.live h.holes hle h.whole, hd⟩
  · rw [hw.same]
    exact h.type
  · have hmod := h.size
    rw [hsize]
    unfold direntSize at *
    omega

/-! ## Reading entries -/

theorem readDirent_bytes {e : Panic} (hj : j < (dirOf k dp).length)
    (hroom : R → k.log.lh.length < NBUF) : wp (readDirent dp (direntSize * j) e)
      (fun de k' => Dir k' D dirty dp inum ∧ Reads k k' dirty ∧ dirOf k' dp = dirOf k dp ∧
        (dirOf k dp)[j]? = some (entryOf de))
      (Fail R) k := by
  have hstep : direntSize = 16 := rfl
  have hcap : MAXFILE * BSIZE + direntSize < 2 ^ 32 := by decide
  have hle := size_le_of_holeFree h.holes
  have hsize := h.size_eq
  have hin : direntSize * j + direntSize ≤ (D inum).size := by
    rw [hsize, ← Nat.mul_succ]
    exact Nat.mul_le_mul_left _ hj
  have hmin : min direntSize ((D inum).size - direntSize * j) = direntSize := by omega
  refine wp_then (readi_bytes (R := R) (.kernel fun _ => 0) 0 h.sound.inv h.sound.table h.opened h.holes
    (fun hu => by cases hu) (by omega) hroom) ?_
  rintro ⟨m, t⟩ k1 ⟨h1, q1, v1, ht, hb⟩
  rw [hmin] at ht hb
  have hs1 : Sound k1 D dirty := ⟨h1, by rw [q1.inode, q1.sb]; exact h.sound.table⟩
  obtain ⟨hd1, he1⟩ := h.reads hs1 ⟨q1, v1⟩
  have hm : m = _ := hb fun o h1 h2 => (h.block (by omega)).2
  rw [wp_bind, wp_check]
  refine ⟨fun hne => ?_, fun _ => ⟨hd1, ⟨q1, v1⟩, he1, ?_⟩⟩
  · simp only at ht
    simp [ht] at hne
  · rw [getElem?_dirOf h.opened h.sound.table, ← length_dirOf h.opened h.sound.table, if_pos hj, hm]
    refine congrArg some (entryOf_congr fun o ho => ?_)
    dsimp only
    rw [blit_of_mem (Nat.zero_le o) (show o < 0 + direntSize by omega), Nat.sub_zero]

end Dir

/-! ## `dirlookup` -/

/-- `iget` has returned `ip` for inode `i`: one more reference to an entry in use, or a new use of a
free one. -/
def Taken (k k' : Kernel) (ip i : Nat) : Prop :=
  ip < NINODE ∧
    (0 < (k.inode ip).ref ∧ (k.inode ip).inum = i ∧
        k' = k.setInode ip ((k.inode ip).withRef ((k.inode ip).ref + 1)) ∨
      (k.inode ip).ref = 0 ∧ k' = k.setInode ip ((k.inode ip).recycled ROOTDEV i))

theorem iget_taken (hroom : R → emptyInode k.inode ≠ none) :
    wp (iget ROOTDEV i) (fun ip k' => Taken k k' ip i) (Fail R) k := by
  rw [iget, wp_bind, wp_get]
  cases hf : findInode k.inode ROOTDEV i with
  | some ip =>
    obtain ⟨hip, href, hi⟩ := findInode_eq_some hf
    exact ⟨hip, Or.inl ⟨href, hi, rfl⟩⟩
  | none =>
    cases he : emptyInode k.inode with
    | none => exact ⟨fun hR => hroom hR he, by simp⟩
    | some ip =>
      obtain ⟨hip, href⟩ := emptyInode_eq_some he
      exact ⟨hip, Or.inr ⟨href, rfl⟩⟩

theorem Taken.entry (h : Taken k k' ip i) : 0 < (k'.inode ip).ref ∧ (k'.inode ip).inum = i := by
  obtain ⟨-, ⟨-, hi, rfl⟩ | ⟨-, rfl⟩⟩ := h
  · rw [setInode_inode, update_self]
    exact ⟨Nat.succ_pos _, hi⟩
  · rw [setInode_inode, update_self]
    exact ⟨Nat.one_pos, rfl⟩

/-- What a lookup of `a` in the table `t` returned and left behind. -/
def Looked (k k' : Kernel) (D : DTable) (dirty : Set Nat) (t : SlotTable Name Nat) (a : Name) :
    Option (Nat × Nat) → Prop
  | none => Reads k k' dirty ∧ t.Absent a
  | some (ip, off) => ∃ k1 j i, Sound k1 D dirty ∧ Reads k k1 dirty ∧ Taken k1 k' ip i ∧ t.At j a i ∧
      off = direntSize * j

theorem Looked.reads {t : SlotTable Name Nat} {a : Name} {r : Option (Nat × Nat)}
    (h : Looked k1 k' D dirty t a r) (hr : Reads k k1 dirty) : Looked k k' D dirty t a r := by
  cases r with
  | none => exact ⟨hr.trans h.1, h.2⟩
  | some p =>
    obtain ⟨k2, j, i, hs, h2, ht, hat, ho⟩ := h
    exact ⟨k2, j, i, hs, hr.trans h2, ht, hat, ho⟩

theorem dirlookupFrom_finds (name : Bytes) (fuel j : Nat) (h : Dir k D dirty dp inum)
    (hfuel : (dirOf k dp).length + 1 - j ≤ fuel) (hj : j ≤ (dirOf k dp).length)
    (hpast : ∀ i' < j, ∀ b, ¬ (dirOf k dp).At i' (nameOf name) b)
    (hroom : R → k.log.lh.length < NBUF ∧ emptyInode k.inode ≠ none) :
    wp (dirlookupFrom dp name fuel (direntSize * j))
      (fun r k' => Dir k' D dirty dp inum ∧ dirOf k' dp = dirOf k dp ∧
        Looked k k' D dirty (dirOf k dp) (nameOf name) r)
      (Fail R) k := by
  induction fuel generalizing k j with
  | zero => omega
  | succ fuel ih =>
    rw [dirlookupFrom, wp_bind, wp_get, h.opened.din h.sound.table]
    refine wp_ite (fun hlt => ?_) fun hge => ?_
    · rw [h.offset_lt] at hlt
      refine wp_then (h.readDirent_bytes hlt fun hR => (hroom hR).1) ?_
      rintro de k1 ⟨h1, r1, he1, hde⟩
      have hroom1 : R → k1.log.lh.length < NBUF ∧ emptyInode k1.inode ≠ none := by
        rw [r1.1.log, r1.1.inode]
        exact hroom
      refine wp_ite (fun hmatch => ?_) fun hmiss => ?_
      · rw [h.opened.dev h.sound.table]
        refine wp_seq (wp_and (iget_spec h1.sound) (iget_taken fun hR => (hroom1 hR).2)) ?_
          (fun _ _ he => he.2)
        rintro ip k2 ⟨⟨hs2, -, -, -, hk2, -⟩, ht⟩
        have hview : k2.view = k1.view := by
          rcases ht.2 with ⟨-, -, rfl⟩ | ⟨-, rfl⟩ <;> rfl
        obtain ⟨h2, he2⟩ := h1.frame hs2 (hk2 dp inum h1.opened).1 fun c _ => by rw [hview]
        refine ⟨h2, he2.trans he1, k1, j, direntInum de, h1.sound, r1, ht, ?_, rfl⟩
        rw [SlotTable.At, hde, lookup_match_iff.mp hmatch]
      · have hnext := ih (j + 1) h1 (by rw [he1]; omega) (by rw [he1]; omega) ?_ hroom1
        · rw [Nat.mul_succ] at hnext
          refine wp_post hnext ?_
          rintro r k2 ⟨h2, he2, hl⟩
          rw [he1] at hl
          exact ⟨h2, he2.trans he1, hl.reads r1⟩
        · intro i' hi' b hat
          rw [he1] at hat
          rcases Nat.lt_succ_iff_lt_or_eq.mp hi' with hlt' | rfl
          · exact hpast i' hlt' b hat
          · rw [SlotTable.At, hde, Option.some.injEq] at hat
            refine hmiss (lookup_match_iff.mpr ?_)
            have hb : b = direntInum de := by
              unfold entryOf at hat
              split at hat
              · cases hat
              · simp only [Option.some.injEq, Prod.mk.injEq] at hat
                exact hat.2.symm
            rw [hat, hb]
    · rw [h.offset_lt] at hge
      refine ⟨h, rfl, Reads.refl k dirty, fun i' b hat => ?_⟩
      have hlt := hat.lt
      exact hpast i' (by omega) b hat

/-- `dirlookup` finds a name if and only if it is bound. -/
theorem dirlookup_finds (name : Bytes) (h : Dir k D dirty dp inum)
    (hroom : R → k.log.lh.length < NBUF ∧ emptyInode k.inode ≠ none) : wp (dirlookup dp name)
      (fun r k' => Dir k' D dirty dp inum ∧ dirOf k' dp = dirOf k dp ∧
        Looked k k' D dirty (dirOf k dp) (nameOf name) r)
      (Fail R) k := by
  rw [dirlookup, wp_bind, wp_get, wp_bind, wp_check, h.opened.din h.sound.table]
  refine ⟨fun hne => ?_, fun _ => ?_⟩
  · rw [decide_eq_true_eq] at hne
    exact absurd h.type hne
  · rw [← length_dirOf h.opened h.sound.table]
    exact dirlookupFrom_finds name _ 0 h le_rfl (Nat.zero_le _) (by simp) hroom

/-! ## `dirlink` -/

/-- Nothing has changed that anybody holds: an unused table entry may name another inode. -/
structure Unchanged (k k' : Kernel) (dirty : Set Nat) : Prop where
  sb : k'.sb = k.sb
  log : k'.log = k.log
  disk : k'.disk = k.disk
  writes : k'.writes = k.writes
  view : ∀ c, c ∉ dirty → k'.view c = k.view c
  ref : ∀ j, (k'.inode j).ref = (k.inode j).ref
  inode : ∀ j, 0 < (k.inode j).ref → k'.inode j = k.inode j

theorem Reads.unchanged (h : Reads k k' dirty) : Unchanged k k' dirty :=
  ⟨h.1.sb, h.1.log, h.1.disk, h.1.writes, fun c hc => h.2 c (Or.inl hc), fun _ => by rw [h.1.inode],
    fun _ _ => by rw [h.1.inode]⟩

theorem Unchanged.trans (h : Unchanged k k1 dirty) (h' : Unchanged k1 k2 dirty) :
    Unchanged k k2 dirty :=
  ⟨h'.sb.trans h.sb, h'.log.trans h.log, h'.disk.trans h.disk, h'.writes.trans h.writes,
    fun c hc => (h'.view c hc).trans (h.view c hc), fun j => (h'.ref j).trans (h.ref j),
    fun j hj => (h'.inode j (by rw [h.ref]; exact hj)).trans (h.inode j hj)⟩

theorem iput_of_not_last (h : ¬ ((k.inode ip).ref = 1 ∧ (k.inode ip).valid = true ∧
      (k.inode ip).din.nlink = 0)) (Q : Unit → Kernel → Prop) (E : Panic → Kernel → Prop) :
    wp (iput ip) Q E k ↔ Q () (k.setInode ip ((k.inode ip).withRef ((k.inode ip).ref - 1))) := by
  have hf : (decide ((k.inode ip).ref = 1) && (k.inode ip).valid &&
      decide ((k.inode ip).din.nlink = 0)) = false := by
    rw [Bool.eq_false_iff]
    intro ht
    simp only [Bool.and_eq_true, decide_eq_true_eq] at ht
    exact h ⟨ht.1.1, ht.1.2, ht.2⟩
  rw [iput, wp_bind, wp_get, wp_bind, wp_when, hf, wp_modify]
  simp

theorem Taken.iput (h : Taken k k' ip i) (hs : Sound k D dirty) (hd : Opened k dp inum) :
    wp (iput ip) (fun _ k2 => Sound k2 D dirty ∧ Opened k2 dp inum ∧ Unchanged k k2 dirty ∧
      k2.view = k.view) E k' := by
  obtain ⟨hip, ⟨href, -, rfl⟩ | ⟨href, rfl⟩⟩ := h
  · have hself : (k.setInode ip ((k.inode ip).withRef ((k.inode ip).ref + 1))).inode ip =
        (k.inode ip).withRef ((k.inode ip).ref + 1) := by
      rw [setInode_inode, update_self]
    rw [iput_of_not_last]
    · have hback : (k.setInode ip ((k.inode ip).withRef ((k.inode ip).ref + 1))).setInode ip
          (((k.inode ip).withRef ((k.inode ip).ref + 1)).withRef ((k.inode ip).ref + 1 - 1)) = k := by
        rw [Kernel.setInode, setInode_inode, update_idem, Nat.add_sub_cancel]
        simp only [Kernel.setInode, Inode.withRef, update_eq_self]
      rw [hself, show ((k.inode ip).withRef ((k.inode ip).ref + 1)).ref = (k.inode ip).ref + 1 from rfl,
        hback]
      exact ⟨hs, hd, (Reads.refl k dirty).unchanged, rfl⟩
    · rw [hself]
      rintro ⟨h1, -⟩
      simp only [Inode.withRef] at h1
      omega
  · have hself : (k.setInode ip ((k.inode ip).recycled ROOTDEV i)).inode ip =
        (k.inode ip).recycled ROOTDEV i := by
      rw [setInode_inode, update_self]
    rw [iput_of_not_last]
    · rw [hself]
      set x := ((k.inode ip).recycled ROOTDEV i).withRef (((k.inode ip).recycled ROOTDEV i).ref - 1)
      have hx : x.ref = 0 := rfl
      have hback : (k.setInode ip ((k.inode ip).recycled ROOTDEV i)).setInode ip x =
          k.setInode ip x := by
        rw [Kernel.setInode, setInode_inode, update_idem]
        rfl
      rw [hback]
      have hne : dp ≠ ip := by
        rintro rfl
        have := hd.ref
        omega
      refine ⟨⟨hs.inv.setInode _ _, hs.table.replace (fun hr => ?_) fun _ _ _ _ _ => rfl⟩,
        (othersKept_update rfl).opened hne hd, ⟨rfl, rfl, rfl, rfl, fun _ _ => rfl, fun j => ?_,
          fun j hj => ?_⟩, rfl⟩
      · omega
      · by_cases hj : j = ip
        · rw [hj, setInode_inode, update_self, hx, href]
        · rw [setInode_inode, update_of_ne hj]
      · rw [setInode_inode, update_of_ne]
        rintro rfl
        omega
    · rw [hself]
      rintro ⟨-, h2, -⟩
      cases h2

theorem entryOf_eq_none {de : Bytes} : entryOf de = none ↔ direntInum de = 0 := by
  unfold entryOf
  split <;> simp_all

theorem emptyDirent_first (fuel j : Nat) (h : Dir k D dirty dp inum)
    (hfuel : (dirOf k dp).length + 1 - j ≤ fuel) (hj : j ≤ (dirOf k dp).length)
    (hpast : ∀ i' < j, ∀ s, (dirOf k dp)[i']? = some s → s ≠ none)
    (hroom : R → k.log.lh.length < NBUF) : wp (emptyDirent dp fuel (direntSize * j))
      (fun off k' => Dir k' D dirty dp inum ∧ Reads k k' dirty ∧ dirOf k' dp = dirOf k dp ∧
        off = direntSize * (dirOf k dp).firstFree)
      (Fail R) k := by
  induction fuel generalizing k j with
  | zero => omega
  | succ fuel ih =>
    rw [emptyDirent, wp_bind, wp_get, h.opened.din h.sound.table]
    refine wp_ite (fun hlt => ?_) fun hge => ?_
    · rw [h.offset_lt] at hlt
      refine wp_then (h.readDirent_bytes hlt hroom) ?_
      rintro de k1 ⟨h1, r1, he1, hde⟩
      refine wp_ite (fun hfree => ?_) fun hfull => ?_
      · refine ⟨h1, r1, he1, ?_⟩
        rw [SlotTable.firstFree_eq hj hpast fun _ => by rw [hde, entryOf_eq_none.mpr hfree]]
      · have hnext := ih (j + 1) h1 (by rw [he1]; omega) (by rw [he1]; omega) ?_
          (by rw [r1.1.log]; exact hroom)
        · rw [Nat.mul_succ] at hnext
          refine wp_post hnext ?_
          rintro off k2 ⟨h2, r2, he2, ho⟩
          exact ⟨h2, r1.trans r2, he2.trans he1, by rw [ho, he1]⟩
        · intro i' hi' s hs
          rw [he1] at hs
          rcases Nat.lt_succ_iff_lt_or_eq.mp hi' with hlt' | rfl
          · exact hpast i' hlt' s hs
          · obtain rfl : entryOf de = s := Option.some.inj (hde.symm.trans hs)
            exact fun hn => hfull (entryOf_eq_none.mp hn)
    · rw [h.offset_lt] at hge
      exact ⟨h, Reads.refl k dirty, rfl, by
        rw [SlotTable.firstFree_eq hj hpast fun hlt => absurd hlt hge]⟩

/-- What `dirlink` needs in order not to run out of anything: an open operation with room in the log, a
free entry in the inode table, a directory below its largest size, and free blocks if the directory
has to grow by a block. -/
structure LinkRoom (k : Kernel) (D : DTable) (dp inum : Nat) : Prop where
  outstanding : 1 ≤ k.log.outstanding
  logsize : k.log.size = LOGSIZE
  log : k.log.lh.length + indirectCost D k.log.lh inum + 3 ≤ LOGSIZE - 2
  inode : emptyInode k.inode ≠ none
  below : (D inum).size < MAXFILE * BSIZE
  blocks : (dirOf k dp).firstFree < (dirOf k dp).length ∨ (D inum).size % BSIZE ≠ 0 ∨
    1 + indirectFree D inum ≤ (freeBlocks k.sb k.view).card

theorem LinkRoom.reads (h : LinkRoom k D dp inum) (hs : Sound k D dirty) (hr : Reads k k' dirty)
    (hd : dirOf k' dp = dirOf k dp) : LinkRoom k' D dp inum := by
  refine ⟨?_, ?_, ?_, ?_, h.below, ?_⟩
  · rw [hr.1.log]
    exact h.outstanding
  · rw [hr.1.log]
    exact h.logsize
  · rw [hr.1.log]
    exact h.log
  · rw [hr.1.inode]
    exact h.inode
  · rw [hd, hr.1.sb, freeBlocks_congr (hs.inv.marked_of_kept hr.2)]
    exact h.blocks

theorem LinkRoom.cache (h : LinkRoom k D dp inum) : k.log.lh.length < NBUF := by
  have hlog := h.log
  have hcap : LOGSIZE - 2 < NBUF := by decide
  omega

theorem dirent_in_block (j : Nat) : direntSize ≤ BSIZE - direntSize * j % BSIZE := by
  unfold direntSize BSIZE
  omega

/-- A directory whose next entry would be in a new block ends with its last block. -/
theorem Dir.full_of_miss (h : Dir k D dirty dp inum) (hj : j ≤ (dirOf k dp).length)
    (hz : slotAddr D k.view (fileSlot inum (direntSize * j / BSIZE)) = 0) :
    j = (dirOf k dp).length ∧ (D inum).size % BSIZE = 0 := by
  have hend : j = (dirOf k dp).length := by
    by_contra hne
    exact (h.block (h.offset_lt.mpr (by omega))).1 hz
  refine ⟨hend, ?_⟩
  rw [hend, ← h.size_eq] at hz
  by_contra hne
  have hlt : (D inum).size / BSIZE * BSIZE < (D inum).size := by
    have := Nat.div_add_mod (D inum).size BSIZE
    rw [Nat.mul_comm] at this
    omega
  exact h.holes _ hlt hz

theorem Dir.writei_entry (src : Bytes) (h : Dir k D dirty dp inum)
    (hfirst : (dirOf k dp).firstFree = j) (hmax : direntSize * j + direntSize ≤ MAXFILE * BSIZE)
    (hroom : R → LinkRoom k D dp inum) : wp (writei dp (.kernel src) 0 (direntSize * j) direntSize)
      (fun r k' => r = direntSize ∧ ∃ D' dirty',
        FileWritten k k' D D' dp inum (direntSize * j) direntSize True dirty dirty' ∧
        Exact k k' D D' inum src (direntSize * j) direntSize dirty dirty')
      (Fail R) k := by
  have hj : j ≤ (dirOf k dp).length := hfirst ▸ (dirOf k dp).firstFree_le
  have hoff : direntSize * j ≤ (D inum).size := by
    rw [h.size_eq]
    exact Nat.mul_le_mul_left _ hj
  have hsrc : (fun o => (Mem.kernel src).byte (0 + o)) = src := by
    funext o
    rw [Nat.zero_add]
    rfl
  have hcov : (Mem.kernel src).Covers 0 direntSize := fun hu => by cases hu
  by_cases hz : slotAddr D k.view (fileSlot inum (direntSize * j / BSIZE)) = 0
  · obtain ⟨hend, hfull⟩ := h.full_of_miss hj hz
    have htouched : touched (direntSize * j) direntSize = 1 := by
      have hin := dirent_in_block j
      unfold touched direntSize BSIZE at *
      simp only [OfNat.ofNat_ne_zero, if_false]
      omega
    have hwrite : WriteRoom R k D inum k.log.lh (touched (direntSize * j) direntSize) := fun hR => by
      obtain ⟨hout, hsz, hlog, -, -, hblocks⟩ := hroom hR
      rw [htouched]
      refine ⟨hout, hsz, by omega, ?_⟩
      rcases hblocks with hb | hb | hb
      · omega
      · exact absurd hfull hb
      · exact hb
    refine wp_post (writei_exact (.kernel src) 0 h.sound.inv h.sound.table h.opened hoff hmax
      (hwrite.fits _)) ?_
    rintro r k1 ⟨t, rfl, -, hall, -, -, D', dirty', hw, hex⟩
    obtain rfl := hall hcov
    rw [hsrc] at hex
    simp only at hw
    exact ⟨rfl, D', dirty', hw, hex rfl⟩
  · refine wp_post (writei_hit (R := R) (.kernel src) 0 h.sound.inv h.sound.table h.opened hoff hmax
      (by decide) (dirent_in_block j) hz hcov fun hR => ?_) ?_
    · obtain ⟨hout, hsz, hlog, -, -, -⟩ := hroom hR
      exact ⟨hout, hsz, by omega⟩
    · rintro r k1 ⟨rfl, D', dirty', hw, hex⟩
      rw [hsrc] at hex
      exact ⟨rfl, D', dirty', hw, hex⟩

/-- `dirlink` refuses a name that is bound and binds one that is not. -/
theorem dirlink_binds (name : Bytes) (h : Dir k D dirty dp inum) (h0 : 0 < i) (hi : i < 2 ^ 16)
    (hroom : R → LinkRoom k D dp inum) : wp (dirlink dp name i)
      (fun r k' => (r = -1 ∧ (∃ j i', (dirOf k dp).At j (nameOf name) i') ∧ Unchanged k k' dirty ∧
          Dir k' D dirty dp inum ∧ dirOf k' dp = dirOf k dp) ∨
        (r = 0 ∧ (dirOf k dp).Absent (nameOf name) ∧ ∃ D' dirty', Dir k' D' dirty' dp inum ∧
          dirOf k' dp = (dirOf k dp).put (nameOf name) i))
      (Fail R) k := by
  refine wp_then (dirlookup_finds name h fun hR => ⟨(hroom hR).cache, (hroom hR).inode⟩) ?_
  rintro r k1 ⟨h1, he1, hl⟩
  cases r with
  | some p =>
    obtain ⟨k0, j, i', hs0, r0, ht, hat, -⟩ := hl
    refine wp_then (ht.iput hs0 (h.opened.quiet r0.1)) ?_
    rintro _ k2 ⟨hs2, ho2, hu2, hv2⟩
    obtain ⟨h2, he2⟩ := (h.reads hs0 r0).1.frame hs2 ho2 fun c _ => by rw [hv2]
    exact Or.inl ⟨rfl, ⟨j, i', hat⟩, r0.unchanged.trans hu2, h2, he2.trans (h.reads hs0 r0).2⟩
  | none =>
    obtain ⟨r1, habs⟩ := hl
    have hroom1 : R → LinkRoom k1 D dp inum := fun hR => (hroom hR).reads h.sound r1 he1
    rw [wp_bind, wp_get, h1.opened.din h1.sound.table, ← length_dirOf h1.opened h1.sound.table]
    refine wp_then (emptyDirent_first _ 0 h1 le_rfl (Nat.zero_le _) (by simp)
      fun hR => (hroom1 hR).cache) ?_
    rintro off k2 ⟨h2, r2, he2, rfl⟩
    have he : dirOf k2 dp = dirOf k dp := he2.trans he1
    have hroom2 : R → LinkRoom k2 D dp inum := fun hR => (hroom1 hR).reads h1.sound r2 he2
    rw [he1]
    by_cases hmax : direntSize * (dirOf k dp).firstFree + direntSize ≤ MAXFILE * BSIZE
    · refine wp_then (h2.writei_entry (dirent i (strncpy name)) (by rw [he]) hmax hroom2) ?_
      rintro _ k3 ⟨rfl, D', dirty', hw, hex⟩
      have hle : (dirOf k dp).firstFree ≤ (dirOf k2 dp).length := by
        rw [he]
        exact SlotTable.firstFree_le _
      have hput : dirOf k3 dp = (dirOf k dp).put (nameOf name) i := by
        refine List.ext_getElem? fun i' => ?_
        rw [h2.getElem?_written hw hex hle, entryOf_dirent name h0 hi, he, SlotTable.getElem?_put]
      have hdist : (dirOf k3 dp).Distinct := by
        rw [hput]
        exact h.distinct.put habs i
      rw [wp_bind, wp_check]
      refine ⟨fun hne => ?_, fun _ => Or.inr ⟨rfl, habs, D', dirty', ?_, hput⟩⟩
      · simp at hne
      · exact h2.of_written hw hex hle hdist
    · -- a full directory of the largest size: `writei` refuses, and `dirlink` panics
      have hge : MAXFILE * BSIZE ≤ (D inum).size := by
        have hle := Nat.mul_le_mul_left direntSize (dirOf k dp).firstFree_le
        have hmod := h.size
        have hbig : MAXFILE * BSIZE = 274432 := by decide
        rw [← h.size_eq] at hle
        unfold direntSize at *
        omega
      have hle := size_le_of_holeFree h.holes
      have hcap : MAXFILE * BSIZE + direntSize < 2 ^ 32 := by decide
      have hoff := Nat.mul_le_mul_left direntSize (dirOf k dp).firstFree_le
      rw [← h.size_eq] at hoff
      refine wp_then (writei_refused (E := Fail R) _ _ (by omega) (by omega)) ?_
      rintro _ k3 ⟨rfl, -⟩
      rw [wp_bind, wp_check]
      refine ⟨fun _ => ⟨fun hR => ?_, by simp⟩, fun hne => ?_⟩
      · have := (hroom hR).below
        omega
      · simp [direntSize] at hne

theorem zero_clears {a : Name} (h : Dir k D dirty dp inum) (hat : (dirOf k dp).At j a i)
    (hroom : LogRoom R k 1) : wp (writei dp (.kernel fun _ => 0) 0 (direntSize * j) direntSize)
      (fun r k' => r = direntSize ∧ ∃ D' dirty', Dir k' D' dirty' dp inum ∧
        dirOf k' dp = (dirOf k dp).clear j)
      (Fail R) k := by
  have hlt := h.offset_lt.mpr hat.lt
  have hmax := size_le_of_holeFree h.holes
  have hin : direntSize * j + direntSize ≤ (D inum).size := by
    rw [h.size_eq, ← Nat.mul_succ]
    exact Nat.mul_le_mul_left _ hat.lt
  refine wp_post (writei_hit (R := R) (.kernel fun _ => 0) 0 h.sound.inv h.sound.table h.opened hlt.le
    (by omega) (by decide) (dirent_in_block j) (h.block hlt).1 (fun hu => by cases hu) hroom) ?_
  rintro r k1 ⟨rfl, D', dirty', hw, hex⟩
  have hclear : dirOf k1 dp = (dirOf k dp).clear j := by
    refine List.ext_getElem? fun i' => ?_
    rw [h.getElem?_written hw hex hat.lt.le, SlotTable.getElem?_clear _ hat.lt]
    exact congrArg (fun s => if i' = j then some s else (dirOf k dp)[i']?) entryOf_zero
  refine ⟨rfl, D', dirty', h.of_written hw hex hat.lt.le ?_, hclear⟩
  rw [hclear]
  exact h.distinct.clear hat.lt

end Dir

/-! ## Histories of a directory -/

inductive DirOp where
  | lookup (name : Bytes)
  | link (name : Bytes) (inum : Nat)
  | zero (a : Name)

/-- What an operation does to the finite map. -/
def DirOp.apply (m : Name → Option Nat) : DirOp → Name → Option Nat
  | .lookup _ => m
  | .link name inum => if m (nameOf name) = none then Function.update m (nameOf name) (some inum) else m
  | .zero a => Function.update m a none

/-- A call on the directory that returns, or anything else that leaves its inode open and its entries
as they are. -/
inductive DirStep (dp inum : Nat) : Kernel → Option DirOp → Kernel → Prop where
  | lookup {k k' name r} : dirlookup dp name k = .ok r k' →
      DirStep dp inum k (some (.lookup name)) k'
  | link {k k' name i r} : 0 < i → i < 2 ^ 16 → dirlink dp name i k = .ok r k' →
      DirStep dp inum k (some (.link name i)) k'
  | zero {k k' a i j r} : (dirOf k dp).At j a i →
      writei dp (.kernel fun _ => 0) 0 (direntSize * j) direntSize k = .ok r k' →
      DirStep dp inum k (some (.zero a)) k'
  | other {k k' : Kernel} {D : DTable} {dirty : Set Nat} : Dir k' D dirty dp inum →
      dirOf k' dp = dirOf k dp → DirStep dp inum k none k'

theorem dirStep_map {k k' : Kernel} {D : DTable} {dirty : Set Nat} {dp inum : Nat} {op : DirOp}
    (h : Dir k D dirty dp inum) (hs : DirStep dp inum k (some op) k') :
    ∃ D' dirty', Dir k' D' dirty' dp inum ∧ (dirOf k' dp).toMap = op.apply (dirOf k dp).toMap := by
  cases hs with
  | @lookup _ name _ hrun =>
    have hwp := dirlookup_finds (R := False) name h fun hf => hf.elim
    rw [wp_of_ok hrun] at hwp
    exact ⟨D, dirty, hwp.1, by rw [hwp.2.1]; rfl⟩
  | @link _ name _ _ h0 hi hrun =>
    have hwp := dirlink_binds (R := False) name h h0 hi fun hf => hf.elim
    rw [wp_of_ok hrun] at hwp
    rcases hwp with ⟨-, ⟨j, i', hat⟩, -, h', he⟩ | ⟨-, habs, D', dirty', h', he⟩
    · refine ⟨D, dirty, h', ?_⟩
      rw [he, DirOp.apply, if_neg fun hn => SlotTable.toMap_eq_none.mp hn j i' hat]
    · refine ⟨D', dirty', h', ?_⟩
      rw [he, DirOp.apply, if_pos (SlotTable.toMap_eq_none.mpr habs), SlotTable.toMap_put h.distinct habs]
  | zero hat hrun =>
    have hwp := zero_clears (R := False) h hat fun hf => hf.elim
    rw [wp_of_ok hrun] at hwp
    obtain ⟨-, D', dirty', h', he⟩ := hwp
    exact ⟨D', dirty', h', by rw [he, SlotTable.toMap_clear h.distinct hat]; rfl⟩

/-- Over any history the directory is the finite map that its operations make. -/
theorem dirRun_map {k k' : Kernel} {D : DTable} {dirty : Set Nat} {dp inum : Nat} {t : List DirOp}
    (h : Dir k D dirty dp inum) (hr : Run (DirStep dp inum) k t k') :
    ∃ D' dirty', Dir k' D' dirty' dp inum ∧
      (dirOf k' dp).toMap = t.foldr (fun op m => op.apply m) (dirOf k dp).toMap := by
  refine Run.invariant (I := fun t k' => ∃ D' dirty', Dir k' D' dirty' dp inum ∧
    (dirOf k' dp).toMap = t.foldr (fun op m => op.apply m) (dirOf k dp).toMap)
    ⟨D, dirty, h, rfl⟩ ?_ ?_ hr
  · rintro t k1 k2 - ⟨D1, dirty1, h1, he1⟩ hs
    cases hs with
    | other h2 he2 => exact ⟨_, _, h2, by rw [he2, he1]⟩
  · rintro t k1 k2 op - ⟨D1, dirty1, h1, he1⟩ hs
    obtain ⟨D2, dirty2, h2, he2⟩ := dirStep_map h1 hs
    exact ⟨D2, dirty2, h2, by rw [he2, he1]; rfl⟩

/-- A directory is a finite map. `dirlookup` finds a name if and only if an entry binds it, and returns
the entry's inode and offset. `dirlink` refuses a bound name and changes nothing; it binds any other in
the first free slot, or in one more at the end. Zeroing an entry frees its slot and no other. None of
them stops the kernel where there is room. Over any history names stay distinct, and the bindings are
those of the map that the operations make. -/
theorem directory_is_finite_map {k : Kernel} {D : DTable} {dirty : Set Nat} {dp inum : Nat}
    (h : Dir k D dirty dp inum) :
    (∀ name, wp (dirlookup dp name)
      (fun r k' => Dir k' D dirty dp inum ∧ dirOf k' dp = dirOf k dp ∧
        (r = none ↔ ∀ j i, ¬ (dirOf k dp).At j (nameOf name) i) ∧
        ∀ ip off, r = some (ip, off) → 0 < (k'.inode ip).ref ∧ ∃ j, off = direntSize * j ∧
          (dirOf k dp).At j (nameOf name) (k'.inode ip).inum)
      (Fail (k.log.lh.length < NBUF ∧ emptyInode k.inode ≠ none)) k) ∧
    (∀ name i, 0 < i → i < 65536 → wp (dirlink dp name i)
      (fun r k' => (r = -1 ∧ (∃ j i', (dirOf k dp).At j (nameOf name) i') ∧ Unchanged k k' dirty ∧
          dirOf k' dp = dirOf k dp) ∨
        (r = 0 ∧ (∀ j i', ¬ (dirOf k dp).At j (nameOf name) i') ∧
          dirOf k' dp = (dirOf k dp).put (nameOf name) i))
      (Fail (LinkRoom k D dp inum)) k) ∧
    (∀ j a i, (dirOf k dp).At j a i →
      wp (writei dp (.kernel fun _ => 0) 0 (direntSize * j) direntSize)
        (fun r k' => r = direntSize ∧ dirOf k' dp = (dirOf k dp).clear j)
        (Fail (1 ≤ k.log.outstanding ∧ k.log.size = LOGSIZE ∧ k.log.lh.length + 1 ≤ LOGSIZE - 2)) k) ∧
    ∀ t k', Run (DirStep dp inum) k t k' → (dirOf k' dp).Distinct ∧
      (dirOf k' dp).toMap = t.foldr (fun op m => op.apply m) (dirOf k dp).toMap := by
  refine ⟨fun name => ?_, fun name i h0 hi => ?_, fun j a i hat => ?_, fun t k' hr => ?_⟩
  · refine wp_mono (dirlookup_finds name h id) ?_ (fun _ _ he => he)
    rintro r k' ⟨h', he, hl⟩
    refine ⟨h', he, ?_, ?_⟩
    · cases r with
      | none => exact ⟨fun _ => hl.2, fun _ => rfl⟩
      | some p =>
        obtain ⟨_, j, i, -, -, -, hat, -⟩ := hl
        exact ⟨nofun, fun hn => absurd hat (hn j i)⟩
    · rintro ip off rfl
      obtain ⟨k1, j, i, -, -, ht, hat, ho⟩ := hl
      obtain ⟨href, rfl⟩ := ht.entry
      exact ⟨href, j, ho, hat⟩
  · refine wp_mono (dirlink_binds name h h0 hi id) ?_ (fun _ _ he => he)
    rintro r k' (⟨hr, hb, hu, -, he⟩ | ⟨hr, ha, D', dirty', -, he⟩)
    · exact Or.inl ⟨hr, hb, hu, he⟩
    · exact Or.inr ⟨hr, ha, he⟩
  · refine wp_mono (zero_clears h hat id) ?_ (fun _ _ he => he)
    rintro r k' ⟨hr, D', dirty', -, he⟩
    exact ⟨hr, he⟩
  · obtain ⟨D', dirty', h', he⟩ := dirRun_map h hr
    exact ⟨h'.distinct, he⟩

/-- A block of directory entries; an entry with inode number zero is free. -/
def direntBlock (es : List (Nat × List Byte)) : Block := fun o =>
  (es[o / direntSize]?).elim 0 fun e => dirent e.1 (fun i => e.2.getD i 0) (o % direntSize)

/-- A directory with the names `.`, `..` and `b`, whose entry for the name `old` has been zeroed. -/
def usedDirImage : FileImage :=
  [(T_DIR, direntBlock [(1, [46]), (1, [46, 46]), (0, [111, 108, 100]), (3, [98])])]

theorem usedDirImage_small : usedDirImage.Small := ⟨by decide, by decide, by decide⟩

def usedDir : Kernel := imageKernel usedDirImage

theorem dirOf_usedDir : dirOf usedDir 0 =
    [some ([46], 1), some ([46, 46], 1), none, some ([98], 3)] ++ List.replicate 60 none := by
  rw [dirOf, usedDir, imageKernel_view]
  decide +kernel

theorem usedDir_dir : Dir usedDir (imageTable usedDirImage) ∅ 0 1 where
  sound := ⟨imageKernel_inv usedDirImage_small, imageKernel_table usedDirImage_small⟩
  opened := imageKernel_opened _
  type := rfl
  size := rfl
  whole _ _ := id
  distinct := by
    rw [dirOf_usedDir]
    exact SlotTable.distinct_of_pairwise (by decide +kernel)

theorem usedDir_room : LinkRoom usedDir (imageTable usedDirImage) 0 1 where
  outstanding := le_refl 1
  logsize := rfl
  log := by decide
  inode := by decide
  below := by decide
  blocks := Or.inr (Or.inr (le_trans (by decide) (imageKernel_free usedDirImage_small)))

/-- The name `b` is found in the fourth entry and cannot be linked again; the name `a` is bound in the
free entry before it. -/
theorem directory_is_finite_map_used :
    (∃ ip k', dirlookup 0 (fun i => [98].getD i 0) usedDir = .ok (some (ip, 48)) k' ∧
      (k'.inode ip).inum = 3) ∧
    (∃ k', dirlink 0 (fun i => [98].getD i 0) 5 usedDir = .ok (-1) k' ∧ dirOf k' 0 = dirOf usedDir 0) ∧
    ∃ k', dirlink 0 (fun i => [97].getD i 0) 5 usedDir = .ok 0 k' ∧ dirOf k' 0 =
      [some ([46], 1), some ([46, 46], 1), some ([97], 5), some ([98], 3)] ++ List.replicate 60 none := by
  have hdir := usedDir_dir
  have hroom := usedDir_room
  have hent := dirOf_usedDir
  -- the image itself must not be unfolded: the calls would be run on it
  generalize usedDir = k at hdir hroom hent ⊢
  have hb : nameOf (fun i => [98].getD i 0) = [98] := by decide
  have ha : nameOf (fun i => [97].getD i 0) = [97] := by decide
  have hat : (dirOf k 0).At 3 [98] 3 := by
    rw [hent]
    rfl
  have habs : (dirOf k 0).Absent [97] := SlotTable.toMap_eq_none.mp (by rw [hent]; decide)
  obtain ⟨hlookup, hlink, -, -⟩ := directory_is_finite_map hdir
  have hb' := hlookup fun i => [98].getD i 0
  have hlb := hlink (fun i => [98].getD i 0) 5 (by decide) (by decide)
  have hla := hlink (fun i => [97].getD i 0) 5 (by decide) (by decide)
  rw [hb] at hb' hlb
  rw [ha] at hla
  refine ⟨?_, ?_, ?_⟩
  · obtain ⟨r, k', hrun, -, -, hnone, hsome⟩ := ok_of_wp (wp_mono hb' (fun _ _ hq => hq)
      fun _ _ he => absurd ⟨hroom.cache, hroom.inode⟩ he.1)
    cases r with
    | none => exact absurd hat (hnone.mp rfl 3 3)
    | some p =>
      obtain ⟨ip, off⟩ := p
      obtain ⟨-, j, rfl, hj⟩ := hsome ip off rfl
      obtain rfl := hdir.distinct _ _ _ _ _ hat hj
      exact ⟨ip, k', hrun, (hdir.distinct.value_eq hat hj).symm⟩
  · obtain ⟨r, k', hrun, hq⟩ := ok_of_wp (wp_mono hlb (fun _ _ hq => hq)
      fun _ _ he => absurd hroom he.1)
    rcases hq with ⟨rfl, -, -, he⟩ | ⟨-, hfree, -⟩
    · exact ⟨k', hrun, he⟩
    · exact absurd hat (hfree 3 3)
  · obtain ⟨r, k', hrun, hq⟩ := ok_of_wp (wp_mono hla (fun _ _ hq => hq)
      fun _ _ he => absurd hroom he.1)
    rcases hq with ⟨-, ⟨j, i, hbound⟩, -, -⟩ | ⟨rfl, -, he⟩
    · exact absurd hbound (habs j i)
    · refine ⟨k', hrun, ?_⟩
      rw [he, hent]
      decide

end Xv6.Fs
