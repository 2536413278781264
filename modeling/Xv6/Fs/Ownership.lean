import Xv6.Fs.Copy
import Xv6.Foundation.Ledger

/-!
# Who owns which block

The file system seen through the buffer cache: `D` gives for each inode number what the kernel
takes its dinode to be (the in-memory copy where there is one), and the view of the cache gives
the bitmap and the indirect blocks. A block in use is named by exactly one slot.
-/

namespace Xv6.Fs

open Xv6.Foundation Xv6.Disk Function

set_option autoImplicit false

abbrev View := Nat → Block

abbrev DTable := Nat → DInode

/-! ## Slots -/

inductive Slot where
  | direct (i j : Nat)
  | indirect (i : Nat)
  | entry (i j : Nat)
  deriving DecidableEq, Repr

def Slot.inode : Slot → Nat
  | .direct i _ => i
  | .indirect i => i
  | .entry i _ => i

/-- The block number in a slot, zero if there is none. -/
def slotAddr (D : DTable) (v : View) : Slot → Nat
  | .direct i j => if j < NDIRECT then (D i).addrs j else 0
  | .indirect i => (D i).addrs NDIRECT
  | .entry i j =>
    if j < NINDIRECT ∧ (D i).addrs NDIRECT ≠ 0 then getEntry (v ((D i).addrs NDIRECT)) j else 0

def Live (sb : Superblock) (D : DTable) (i : Nat) : Prop :=
  1 ≤ i ∧ i < sb.ninodes ∧ (D i).type ≠ 0

structure Used (sb : Superblock) (D : DTable) (v : View) (s : Slot) (b : Nat) : Prop where
  live : Live sb D s.inode
  addr : slotAddr D v s = b
  nonzero : b ≠ 0

def fileSlot (i bn : Nat) : Slot := if bn < NDIRECT then .direct i bn else .entry i (bn - NDIRECT)

theorem fileSlot_inode (i bn : Nat) : (fileSlot i bn).inode = i := by
  unfold fileSlot
  split <;> rfl

theorem slotAddr_fileSlot {D : DTable} {v : View} {i bn : Nat}
    (h : slotAddr D v (fileSlot i bn) ≠ 0) : bn < MAXFILE := by
  by_contra hn
  have hN : MAXFILE = NDIRECT + NINDIRECT := rfl
  rw [fileSlot, if_neg (by omega), slotAddr, if_neg (by omega)] at h
  exact h rfl

theorem fileSlot_inj {i i' bn bn' : Nat} (h : fileSlot i bn = fileSlot i' bn') :
    i = i' ∧ bn = bn' := by
  unfold fileSlot at h
  split at h <;> split at h
  · injection h with h1 h2
    exact ⟨h1, h2⟩
  · cases h
  · cases h
  · injection h with h1 h2
    exact ⟨h1, by omega⟩

/-- Every block below the size of the file is there. -/
def HoleFree (D : DTable) (v : View) (i : Nat) : Prop :=
  ∀ bn, bn * BSIZE < (D i).size → slotAddr D v (fileSlot i bn) ≠ 0

/-! ## The regions of the disk -/

def datastart (sb : Superblock) : Nat := sb.bmapstart + sb.size / BPB + 1

theorem datastart_pos (sb : Superblock) : 0 < datastart sb := Nat.succ_pos _

/-- The layout of `mkfs`: boot block, superblock, log, inode blocks, bitmap, data. -/
structure Geometry (sb : Superblock) (l : Log) : Prop where
  log : l.start + l.size ≤ sb.inodestart
  inodes : sb.inodestart + sb.ninodes / IPB + 1 ≤ sb.bmapstart
  data : datastart sb ≤ sb.size
  small : sb.size ≤ 2 ^ 31

section Regions
variable {sb : Superblock} {l : Log} (g : Geometry sb l)
include g

theorem Geometry.iblock_range {i : Nat} (h : i < sb.ninodes) :
    sb.inodestart ≤ iblock sb i ∧ iblock sb i < sb.bmapstart := by
  have hd : i / IPB ≤ sb.ninodes / IPB := Nat.div_le_div_right (by omega)
  have hi := g.inodes
  unfold iblock
  generalize i / IPB = q at *
  generalize sb.ninodes / IPB = n at *
  omega

omit g in
theorem bblock_range {b : Nat} (h : b < sb.size) :
    sb.bmapstart ≤ bblock sb b ∧ bblock sb b < datastart sb := by
  have hd : b / BPB ≤ sb.size / BPB := Nat.div_le_div_right (by omega)
  unfold bblock datastart
  generalize b / BPB = q at *
  generalize sb.size / BPB = n at *
  omega

theorem Geometry.inodestart_le_bmapstart : sb.inodestart ≤ sb.bmapstart :=
  (Nat.le_add_right _ _).trans ((Nat.le_succ _).trans g.inodes)

omit g in
theorem bmapstart_lt_datastart (sb : Superblock) : sb.bmapstart < datastart sb :=
  Nat.lt_succ_of_le (Nat.le_add_right _ _)

end Regions

def marked (sb : Superblock) (v : View) (b : Nat) : Prop :=
  getBit (v (bblock sb b)) (b % BPB) = true

instance (sb : Superblock) (v : View) (b : Nat) : Decidable (marked sb v b) :=
  inferInstanceAs (Decidable (_ = _))

/-- The dinode of `i` as the cache shows it. -/
def onDisk (sb : Superblock) (v : View) (i : Nat) : DInode := getDInode (v (iblock sb i)) (i % IPB)

/-- Bitmap and slots agree, but for the blocks in `extra` that a call has in hand. -/
abbrev Owned (sb : Superblock) (D : DTable) (v : View) (extra : List Nat) : Prop :=
  Ledger (Used sb D v) (marked sb v) (datastart sb) sb.size extra

/-! ## Changing one slot -/

section Change
variable {sb : Superblock} {D D' : DTable} {v v' : View} {i j b : Nat} {s : Slot}

theorem live_congr (h : ∀ i, (D' i).type = (D i).type) : Live sb D' i ↔ Live sb D i := by
  simp only [Live, h]

theorem slotAddr_congr (h : (D s.inode).addrs NDIRECT ≠ 0 →
      v' ((D s.inode).addrs NDIRECT) = v ((D s.inode).addrs NDIRECT)) :
    slotAddr D v' s = slotAddr D v s := by
  cases s with
  | direct i j => rfl
  | indirect i => rfl
  | entry i j =>
    simp only [slotAddr]
    split
    · rename_i hc
      rw [show v' ((D i).addrs NDIRECT) = v ((D i).addrs NDIRECT) from h hc.2]
    · rfl

/-- Only the indirect blocks of allocated inodes matter. -/
theorem used_congr (h : ∀ i, Live sb D i → (D i).addrs NDIRECT ≠ 0 →
      v' ((D i).addrs NDIRECT) = v ((D i).addrs NDIRECT)) (s : Slot) (b : Nat) :
    Used sb D v' s b ↔ Used sb D v s b := by
  constructor
  · rintro ⟨hl, ha, hz⟩
    exact ⟨hl, (slotAddr_congr (h _ hl)).symm.trans ha, hz⟩
  · rintro ⟨hl, ha, hz⟩
    exact ⟨hl, (slotAddr_congr (h _ hl)).trans ha, hz⟩

theorem slotAddr_of_addrs (h : ∀ i, (D' i).addrs = (D i).addrs) (s : Slot) :
    slotAddr D' v s = slotAddr D v s := by
  cases s <;> simp only [slotAddr, h]

theorem used_of_addrs (htype : ∀ i, (D' i).type = (D i).type)
    (h : ∀ i, (D' i).addrs = (D i).addrs) (s : Slot) (b : Nat) :
    Used sb D' v s b ↔ Used sb D v s b := by
  constructor
  · rintro ⟨hl, ha, hz⟩
    exact ⟨(live_congr htype).mp hl, by rw [← slotAddr_of_addrs h s]; exact ha, hz⟩
  · rintro ⟨hl, ha, hz⟩
    exact ⟨(live_congr htype).mpr hl, by rw [slotAddr_of_addrs h s]; exact ha, hz⟩

theorem slotAddr_of_eq (h : D' s.inode = D s.inode) : slotAddr D' v s = slotAddr D v s := by
  cases s with
  | direct i j => simp only [slotAddr, show D' i = D i from h]
  | indirect i => simp only [slotAddr, show D' i = D i from h]
  | entry i j => simp only [slotAddr, show D' i = D i from h]

theorem slotAddr_of_zero (h : ∀ j, (D s.inode).addrs j = 0) : slotAddr D v s = 0 := by
  cases s with
  | direct i j => simp only [slotAddr, show ∀ j, (D i).addrs j = 0 from h, ite_self]
  | indirect i => exact h NDIRECT
  | entry i j => simp [slotAddr, show ∀ j, (D i).addrs j = 0 from h]

theorem used_update_empty {x : DInode} (hD : (D i).type ≠ 0 → ∀ j, (D i).addrs j = 0)
    (hx : x.type ≠ 0 → ∀ j, x.addrs j = 0) (s : Slot) (c : Nat) :
    Used sb (update D i x) v s c ↔ Used sb D v s c := by
  by_cases hs : s.inode = i
  · subst hs
    constructor
    · rintro ⟨hl, ha, hc⟩
      have ht : x.type ≠ 0 := by simpa using hl.2.2
      rw [slotAddr_of_zero (by simpa using hx ht)] at ha
      exact absurd ha.symm hc
    · rintro ⟨hl, ha, hc⟩
      rw [slotAddr_of_zero (hD hl.2.2)] at ha
      exact absurd ha.symm hc
  · have heq : update D i x s.inode = D s.inode := update_of_ne hs _ _
    constructor
    · rintro ⟨hl, ha, hc⟩
      rw [Live, heq] at hl
      exact ⟨hl, slotAddr_of_eq heq ▸ ha, hc⟩
    · rintro ⟨hl, ha, hc⟩
      refine ⟨?_, (slotAddr_of_eq heq).trans ha, hc⟩
      rw [Live, heq]
      exact hl

theorem used_assign {s₀ : Slot} (hl : Live sb D s₀.inode)
    (htype : ∀ i, (D' i).type = (D i).type) (hempty : slotAddr D v s₀ = 0) (hb : b ≠ 0)
    (hs : ∀ s, Live sb D s.inode → slotAddr D' v' s = if s = s₀ then b else slotAddr D v s)
    (s : Slot) (c : Nat) : Used sb D' v' s c ↔ Used sb D v s c ∨ (s = s₀ ∧ c = b) := by
  constructor
  · rintro ⟨hl', ha, hz⟩
    have hls := (live_congr htype).mp hl'
    rw [hs s hls] at ha
    split at ha
    · exact Or.inr ⟨‹_›, ha.symm⟩
    · exact Or.inl ⟨hls, ha, hz⟩
  · rintro (⟨hl', ha, hz⟩ | ⟨rfl, rfl⟩)
    · refine ⟨(live_congr htype).mpr hl', ?_, hz⟩
      rw [hs s hl', if_neg]
      · exact ha
      · rintro rfl
        exact hz (ha.symm.trans hempty)
    · exact ⟨(live_congr htype).mpr hl, by rw [hs s hl, if_pos rfl], hb⟩

def setAddr (D : DTable) (i j b : Nat) : DTable := Function.update D i ((D i).withAddr j b)

@[simp] theorem setAddr_type (D : DTable) (i j b i' : Nat) :
    (setAddr D i j b i').type = (D i').type := by
  unfold setAddr
  by_cases h : i' = i
  · subst h
    simp [DInode.withAddr]
  · simp [h]

theorem setAddr_addrs (D : DTable) (i j b i' j' : Nat) :
    (setAddr D i j b i').addrs j' = if i' = i ∧ j' = j then b else (D i').addrs j' := by
  unfold setAddr
  by_cases h : i' = i
  · subst h
    simp [DInode.withAddr, update_apply]
  · simp [h]

theorem setAddr_of_ne (D : DTable) {i i' : Nat} (j b : Nat) (h : i' ≠ i) :
    setAddr D i j b i' = D i' := update_of_ne h _ _

theorem setAddr_fits (h : ∀ i, (D i).Fits) (hb : b < 2 ^ 32) (hj : j ≤ NDIRECT) (i' : Nat) :
    (setAddr D i j b i').Fits := by
  by_cases hi : i' = i
  · subst hi
    have hf := h i'
    unfold setAddr
    rw [update_self]
    refine ⟨hf.type, hf.major, hf.minor, hf.nlink, hf.size, fun j' => ?_, fun j' hj' => ?_⟩
    · simp only [DInode.withAddr, update_apply]
      split
      · exact hb
      · exact hf.addrs j'
    · simp only [DInode.withAddr, update_apply]
      rw [if_neg (by omega)]
      exact hf.rest j' hj'
  · rw [setAddr_of_ne D j b hi]
    exact h i'

theorem slotAddr_setDirect (hj : j < NDIRECT) (s : Slot) :
    slotAddr (setAddr D i j b) v s = if s = .direct i j then b else slotAddr D v s := by
  cases s with
  | direct i' j' =>
    simp only [slotAddr, setAddr_addrs, Slot.direct.injEq]
    by_cases he : i' = i ∧ j' = j
    · rw [if_pos he, if_pos (by omega), if_pos he]
    · rw [if_neg he, if_neg he]
  | indirect i' =>
    simp only [slotAddr, setAddr_addrs, reduceCtorEq, if_false]
    rw [if_neg (by omega)]
  | entry i' j' =>
    have hne : ¬ (i' = i ∧ NDIRECT = j) := by omega
    simp only [slotAddr, setAddr_addrs, if_neg hne, reduceCtorEq, if_false]

theorem slotAddr_setIndirect (hempty : (D i).addrs NDIRECT = 0) (hz : v b = fun _ => 0) (s : Slot) :
    slotAddr (setAddr D i NDIRECT b) v s = if s = .indirect i then b else slotAddr D v s := by
  cases s with
  | direct i' j' =>
    simp only [slotAddr, setAddr_addrs, reduceCtorEq, if_false]
    split
    · rw [if_neg (by omega)]
    · rfl
  | indirect i' => simp only [slotAddr, setAddr_addrs, Slot.indirect.injEq, and_true]
  | entry i' j' =>
    simp only [slotAddr, setAddr_addrs, and_true, reduceCtorEq, if_false]
    by_cases hi : i' = i
    · subst hi
      simp only [hempty, hz, if_true, getEntry_zero, ite_self, ne_eq, not_true_eq_false,
        and_false, if_false]
    · simp [hi]

theorem slotAddr_setEntry (hind : (D i).addrs NDIRECT ≠ 0) (hj : j < NINDIRECT) (hb : b < 2 ^ 32) (hother : s.inode ≠ i → (D s.inode).addrs NDIRECT ≠ (D i).addrs NDIRECT) :
    slotAddr D (update v ((D i).addrs NDIRECT)
        (putEntry (v ((D i).addrs NDIRECT)) j b)) s =
      if s = .entry i j then b else slotAddr D v s := by
  cases s with
  | direct i' j' => simp [slotAddr]
  | indirect i' => simp [slotAddr]
  | entry i' j' =>
    by_cases hi : i' = i
    · subst hi
      simp only [slotAddr, update_self, Slot.entry.injEq, true_and]
      rw [getEntry_putEntry _ _ _ _ hb]
      by_cases hjj : j' = j
      · subst hjj
        simp [hj, hind]
      · simp [hjj]
    · have hne : ¬ (Slot.entry i' j' = Slot.entry i j) := fun h => hi (Slot.entry.inj h).1
      rw [if_neg hne]
      exact slotAddr_congr fun _ => update_of_ne (hother hi) _ _

end Change

end Xv6.Fs
