import Xv6.Disk.Machine

/-!
# The on-disk format of `fs.h`

Bitmap bits, dinodes, the entries of an indirect block and directory entries, as fields of a
block, with what one store does to the other fields.
-/

namespace Xv6.Fs

open Xv6.Foundation Xv6.Disk

set_option autoImplicit false

def T_DIR : Nat := 1

/-- `IBLOCK(i, sb)` -/
def iblock (sb : Superblock) (i : Nat) : Nat := i / IPB + sb.inodestart

/-- `BBLOCK(b, sb)` -/
def bblock (sb : Superblock) (b : Nat) : Nat := b / BPB + sb.bmapstart

/-! ## Bitmap bits -/

/-- `d[bi/8] & (1 << bi%8)` -/
def getBit (d : Block) (bi : Nat) : Bool := (d (bi / 8)).getLsbD (bi % 8)

/-- `d[bi/8] |= 1 << bi%8` -/
def setBit (d : Block) (bi : Nat) : Block :=
  Function.update d (bi / 8) (d (bi / 8) ||| 1#8 <<< (bi % 8))

/-- `d[bi/8] &= ~(1 << bi%8)` -/
def clearBit (d : Block) (bi : Nat) : Block :=
  Function.update d (bi / 8) (d (bi / 8) &&& ~~~(1#8 <<< (bi % 8)))

theorem getLsbD_mask {w i j : Nat} (hj : j < w) : (1#w <<< i).getLsbD j = decide (i = j) := by
  rw [BitVec.getLsbD_shiftLeft, BitVec.getLsbD_one]
  by_cases h : j < i
  · simp [h, Nat.ne_of_gt h]
  · by_cases he : i = j
    · simp [he, hj, Nat.zero_lt_of_lt hj]
    · have hz : j - i ≠ 0 := by omega
      simp [he, hz]

theorem getBit_setBit (d : Block) (bi bj : Nat) :
    getBit (setBit d bi) bj = (getBit d bj || decide (bi = bj)) := by
  unfold getBit setBit
  by_cases h : bj / 8 = bi / 8
  · have hm : decide (bi % 8 = bj % 8) = decide (bi = bj) := by
      rw [decide_eq_decide]
      omega
    rw [h, Function.update_self, BitVec.getLsbD_or, getLsbD_mask (by omega), hm]
  · have hne : bi ≠ bj := fun he => h (by rw [he])
    rw [Function.update_of_ne h]
    simp [hne]

theorem getBit_clearBit (d : Block) (bi bj : Nat) :
    getBit (clearBit d bi) bj = (getBit d bj && !decide (bi = bj)) := by
  unfold getBit clearBit
  by_cases h : bj / 8 = bi / 8
  · have hm : decide (bi % 8 = bj % 8) = decide (bi = bj) := by
      rw [decide_eq_decide]
      omega
    have hlt : bj % 8 < 8 := by omega
    rw [h, Function.update_self, BitVec.getLsbD_and, BitVec.getLsbD_not, getLsbD_mask hlt, hm]
    simp [hlt]
  · have hne : bi ≠ bj := fun he => h (by rw [he])
    rw [Function.update_of_ne h]
    simp [hne]

/-! ## Words of an indirect block -/

def getEntry (d : Block) (j : Nat) : Nat := getLE d (4 * j) 4

def putEntry (d : Block) (j a : Nat) : Block := putLE d (4 * j) 4 a

theorem getEntry_putEntry (d : Block) (j a j' : Nat) (ha : a < 2 ^ 32) :
    getEntry (putEntry d j a) j' = if j' = j then a else getEntry d j' := by
  unfold getEntry putEntry
  split
  · rename_i h
    rw [h, getLE_putLE_self _ _ _ _ ha]
  · exact getLE_putLE_of_disjoint _ (by omega)

theorem getLE_zero (off n : Nat) : getLE (fun _ => 0) off n = 0 := by
  induction n generalizing off with
  | zero => rfl
  | succ n ih =>
    rw [getLE, ih]
    rfl

theorem getEntry_zero (j : Nat) : getEntry (fun _ => 0) j = 0 := getLE_zero _ _

/-! ## Dinodes -/

/-- `(struct dinode*)d + s` -/
def getDInode (d : Block) (s : Nat) : DInode where
  type := getLE d (64 * s) 2
  major := getLE d (64 * s + 2) 2
  minor := getLE d (64 * s + 4) 2
  nlink := getLE d (64 * s + 6) 2
  size := getLE d (64 * s + 8) 4
  addrs := fun j => if j ≤ NDIRECT then getLE d (64 * s + 12 + 4 * j) 4 else 0

/-- `memmove` of `n` words to offset `off`. -/
def putWords (d : Block) (off : Nat) (f : Nat → Nat) : Nat → Block
  | 0 => d
  | n + 1 => putLE (putWords d off f n) (off + 4 * n) 4 (f n)

def putDInode (d : Block) (s : Nat) (x : DInode) : Block :=
  putWords (putLE (putLE (putLE (putLE (putLE d (64 * s) 2 x.type) (64 * s + 2) 2 x.major)
    (64 * s + 4) 2 x.minor) (64 * s + 6) 2 x.nlink) (64 * s + 8) 4 x.size)
    (64 * s + 12) x.addrs (NDIRECT + 1)

theorem getLE_putWords_of_disjoint (d : Block) {off : Nat} (f : Nat → Nat) {n off' k : Nat}
    (h : off' + k ≤ off ∨ off + 4 * n ≤ off') :
    getLE (putWords d off f n) off' k = getLE d off' k := by
  induction n with
  | zero => rfl
  | succ n ih =>
    rw [putWords, getLE_putLE_of_disjoint _ (by omega), ih (by omega)]

theorem getLE_putWords (d : Block) (off : Nat) {f : Nat → Nat} (hf : ∀ j, f j < 2 ^ 32) {n j : Nat}
    (hj : j < n) : getLE (putWords d off f n) (off + 4 * j) 4 = f j := by
  induction n with
  | zero => omega
  | succ n ih =>
    rw [putWords]
    by_cases h : j = n
    · rw [h, getLE_putLE_self _ _ _ _ (hf n)]
    · rw [getLE_putLE_of_disjoint _ (by omega), ih (by omega)]

theorem getDInode_putDInode_self (d : Block) (s : Nat) {x : DInode} (hx : x.Fits) :
    getDInode (putDInode d s x) s = x := by
  ext
  case addrs j =>
    simp only [getDInode, putDInode]
    split
    · exact getLE_putWords _ _ hx.addrs (by omega)
    · exact (hx.rest j (by omega)).symm
  all_goals
    simp (disch := omega) only [getDInode, putDInode, getLE_putWords_of_disjoint,
      getLE_putLE_of_disjoint]
  · exact getLE_putLE_self _ _ _ _ hx.type
  · exact getLE_putLE_self _ _ _ _ hx.major
  · exact getLE_putLE_self _ _ _ _ hx.minor
  · exact getLE_putLE_self _ _ _ _ hx.nlink
  · exact getLE_putLE_self _ _ _ _ hx.size

theorem getDInode_congr {d e : Block} {s : Nat}
    (h : ∀ off n, 64 * s ≤ off → off + n ≤ 64 * s + 64 → getLE d off n = getLE e off n) :
    getDInode d s = getDInode e s := by
  have hN : NDIRECT = 12 := rfl
  simp only [getDInode]
  congr 1
  · exact h _ _ (by omega) (by omega)
  · exact h _ _ (by omega) (by omega)
  · exact h _ _ (by omega) (by omega)
  · exact h _ _ (by omega) (by omega)
  · exact h _ _ (by omega) (by omega)
  · funext j
    by_cases hj : j ≤ NDIRECT
    · rw [if_pos hj, if_pos hj, h _ _ (by omega) (by omega)]
    · rw [if_neg hj, if_neg hj]

theorem getDInode_putDInode_of_ne (d : Block) {s s' : Nat} (x : DInode) (h : s' ≠ s) :
    getDInode (putDInode d s x) s' = getDInode d s' := by
  apply getDInode_congr
  intro off n hlo hhi
  have hsep : 64 * s' + 64 ≤ 64 * s ∨ 64 * s + 64 ≤ 64 * s' := by omega
  simp only [putDInode, NDIRECT]
  simp (disch := omega) only [getLE_putWords_of_disjoint, getLE_putLE_of_disjoint]

theorem getDInode_fits (d : Block) (s : Nat) : (getDInode d s).Fits where
  type := getLE_lt d _ 2
  major := getLE_lt d _ 2
  minor := getLE_lt d _ 2
  nlink := getLE_lt d _ 2
  size := getLE_lt d _ 4
  addrs j := by
    simp only [getDInode]
    split
    · exact getLE_lt d _ 4
    · omega
  rest j hj := by
    simp only [getDInode]
    rw [if_neg (by omega)]

/-! ## Directory entries -/

def dirent (inum : Nat) (name : Bytes) : Bytes := fun o =>
  if o < 2 then BitVec.ofNat 8 (inum / 256 ^ o) else name (o - 2)

def direntInum (de : Bytes) : Nat := getLE de 0 2

def direntName (de : Bytes) : Bytes := fun i => de (i + 2)

/-- `strncmp(p + i, q + i, n) == 0` -/
def strncmpZero (p q : Bytes) : Nat → Nat → Bool
  | 0, _ => true
  | n + 1, i => if p i ≠ 0 ∧ p i = q i then strncmpZero p q n (i + 1) else p i == q i

/-- `namecmp(s, t) == 0` -/
def namecmp (s t : Bytes) : Bool := strncmpZero s t DIRSIZ 0

/-- What `strncpy` stores: the string up to its end, then zeros. -/
def strncpy (t : Bytes) : Bytes := fun i => if (List.range i).any fun j => t j == 0 then 0 else t i

def dotName : Bytes := fun i => if i = 0 then 46 else 0

def dotdotName : Bytes := fun i => if i < 2 then 46 else 0

end Xv6.Fs
