import Xv6.Disk.Crash
import Xv6.Foundation.SharedCursor
import Xv6.Fs.Files

/-!
# Files are byte strings

What a file is for: a string of bytes that `writei` overwrites or extends in place and of which
`readi` delivers a part. A write succeeds if and only if the free blocks and the log have room for
what it takes.
-/

namespace Xv6.Fs

open Xv6.Foundation Xv6.Foundation.SharedCursor Xv6.Disk

set_option autoImplicit false

def firstBytes (src : Bytes) (n : Nat) : List Byte := (List.range n).map src

@[simp] theorem length_firstBytes (src : Bytes) (n : Nat) : (firstBytes src n).length = n := by
  simp [firstBytes]

theorem getElem?_firstBytes (src : Bytes) (n o : Nat) :
    (firstBytes src n)[o]? = if o < n then some (src o) else none := by
  unfold firstBytes
  split
  · rw [List.getElem?_map, List.getElem?_range ‹_›]
    rfl
  · exact List.getElem?_eq_none (by simp; omega)

def contents (D : DTable) (v : View) (i : Nat) : List Byte :=
  firstBytes (fileByte D v i) (D i).size

section Contents
variable {k k' : Kernel} {D D' : DTable} {v v' : View} {ip i inum off n : Nat} {src : Bytes}
  {R : Prop}

theorem contents_congr (hs : (D' i).size = (D i).size)
    (h : ∀ o < (D i).size, fileByte D' v' i o = fileByte D v i o) :
    contents D' v' i = contents D v i := by
  unfold contents
  rw [hs]
  exact List.map_congr_left fun o ho => h o (List.mem_range.mp ho)

theorem getElem?_overwrite {old data : List Byte} (hoff : off ≤ old.length) (o : Nat) :
    (overwrite old off data)[o]? =
      if off ≤ o ∧ o < off + data.length then data[o - off]? else old[o]? := by
  have hlen : (old.take off).length = off := by simpa using hoff
  unfold overwrite
  rw [List.append_assoc]
  by_cases h1 : o < off
  · rw [List.getElem?_append_left (by omega), if_neg (by omega), List.getElem?_take, if_pos h1]
  · rw [List.getElem?_append_right (by omega), hlen]
    by_cases h2 : o < off + data.length
    · rw [List.getElem?_append_left (by omega), if_pos ⟨by omega, h2⟩]
    · rw [List.getElem?_append_right (by omega), if_neg (by omega), List.getElem?_drop]
      congr 1
      omega

theorem contents_eq_overwrite (hoff : off ≤ (D i).size) (hs : (D' i).size = max (D i).size (off + n))
    (hin : ∀ o, off ≤ o → o < off + n → fileByte D' v' i o = src (o - off))
    (hout : ∀ o < (D i).size, ¬ (off ≤ o ∧ o < off + n) →
      fileByte D' v' i o = fileByte D v i o) :
    contents D' v' i = overwrite (contents D v i) off (firstBytes src n) := by
  apply List.ext_getElem?
  intro o
  rw [getElem?_overwrite (by simpa [contents] using hoff), length_firstBytes, contents, contents,
    getElem?_firstBytes, getElem?_firstBytes, getElem?_firstBytes, hs]
  by_cases hr : off ≤ o ∧ o < off + n
  · rw [if_pos (by omega), if_pos hr, if_pos (by omega), hin o hr.1 hr.2]
  · rw [if_neg hr]
    by_cases ho : o < (D i).size
    · rw [if_pos (by omega), if_pos ho, hout o ho hr]
    · rw [if_neg (by omega), if_neg ho]

/-- The bytes of file `i` in `[off, off + n)`, as far as there are any. -/
def filePart (D : DTable) (v : View) (i off n : Nat) : List Byte :=
  ((contents D v i).drop off).take n

theorem length_filePart (D : DTable) (v : View) (i off n : Nat) :
    (filePart D v i off n).length = min n ((D i).size - off) := by
  simp [filePart, contents]

theorem filePart_eq (D : DTable) (v : View) (i off n : Nat) : filePart D v i off n =
    firstBytes (fun o => fileByte D v i (off + o)) (min n ((D i).size - off)) := by
  apply List.ext_getElem?
  intro o
  rw [filePart, List.getElem?_take, List.getElem?_drop, contents, getElem?_firstBytes,
    getElem?_firstBytes]
  by_cases ho : o < n
  · rw [if_pos ho]
    by_cases hs : off + o < (D i).size
    · rw [if_pos hs, if_pos (by omega)]
    · rw [if_neg hs, if_neg (by omega)]
  · rw [if_neg ho, if_neg (by omega)]

theorem FileWritten.other_file {ok : Prop} (hw : FileWritten k k' D D' ip inum off n ok ∅ ∅)
    (h : FsInv k D [] ∅ [] none) (hi : i ≠ inum) (hl : Live k.sb D i) (hl' : Live k.sb D inum) :
    (∀ s : Slot, s.inode = i → slotAddr D' k'.view s = slotAddr D k.view s) ∧
      contents D' k'.view i = contents D k.view i := by
  have hslots : ∀ s : Slot, s.inode = i → slotAddr D' k'.view s = slotAddr D k.view s := by
    rintro s rfl
    exact (hw.slots s hl).resolve_right fun hc => hi hc.2
  refine ⟨hslots, contents_congr (by rw [hw.other i hi]) fun o ho => ?_⟩
  have hz := h.holes i hl (by simp) (o / BSIZE) (by have := Nat.div_mul_le_self o BSIZE; omega)
  have hu : Used k.sb D k.view (fileSlot i (o / BSIZE)) _ :=
    ⟨by rw [fileSlot_inode]; exact hl, rfl, hz⟩
  rw [fileByte, hslots _ (fileSlot_inode _ _),
    hw.kept _ (h.owned.range _ _ hu).1 (Set.notMem_empty _) (Set.notMem_empty _), fileByte]
  -- the blocks of the other file belong to nobody else
  intro s hs he
  have hsb := hw.steady.sb
  have hlive : ∀ j, Live k.sb D j → Live k'.sb D' j := fun j hj => by
    rw [hsb, Live]
    by_cases hji : j = inum
    · rw [hji] at hj ⊢
      rw [hw.same]
      exact hj
    · rw [hw.other j hji]
      exact hj
  have hus : Used k'.sb D' k'.view s (slotAddr D k.view (fileSlot i (o / BSIZE))) :=
    ⟨hlive _ (by rw [hs]; exact hl'), he, hz⟩
  have huf : Used k'.sb D' k'.view (fileSlot i (o / BSIZE))
      (slotAddr D k.view (fileSlot i (o / BSIZE))) :=
    ⟨hlive _ (by rw [fileSlot_inode]; exact hl), hslots _ (fileSlot_inode _ _), hz⟩
  have := congrArg Slot.inode (hw.inv.owned.inj _ _ _ hus huf)
  rw [hs, fileSlot_inode] at this
  exact hi this.symm

theorem ok_of_wp {α : Type} {f : K α} {Q : α → Kernel → Prop} (h : wp f Q (Fail True) k) :
    ∃ a k', f k = .ok a k' ∧ Q a k' := by
  unfold wp at h
  split at h
  · exact ⟨_, _, ‹_›, h⟩
  · exact absurd trivial h.1

theorem fits_of_writei {dirty : Set Nat} {m : Mem} {w : Nat} (h : FsInv k D [] dirty [] none)
    (ht : Table k.inode k.sb.ninodes D) (ho : Opened k ip inum) (hoff : off ≤ (D inum).size)
    (hmax : off + n ≤ MAXFILE * BSIZE) (hrun : writei ip m w off n k = .ok (n : Int) k') :
    Fits k D inum (off / BSIZE) (touched off n) := by
  have hspec := writei_exact (R := False) m w h ht ho hoff hmax fun hf => hf.elim
  rw [wp_of_ok hrun] at hspec
  obtain ⟨t, ht', -, -, hfits, -⟩ := hspec
  exact hfits (by exact_mod_cast ht'.symm)

/-- A write of a mapped source returns if and only if it fits. If it returns, it has replaced its part of
the contents and nothing else, and has logged the blocks that `Fits` counts and the inode. A read
delivers its part and changes nothing. -/
theorem files_refine_byte_strings (h : FsInv k D [] ∅ [] none) (ht : Table k.inode k.sb.ninodes D)
    (ho : Opened k ip inum) (hsize : k.log.size = LOGSIZE) :
    (∀ (m : Mem) (w off n : Nat), m.Covers w n → off ≤ (D inum).size → off + n ≤ MAXFILE * BSIZE →
      ((∃ k', writei ip m w off n k = .ok (n : Int) k') ↔
        Fits k D inum (off / BSIZE) (touched off n)) ∧
      ∀ r k', writei ip m w off n k = .ok r k' → r = n ∧
        k'.log.lh.toFinset =
          insert (iblock k.sb inum) (logAfter k D inum (off / BSIZE) (touched off n)) ∧
        ∃ D', FsInv k' D' [] ∅ [] none ∧ Table k'.inode k'.sb.ninodes D' ∧
          contents D' k'.view inum =
            overwrite (contents D k.view inum) off (firstBytes (fun o => m.byte (w + o)) n) ∧
          (D' inum).size = max (D inum).size (off + n) ∧
          ∀ i, i ≠ inum → D' i = D i ∧ (Live k.sb D i →
            (∀ s : Slot, s.inode = i → slotAddr D' k'.view s = slotAddr D k.view s) ∧
            contents D' k'.view i = contents D k.view i)) ∧
    ∀ (m : Mem) (w off n : Nat), m.Covers w (filePart D k.view inum off n).length → off + n < 2 ^ 32 →
      ∃ m' k', readi ip m w off n k = .ok (m', ((filePart D k.view inum off n).length : Int)) k' ∧
        firstBytes (fun o => m'.byte (w + o)) (filePart D k.view inum off n).length =
          filePart D k.view inum off n ∧
        (∀ a, ¬ (w ≤ a ∧ a < w + (filePart D k.view inum off n).length) → m'.byte a = m.byte a) ∧
        Quiet k k' ∧ k'.view = k.view := by
  have hl := ho.live ht
  refine ⟨fun m w off n hcov hoff hmax => ⟨⟨?_, fun hfits => ?_⟩, fun r k' hrun => ?_⟩,
    fun m w off n hcov hwrap => ?_⟩
  · rintro ⟨k', hrun⟩
    exact fits_of_writei h ht ho hoff hmax hrun
  · obtain ⟨r, k', hrun, t, rfl, -, hall, -⟩ :=
      ok_of_wp (writei_spec (R := True) m w h ht ho hoff hmax fun _ => ⟨hsize, hfits⟩)
    rw [hall hcov] at hrun
    exact ⟨k', hrun⟩
  · have hspec := writei_exact (R := False) m w h ht ho hoff hmax fun hf => hf.elim
    rw [wp_of_ok hrun] at hspec
    obtain ⟨t, rfl, -, hall, -, ⟨b, -, hb, hlh⟩, D', dirty', hw, hex⟩ := hspec
    obtain rfl := hall hcov
    obtain rfl := hb rfl
    have hd : dirty' = ∅ := Set.subset_empty_iff.mp (hw.sub rfl)
    subst hd
    have hsz : (D' inum).size = max (D inum).size (off + t) := by rw [hw.same]
    refine ⟨rfl, hlh, D', hw.inv, hw.table, ?_, hsz,
      fun i hi => ⟨hw.other i hi, fun hli => hw.other_file h hi hli hl⟩⟩
    refine contents_eq_overwrite hoff hsz (hex rfl).bytes fun o holt hn =>
      (hex rfl).rest o hn ?_ (Set.notMem_empty _)
    exact h.holes inum hl (by simp) _ (by have := Nat.div_mul_le_self o BSIZE; omega)
  · have hroom : k.log.lh.length < NBUF := by
      have := h.room
      rw [hsize] at this
      exact this
    rw [length_filePart] at hcov ⊢
    obtain ⟨⟨m', r⟩, k', hrun, -, hq, hk, hr, hm⟩ :=
      ok_of_wp (readi_bytes (R := True) m w h ht ho (h.holes inum hl (by simp)) hcov hwrap
        fun _ => hroom)
    simp only at hr
    have hm' : m' = _ := hm fun _ _ _ => Set.notMem_empty _
    refine ⟨m', k', by rw [hrun, hr], ?_, fun a ha => ?_, hq,
      funext fun c => hk c (Or.inl (Set.notMem_empty c))⟩
    · rw [filePart_eq]
      refine List.map_congr_left fun o ho => ?_
      rw [List.mem_range] at ho
      rw [hm']
      simp only [blit]
      rw [if_pos (by omega), Nat.add_sub_cancel_left]
    · rw [hm']
      exact if_neg ha

end Contents

/-! ## Small images -/

def smallSb : Superblock := ⟨FSMAGIC, 1000, 954, 200, LOGSIZE, 2, 32, 45⟩

/-- A file of one block. -/
def imageFile (t i : Nat) : DInode := ⟨t, 0, 0, 1, BSIZE, fun j => if j = 0 then 45 + i else 0⟩

/-- The types and contents of the files of an image; the first is inode 1. -/
abbrev FileImage := List (Nat × Block)

def imageTable (fs : FileImage) : DTable
  | 0 => freshDInode 0
  | i + 1 => (fs[i]?).elim (freshDInode 0) fun f => imageFile f.1 (i + 1)

/-- The blocks before `n` are taken. -/
def imageBitmap (n : Nat) : Block := fun j => BitVec.ofNat 8 (2 ^ (n - 8 * j) - 1)

/-- The inodes up to `n` in the first block of inodes. -/
def inodeBlock (D : DTable) : Nat → Block
  | 0 => fun _ => 0
  | n + 1 => putDInode (inodeBlock D n) (n + 1) (D (n + 1))

def imageDisk (fs : FileImage) : Nat → Block := fun b =>
  if b = 32 then inodeBlock (imageTable fs) fs.length
  else if b = 45 then imageBitmap (46 + fs.length)
  else if b < 46 then fun _ => 0
  else (fs[b - 46]?).elim (fun _ => 0) Prod.snd

/-- Inside an operation, with the first file open. -/
def imageKernel (fs : FileImage) : Kernel where
  disk := imageDisk fs
  writes := []
  buf := fun _ => freshBuf
  lru := (List.range NBUF).reverse
  log := ⟨2, LOGSIZE, 1, false, ROOTDEV, []⟩
  sb := smallSb
  inode := fun i => if i = 0 then ⟨ROOTDEV, 1, 1, true, true, imageTable fs 1⟩
    else ⟨ROOTDEV, 0, 0, false, false, freshDInode 0⟩

/-- The inodes fit in one block, and all are in use. -/
structure FileImage.Small (fs : FileImage) : Prop where
  pos : 0 < fs.length
  length : fs.length < IPB
  types : ∀ f ∈ fs, 0 < f.1 ∧ f.1 < 2 ^ 16

section Image
variable {fs : FileImage}

theorem imageKernel_cache (fs : FileImage) : CacheInv (imageKernel fs) ∅ [] [] :=
  { reboot_cacheInv (imageKernel fs) (imageDisk fs) with }

theorem imageKernel_view (fs : FileImage) : (imageKernel fs).view = imageDisk fs :=
  funext fun _ => (imageKernel_cache fs).view_eq_disk (by simp) (by simp)

theorem getBit_imageBitmap (n b : Nat) : getBit (imageBitmap n) b = true ↔ b < n := by
  have hr := Nat.mod_lt b (show 0 < 8 by decide)
  rw [getBit, imageBitmap, BitVec.getLsbD_ofNat, Nat.testBit_two_pow_sub_one, Bool.and_eq_true,
    decide_eq_true_iff, decide_eq_true_iff]
  omega

theorem marked_image {b : Nat} (hb : b < 1000) :
    marked smallSb (imageDisk fs) b ↔ b < 46 + fs.length := by
  have hd : b / BPB = 0 := Nat.div_eq_of_lt (hb.trans (by decide))
  have hm : b % BPB = b := Nat.mod_eq_of_lt (hb.trans (by decide))
  rw [marked, bblock, hd, hm]
  exact getBit_imageBitmap _ b

theorem imageTable_eq_or (fs : FileImage) (i : Nat) :
    (∃ f ∈ fs, 1 ≤ i ∧ i ≤ fs.length ∧ imageTable fs i = imageFile f.1 i) ∨
      ((i = 0 ∨ fs.length < i) ∧ imageTable fs i = freshDInode 0) := by
  cases i with
  | zero => exact Or.inr ⟨Or.inl rfl, rfl⟩
  | succ i =>
    rcases Nat.lt_or_ge i fs.length with hi | hi
    · have hf : fs[i]? = some fs[i] := List.getElem?_eq_getElem hi
      refine Or.inl ⟨fs[i], List.getElem_mem hi, Nat.succ_pos i, hi, ?_⟩
      simp [imageTable, hf]
    · have hf : fs[i]? = none := List.getElem?_eq_none hi
      refine Or.inr ⟨Or.inr (Nat.lt_succ_of_le hi), ?_⟩
      simp [imageTable, hf]

namespace FileImage.Small
variable (h : fs.Small)
include h

theorem live {i : Nat} : Live smallSb (imageTable fs) i ↔ 1 ≤ i ∧ i ≤ fs.length := by
  have hlen : IPB < smallSb.ninodes := by decide
  have := h.length
  rcases imageTable_eq_or fs i with ⟨f, hf, h1, hle, hi⟩ | ⟨hout, hi⟩
  · exact iff_of_true ⟨h1, by omega, by rw [hi]; exact Nat.ne_of_gt (h.types f hf).1⟩ ⟨h1, hle⟩
  · refine iff_of_false (fun hl => hl.2.2 (by rw [hi]; rfl)) ?_
    omega

theorem table_fits (i : Nat) : (imageTable fs i).Fits := by
  rcases imageTable_eq_or fs i with ⟨f, hf, h1, hle, hi⟩ | ⟨-, hi⟩
  · have := h.length
    have hI : IPB = 16 := rfl
    rw [hi]
    refine ⟨(h.types f hf).2, Nat.two_pow_pos 16, Nat.two_pow_pos 16, Nat.one_lt_two_pow (by decide),
      show BSIZE < 2 ^ 32 by decide, fun j => ?_, fun j hj => ?_⟩
    · simp only [imageFile]
      split <;> omega
    · have : j ≠ 0 := by omega
      simp [imageFile, this]
  · rw [hi]
    exact freshDInode_fits (by decide)

end FileImage.Small

theorem slotAddr_image (v : View) {s : Slot} {i : Nat} (hs : s.inode = i) (h1 : 1 ≤ i)
    (hle : i ≤ fs.length) :
    slotAddr (imageTable fs) v s = if s = .direct i 0 then 45 + i else 0 := by
  obtain ⟨f, -, -, -, hi⟩ | ⟨hout, -⟩ := imageTable_eq_or fs i
  · cases s with
    | direct i' j =>
      obtain rfl : i' = i := hs
      simp only [slotAddr, hi, imageFile, Slot.direct.injEq, true_and]
      by_cases hj : j = 0
      · subst hj
        rfl
      · simp [hj]
    | indirect i' | entry i' j =>
      obtain rfl : i' = i := hs
      simp [slotAddr, hi, imageFile, NDIRECT]
  · omega

theorem slotAddr_first (v : View) {i : Nat} (h1 : 1 ≤ i) (hle : i ≤ fs.length) :
    slotAddr (imageTable fs) v (.direct i 0) = 45 + i :=
  (slotAddr_image v (show (Slot.direct i 0).inode = i from rfl) h1 hle).trans (if_pos rfl)

theorem used_image (h : fs.Small) (v : View) (s : Slot) (b : Nat) :
    Used smallSb (imageTable fs) v s b ↔ 46 ≤ b ∧ b < 46 + fs.length ∧ s = .direct (b - 45) 0 := by
  constructor
  · rintro ⟨hl, ha, hz⟩
    obtain ⟨h1, hle⟩ := h.live.mp hl
    rw [slotAddr_image v rfl h1 hle] at ha
    split at ha
    · rename_i hs
      subst ha
      exact ⟨by omega, by omega, by rwa [Nat.add_sub_cancel_left]⟩
    · exact absurd ha.symm hz
  · rintro ⟨hlo, hhi, rfl⟩
    have h1 : 1 ≤ b - 45 := by omega
    have hle : b - 45 ≤ fs.length := by omega
    refine ⟨h.live.mpr ⟨h1, hle⟩, ?_, by omega⟩
    rw [slotAddr_first v h1 hle]
    omega

theorem getDInode_zero (s : Nat) : getDInode (fun _ => 0) s = freshDInode 0 := by
  unfold getDInode freshDInode
  simp only [getLE_zero, ite_self]

theorem getDInode_inodeBlock {D : DTable} (hD : ∀ i, (D i).Fits) (n s : Nat) :
    getDInode (inodeBlock D n) s = if 1 ≤ s ∧ s ≤ n then D s else freshDInode 0 := by
  induction n with
  | zero =>
    rw [inodeBlock, getDInode_zero, if_neg (by omega)]
  | succ n ih =>
    rw [inodeBlock]
    by_cases hs : s = n + 1
    · rw [hs, getDInode_putDInode_self _ _ (hD _), if_pos (by omega)]
    · rw [getDInode_putDInode_of_ne _ _ hs, ih]
      congr 1
      exact propext (by omega)

theorem iblock_small_lt {i : Nat} (hi : i < 200) : iblock smallSb i < 45 := by
  have hdiv : i / 16 < 13 := by omega
  exact Nat.add_lt_add_right hdiv 32

theorem onDisk_image (h : fs.Small) {i : Nat} (hi : i < 200) :
    onDisk smallSb (imageDisk fs) i = imageTable fs i := by
  have h45 := iblock_small_lt hi
  have hlen := h.length
  rw [onDisk, imageDisk]
  by_cases hb : iblock smallSb i = 32
  · have hmod : i % IPB = i := by
      refine Nat.mod_eq_of_lt ?_
      rw [← Nat.div_eq_zero_iff_lt (by decide)]
      simpa [iblock, smallSb] using hb
    rw [if_pos hb, hmod, getDInode_inodeBlock h.table_fits]
    split
    · rfl
    · rcases imageTable_eq_or fs i with ⟨-, -, h1, hle, -⟩ | ⟨-, hz⟩
      · omega
      · exact hz.symm
  · rw [if_neg hb, if_neg (by omega), if_pos (by omega), getDInode_zero]
    rcases imageTable_eq_or fs i with ⟨-, -, h1, hle, -⟩ | ⟨-, hz⟩
    · refine absurd ?_ hb
      rw [iblock, Nat.div_eq_of_lt (by omega)]
      rfl
    · exact hz.symm

theorem imageKernel_inv (h : fs.Small) : FsInv (imageKernel fs) (imageTable fs) [] ∅ [] none := by
  have hsb : (imageKernel fs).sb = smallSb := rfl
  have h46 : datastart smallSb = 46 := by decide
  have hlen := h.length
  have hI : IPB = 16 := rfl
  have hgeo : 2 + LOGSIZE ≤ smallSb.inodestart ∧
      smallSb.inodestart + smallSb.ninodes / IPB + 1 ≤ smallSb.bmapstart ∧
      datastart smallSb ≤ smallSb.size ∧ smallSb.size ≤ 2 ^ 31 := by decide
  refine ⟨imageKernel_cache fs, ⟨hgeo.1, hgeo.2.1, hgeo.2.2.1, hgeo.2.2.2⟩, rfl,
    by simp [imageKernel], show 0 < LOGSIZE by decide, ?_, ?_, by simp, h.table_fits, ?_, ?_⟩
  · rw [hsb, imageKernel_view]
    refine ⟨fun s b hu => ?_, fun s s' b hs hs' => ?_, List.nodup_nil, by simp, by simp,
      fun b hlo hhi => ?_⟩
    · obtain ⟨hlo, hhi, -⟩ := (used_image h _ s b).mp hu
      have hsize : smallSb.size = 1000 := rfl
      rw [h46, hsize]
      omega
    · rw [((used_image h _ s b).mp hs).2.2, ((used_image h _ s' b).mp hs').2.2]
    · rw [marked_image hhi]
      simp only [used_image h, List.not_mem_nil, or_false]
      rw [h46] at hlo
      exact ⟨fun hb => ⟨_, hlo, hb, rfl⟩, fun ⟨_, _, hb, _⟩ => hb⟩
  · intro b hb
    rw [hsb, imageKernel_view, marked_image (by rw [hsb] at hb; omega)]
    rw [hsb] at hb
    omega
  · intro i _ hlt _
    rw [hsb, imageKernel_view]
    exact onDisk_image h hlt
  · intro i hl _ bn hbn
    obtain ⟨h1, hle⟩ := h.live.mp hl
    rcases imageTable_eq_or fs i with ⟨f, -, -, -, hi⟩ | ⟨hout, -⟩
    · rw [hi] at hbn
      obtain rfl : bn = 0 := by
        have hB : BSIZE = 1024 := rfl
        change bn * BSIZE < BSIZE at hbn
        rw [hB] at hbn
        omega
      rw [show fileSlot i 0 = .direct i 0 from rfl, slotAddr_first _ h1 hle]
      omega
    · omega

theorem imageKernel_table (h : fs.Small) :
    Table (imageKernel fs).inode (imageKernel fs).sb.ninodes (imageTable fs) := by
  have href : ∀ i, 0 < ((imageKernel fs).inode i).ref → i = 0 := fun i hi => by
    by_contra hne
    simp [imageKernel, hne] at hi
  refine ⟨fun i _ j _ hi hj _ => (href i hi).trans (href j hj).symm, fun i _ hi => ?_,
    fun i _ hi _ => ?_⟩
  · rw [href i hi]
    rfl
  · obtain ⟨hlo, hhi, ht⟩ := h.live.mpr ⟨le_refl 1, h.pos⟩
    rw [href i hi]
    exact ⟨hlo, hhi, rfl, ht⟩

theorem imageKernel_opened (fs : FileImage) : Opened (imageKernel fs) 0 1 :=
  ⟨by decide, Nat.one_pos, rfl, rfl⟩

theorem freeBlocks_image (fs : FileImage) :
    freeBlocks smallSb (imageDisk fs) = Finset.Ico (46 + fs.length) 1000 := by
  ext b
  rw [mem_freeBlocks, Finset.mem_Ico]
  refine ⟨fun hb => ?_, fun hb => ⟨hb.2, ?_⟩⟩
  · have hfree := hb.2
    rw [marked_image hb.1] at hfree
    exact ⟨by omega, hb.1⟩
  · rw [marked_image hb.2]
    omega

theorem imageKernel_free (h : fs.Small) :
    900 ≤ (freeBlocks (imageKernel fs).sb (imageKernel fs).view).card := by
  have hsb : (imageKernel fs).sb = smallSb := rfl
  have hlen := h.length
  have hI : IPB = 16 := rfl
  rw [imageKernel_view, hsb, freeBlocks_image, Nat.card_Ico]
  omega

end Image

/-- The image with a file of one block of zeros. -/
def smallImage : FileImage := [(2, fun _ => 0)]

theorem smallImage_small : smallImage.Small := ⟨by decide, by decide, by decide⟩

def smallKernel : Kernel := imageKernel smallImage

def smallTable : DTable := imageTable smallImage

theorem smallKernel_cache : CacheInv smallKernel ∅ [] [] := imageKernel_cache _

theorem smallKernel_inv : FsInv smallKernel smallTable [] ∅ [] none :=
  imageKernel_inv smallImage_small

theorem smallKernel_table : Table smallKernel.inode smallKernel.sb.ninodes smallTable :=
  imageKernel_table smallImage_small

theorem smallKernel_opened : Opened smallKernel 0 1 := imageKernel_opened _

theorem smallKernel_free : 900 ≤ (freeBlocks smallKernel.sb smallKernel.view).card :=
  imageKernel_free smallImage_small

/-! ## How long a write may be -/

theorem missing_small (v : View) (n : Nat) :
    missing (smallTable 1) v 0 (n + 1) = Finset.Ico 1 (n + 1) := by
  ext bn
  rw [missing, Finset.mem_filter, Finset.mem_Ico, Finset.mem_Ico, ← slotAddr_fileSlot_eq,
    smallTable, slotAddr_image v (fileSlot_inode 1 bn) le_rfl le_rfl]
  have hfirst : fileSlot 1 bn = .direct 1 0 ↔ bn = 0 := by
    constructor
    · exact fun he => (fileSlot_inj (he.trans (show Slot.direct 1 0 = fileSlot 1 0 from rfl))).2
    · rintro rfl
      rfl
  simp only [hfirst]
  split <;> simp <;> omega

theorem demand_small (v : View) {n : Nat} (hn : NDIRECT ≤ n) : demand (smallTable 1) v 0 (n + 1) = n + 1 := by
  have hind : Indirect (Finset.Ico 1 (n + 1)) :=
    ⟨n, Finset.mem_Ico.mpr ⟨le_trans (by decide) hn, by omega⟩, hn⟩
  rw [demand, missing_small, Nat.card_Ico, if_pos ⟨rfl, hind⟩]
  rfl

/-- From the first block on and beyond the direct blocks, the blocks from the bitmap on are logged: one
for each block of the file, the indirect block and the bitmap. -/
theorem logAfter_small {n : Nat} (hn : NDIRECT ≤ n) (hmax : n < MAXFILE) :
    logAfter smallKernel smallTable 1 0 (n + 1) = Finset.Ico 45 (48 + n) := by
  have hview : smallKernel.view = imageDisk smallImage := imageKernel_view _
  have hlow : lowest (freeBlocks smallSb (imageDisk smallImage)) (n + 1) = Finset.Ico 47 (48 + n) := by
    have hM : MAXFILE = 268 := rfl
    have hlen : smallImage.length = 1 := rfl
    rw [freeBlocks_image, lowest_Ico, hlen, Nat.min_eq_right (by omega)]
    congr 1
    omega
  have hbit : ∀ a < 1000, bblock smallSb a = 45 := fun a ha => by
    rw [bblock, Nat.div_eq_of_lt (ha.trans (by decide))]
    rfl
  have hat : ∀ bn, blockAt (smallTable 1) (imageDisk smallImage) bn = if bn = 0 then 46 else 0 :=
    fun bn => by
      by_cases hb : bn = 0
      · rw [hb]
        rfl
      · have hm : bn ∈ missing (smallTable 1) (imageDisk smallImage) 0 (bn + 1) := by
          rw [missing_small, Finset.mem_Ico]
          omega
        rw [if_neg hb]
        exact (Finset.mem_filter.mp hm).2
  have hnone : entryBlock (smallTable 1) (imageDisk smallImage) 0 (n + 1) = ∅ := if_neg fun hc => hc.1 rfl
  ext c
  rw [mem_logAfter, mem_writeBlocks, hview, demand_small _ hn, show smallKernel.sb = smallSb from rfl, hnone,
    taken, hlow, Finset.mem_union, Finset.mem_image, Finset.mem_Ico, Finset.mem_Ico, present,
    Finset.mem_erase, Finset.mem_image]
  have hM : MAXFILE = 268 := rfl
  constructor
  · rintro (hc | ⟨hz, bn, -, rfl⟩ | (hc | ⟨a, ha, rfl⟩) | hc)
    · cases hc
    · rw [hat] at hz ⊢
      split at hz
      · rw [if_pos ‹_›]
        omega
      · exact absurd rfl hz
    · omega
    · rw [Finset.mem_Ico] at ha
      rw [hbit a (by omega)]
      omega
    · cases hc
  · intro hc
    rcases Nat.lt_or_ge c 47 with hlt | hge
    · rcases (by omega : c = 45 ∨ c = 46) with rfl | rfl
      · exact Or.inr (Or.inr (Or.inl (Or.inr ⟨47, Finset.mem_Ico.mpr (by omega), hbit 47 (by decide)⟩)))
      · exact Or.inr (Or.inl ⟨by decide, 0, Finset.mem_Ico.mpr (by omega), hat 0⟩)
    · exact Or.inr (Or.inr (Or.inl (Or.inl (by omega))))

theorem fits_small {n : Nat} (hn : NDIRECT ≤ n) (hmax : n < MAXFILE) :
    Fits smallKernel smallTable 1 0 (n + 1) ↔ n + 1 ≤ 26 := by
  have hM : MAXFILE = 268 := rfl
  have hfree : demand (smallTable 1) smallKernel.view 0 (n + 1) ≤
      (freeBlocks smallKernel.sb smallKernel.view).card := by
    rw [demand_small _ hn]
    exact le_trans (by omega) smallKernel_free
  have hcard : (logAfter smallKernel smallTable 1 0 (n + 1)).card = n + 3 := by
    rw [logAfter_small hn hmax, Nat.card_Ico]
    omega
  have hlog : smallKernel.log.size = 30 := rfl
  rw [Fits, hcard, hlog]
  exact ⟨fun h => by omega, fun h => ⟨le_rfl, hfree, by omega⟩⟩

/-- 26 blocks, from the last bytes of the file's only block on and across the indirect boundary. -/
theorem files_refine_byte_strings_small :
    ∃ k' D', writei 0 (.kernel fun _ => 7) 0 1000 25600 smallKernel = .ok (25600 : Nat) k' ∧
      contents D' k'.view 1 =
        overwrite (contents smallTable smallKernel.view 1) 1000 (firstBytes (fun _ => 7) 25600) ∧
      (D' 1).size = 26600 := by
  obtain ⟨hiff, hwrite⟩ := (files_refine_byte_strings smallKernel_inv smallKernel_table
    smallKernel_opened rfl).1 (.kernel fun _ => 7) 0 1000 25600 (fun hu => by cases hu) (by decide)
      (by decide)
  obtain ⟨k', hrun⟩ := hiff.mpr ((fits_small (n := 25) (by decide) (by decide)).mpr (by decide))
  obtain ⟨-, -, D', -, -, hc, hs, -⟩ := hwrite _ k' hrun
  exact ⟨k', D', hrun, hc, hs⟩

/-! ## Where the claim about byte strings ends -/

/-- The buffer of the file's block was changed and not logged, and is the next to be recycled. -/
def tornKernel : Kernel := smallKernel.setBuf 0 ⟨true, ROOTDEV, 46, false, 0, fun _ => 1⟩

theorem tornKernel_buf {i : Nat} (h : (tornKernel.buf i).dev = ROOTDEV) : i = 0 := by
  by_contra hne
  simp [tornKernel, smallKernel, imageKernel, Kernel.setBuf, hne, freshBuf, ROOTDEV] at h

theorem tornKernel_cache : CacheInv tornKernel {46} [] [] := by
  have hother : ∀ i, i ≠ 0 → tornKernel.buf i = freshBuf := fun i hi => Function.update_of_ne hi _ _
  constructor
  · exact smallKernel_cache.lru_nodup
  · exact smallKernel_cache.lru_mem
  · intro i _ j _ hi hj _
    rw [tornKernel_buf hi, tornKernel_buf hj]
  · intro i _ hd
    have hne : i ≠ 0 := by
      rintro rfl
      exact hd rfl
    rw [hother i hne]
    exact ⟨rfl, rfl, rfl⟩
  · exact List.nodup_nil
  · exact fun _ hp => by cases hp
  · intro i _ hlock
    by_cases hz : i = 0
    · rw [hz] at hlock
      cases hlock
    · rw [hother i hz] at hlock
      cases hlock
  · exact List.nodup_nil
  · exact fun _ hb => by cases hb
  · intro i _ hd
    rw [tornKernel_buf hd]
    rfl
  · intro i _ hd _ _ hdirty
    rw [tornKernel_buf hd] at hdirty
    exact absurd rfl hdirty

theorem tornKernel_view {c : Nat} (hc : c ≠ 46) : tornKernel.view c = smallKernel.view c := by
  rw [tornKernel_cache.view_eq_disk (by simp) hc, smallKernel_cache.view_eq_disk (by simp) (by simp)]
  rfl

theorem tornKernel_inv : FsInv tornKernel smallTable [] {46} [] none := by
  have hnone : ∀ i, (smallTable i).addrs NDIRECT = 0 := fun i => by
    rcases imageTable_eq_or smallImage i with ⟨f, -, -, -, hi⟩ | ⟨-, hi⟩
    · rw [smallTable, hi]
      rfl
    · rw [smallTable, hi]
      rfl
  have hmeta : datastart smallKernel.sb = 46 := by decide
  refine smallKernel_inv.frame tornKernel_cache ⟨rfl, rfl, rfl, rfl, rfl, rfl⟩ (fun b hb => by cases hb)
    (by decide) (fun c _ hc => tornKernel_view (by omega)) (fun i _ hz => absurd (hnone i) hz) ?_
  rintro b rfl
  exact Or.inr ⟨hmeta.le, fun i _ he => absurd (he.symm.trans (hnone i)) (by decide)⟩

theorem tornKernel_opened : Opened tornKernel 0 1 := ⟨by decide, Nat.one_pos, rfl, rfl⟩

/-- `f` returns from `k` in a state that satisfies `P`. -/
def returns {α : Type} (f : K α) (k : Kernel) (P : α → Kernel → Bool) : Bool :=
  match f k with
  | .ok a k' => P a k'
  | .error _ _ => false

theorem ok_of_returns {α : Type} {f : K α} {k : Kernel} {P : α → Kernel → Bool}
    (h : returns f k P = true) : ∃ a k', f k = .ok a k' ∧ P a k' = true := by
  unfold returns at h
  split at h
  · exact ⟨_, _, ‹_›, h⟩
  · cases h

/-- 27 blocks are within `MAXFILE` and there are blocks enough, but one transaction does not hold them.
And a byte behind a torn block of the file brings back what the disk has of that block. -/
theorem byte_strings_need_room_and_coherence :
    (FsInv smallKernel smallTable [] ∅ [] none ∧
      Table smallKernel.inode smallKernel.sb.ninodes smallTable ∧ Opened smallKernel 0 1 ∧
      smallKernel.log.size = LOGSIZE ∧ 1 ≤ smallKernel.log.outstanding ∧
      (Mem.kernel fun _ => 7).Covers 0 (27 * BSIZE) ∧ 0 + 27 * BSIZE ≤ MAXFILE * BSIZE ∧
      demand (smallTable 1) smallKernel.view 0 (touched 0 (27 * BSIZE)) ≤
        (freeBlocks smallKernel.sb smallKernel.view).card ∧
      ∀ k', writei 0 (.kernel fun _ => 7) 0 0 (27 * BSIZE) smallKernel ≠
        .ok ((27 * BSIZE : Nat) : Int) k') ∧
    FsInv tornKernel smallTable [] {46} [] none ∧
      Table tornKernel.inode tornKernel.sb.ninodes smallTable ∧ Opened tornKernel 0 1 ∧
      tornKernel.log.size = LOGSIZE ∧ (Mem.kernel fun _ => 7).Covers 0 1 ∧
      1024 ≤ (smallTable 1).size ∧ 1024 + 1 ≤ MAXFILE * BSIZE ∧
      Fits tornKernel smallTable 1 (1024 / BSIZE) (touched 1024 1) ∧
      ∃ k', writei 0 (.kernel fun _ => 7) 0 1024 1 tornKernel = .ok ((1 : Nat) : Int) k' ∧
        contents (fun _ => (k'.inode 0).din) k'.view 1 ≠
          overwrite (contents smallTable tornKernel.view 1) 1024 (firstBytes (fun _ => 7) 1) := by
  refine ⟨⟨smallKernel_inv, smallKernel_table, smallKernel_opened, rfl, le_rfl, fun hu => (by cases hu),
    by decide, ?_, fun k' hrun => ?_⟩, tornKernel_inv, smallKernel_table, tornKernel_opened, rfl,
    fun hu => (by cases hu), by decide, by decide, ?_⟩
  · rw [show touched 0 (27 * BSIZE) = 26 + 1 from rfl, demand_small _ (by decide)]
    exact le_trans (by decide) smallKernel_free
  · have hfits := fits_of_writei smallKernel_inv smallKernel_table smallKernel_opened (by decide)
      (by decide) hrun
    exact absurd ((fits_small (n := 26) (by decide) (by decide)).mp hfits) (by decide)
  · obtain ⟨r, k', hrun, hend⟩ := ok_of_returns (f := writei 0 (.kernel fun _ => 7) 0 1024 1)
      (k := tornKernel) (P := fun r k' => decide (r = 1 ∧ 0 < (k'.inode 0).din.size ∧
        (k'.inode 0).din.addrs 0 = 46 ∧ k'.view 46 0 = 0)) (by decide +kernel)
    obtain ⟨rfl, hsize, haddr, hzero⟩ := of_decide_eq_true hend
    refine ⟨fits_of_writei tornKernel_inv smallKernel_table tornKernel_opened (by decide) (by decide)
      hrun, k', hrun, fun he => ?_⟩
    have hold : fileByte smallTable tornKernel.view 1 0 = 1 := rfl
    have hnew : fileByte (fun _ => (k'.inode 0).din) k'.view 1 0 = 0 := by
      have hslot : slotAddr (fun _ => (k'.inode 0).din) k'.view (fileSlot 1 0) = 46 := haddr
      rw [fileByte, Nat.zero_div, hslot]
      exact hzero
    have hfirst := congrArg (fun l : List Byte => l[0]?) he
    rw [getElem?_overwrite (by simp [contents, smallTable, smallImage, imageTable, imageFile, BSIZE]),
      if_neg (by omega), contents, contents, getElem?_firstBytes, getElem?_firstBytes, if_pos hsize,
      if_pos (by decide), hold, hnew] at hfirst
    cases hfirst

end Xv6.Fs
