import Xv6.Disk.Buffer

/-!
# `log.c`: the redo log

The functions that move blocks between the cache, the log area and their home
locations. `lh` is the list `log.lh.block[0..log.lh.n)`, so `lh.n` is its length.
-/

namespace Xv6.Disk

open Xv6.Foundation

set_option autoImplicit false

/-! ## The header block -/

/-- An `int` read from its 32-bit pattern. -/
def toInt32 (w : Nat) : Int := if w < 2 ^ 31 then w else (w : Int) - 2 ^ 32

/-- `((struct logheader *) d)->n` -/
def headN (d : Block) : Int := toInt32 (getLE d 0 4)

/-- `block[0..n)` of the header stored in a block. -/
def headBlocks (d : Block) : List Nat :=
  (List.range (headN d).toNat).map fun i => getLE d (4 + 4 * i) 4

/-- `hb->block[i..i+|bs|) = bs` -/
def putBlocks (d : Block) (i : Nat) : List Nat → Block
  | [] => d
  | b :: bs => putBlocks (putLE d (4 + 4 * i) 4 b) (i + 1) bs

def putHead (d : Block) (lh : List Nat) : Block := putBlocks (putLE d 0 4 lh.length) 0 lh

/-! ## The functions of `log.c` -/

def setLh (lh : List Nat) : K Unit :=
  modify fun k => { k with log := { k.log with lh := lh } }

def readHead : K Unit := do
  let k ← get
  let buf ← bread k.log.dev k.log.start
  let d ← bufData buf
  setLh (headBlocks d)
  brelse buf

def writeHead : K Unit := do
  let k ← get
  let buf ← bread k.log.dev k.log.start
  let d ← bufData buf
  setBufData buf (putHead d k.log.lh)
  bwrite buf
  brelse buf

/-- One round of `install_trans`, for the block `b = lh.block[tail]`. -/
def installBlock (recovering : Bool) (tail b : Nat) : K Unit := do
  let k ← get
  let lbuf ← bread k.log.dev (k.log.start + tail + 1)
  let dbuf ← bread k.log.dev b
  let d ← bufData lbuf
  setBufData dbuf d
  bwrite dbuf
  when (!recovering) (bunpin dbuf)
  brelse lbuf
  brelse dbuf

/-- The loop of `install_trans` from index `tail` on, for the blocks still listed. -/
def installFrom (recovering : Bool) (tail : Nat) : List Nat → K Unit
  | [] => pure ()
  | b :: bs => do
    installBlock recovering tail b
    installFrom recovering (tail + 1) bs

def installTrans (recovering : Bool) : K Unit := do
  let k ← get
  installFrom recovering 0 k.log.lh

def recoverFromLog : K Unit := do
  readHead
  installTrans true
  setLh []
  writeHead

/-- One round of `write_log`, for the block `b = lh.block[tail]`. -/
def writeLogBlock (tail b : Nat) : K Unit := do
  let k ← get
  let tobuf ← bread k.log.dev (k.log.start + tail + 1)
  let frombuf ← bread k.log.dev b
  let d ← bufData frombuf
  setBufData tobuf d
  bwrite tobuf
  brelse frombuf
  brelse tobuf

/-- The loop of `write_log` from index `tail` on. -/
def writeLogFrom (tail : Nat) : List Nat → K Unit
  | [] => pure ()
  | b :: bs => do
    writeLogBlock tail b
    writeLogFrom (tail + 1) bs

def writeLog : K Unit := do
  let k ← get
  writeLogFrom 0 k.log.lh

def commit : K Unit := do
  let k ← get
  if 0 < k.log.lh.length then do
    writeLog
    writeHead
    installTrans false
    setLh []
    writeHead
  else pure ()

/-- `log_write`: the capacity test comes before the search for an earlier entry. -/
def logWrite (i : Nat) : K Unit := do
  let k ← get
  check (decide (LOGSIZE ≤ k.log.lh.length) || decide (k.log.size - 1 ≤ k.log.lh.length))
    .tooBigTransaction
  check (decide (k.log.outstanding < 1)) .logWriteOutsideOfTrans
  if (k.buf i).blockno ∈ k.log.lh then pure ()
  else do
    bpin i
    setLh (k.log.lh ++ [(k.buf i).blockno])

/-! ## The header block holds what was put there -/

theorem getLE_putBlocks_of_lt (d : Block) (i : Nat) (bs : List Nat) {off n : Nat}
    (h : off + n ≤ 4 + 4 * i) : getLE (putBlocks d i bs) off n = getLE d off n := by
  induction bs generalizing d i with
  | nil => rfl
  | cons b bs ih =>
    rw [putBlocks, ih _ (i + 1) (by omega), getLE_putLE_of_disjoint _ (Or.inl h)]

theorem getLE_putBlocks (d : Block) (i : Nat) (bs : List Nat) (hb : ∀ b ∈ bs, b < 2 ^ 32)
    {j : Nat} (hj : j < bs.length) : getLE (putBlocks d i bs) (4 + 4 * (i + j)) 4 = bs[j] := by
  induction bs generalizing d i j with
  | nil => simp at hj
  | cons b bs ih =>
    rw [putBlocks]
    cases j with
    | zero =>
      rw [getLE_putBlocks_of_lt _ _ _ (by omega), Nat.add_zero,
        getLE_putLE_self _ _ _ _ (by simpa using hb b List.mem_cons_self)]
      rfl
    | succ j =>
      have hij : i + (j + 1) = i + 1 + j := by omega
      rw [hij, ih _ _ (fun c hc => hb c (List.mem_cons_of_mem b hc)) (by simpa using hj)]
      rfl

theorem headN_putHead (d : Block) (lh : List Nat) (hn : lh.length < 2 ^ 31) :
    headN (putHead d lh) = lh.length := by
  rw [headN, putHead, getLE_putBlocks_of_lt _ _ _ (by omega),
    getLE_putLE_self _ _ _ _ (by omega), toInt32, if_pos hn]

theorem headBlocks_putHead (d : Block) (lh : List Nat) (hn : lh.length < 2 ^ 31)
    (hb : ∀ b ∈ lh, b < 2 ^ 32) : headBlocks (putHead d lh) = lh := by
  rw [headBlocks, headN_putHead d lh hn]
  apply List.ext_getElem (by simp)
  intro j hj hj'
  have hget := getLE_putBlocks (putLE d 0 4 lh.length) 0 lh hb hj'
  simpa [putHead] using hget

theorem headBlocks_of_headN {d : Block} (h : headN d = 0) : headBlocks d = [] := by
  simp [headBlocks, h]

/-! ## `log_write` and the cache -/

def addBlock (lh : List Nat) (b : Nat) : List Nat := if b ∈ lh then lh else lh ++ [b]

theorem mem_addBlock {lh : List Nat} {b c : Nat} : c ∈ addBlock lh b ↔ c ∈ lh ∨ c = b := by
  unfold addBlock
  split
  · constructor
    · exact Or.inl
    · rintro (h | rfl)
      · exact h
      · assumption
  · simp

theorem nodup_addBlock {lh : List Nat} (h : lh.Nodup) (b : Nat) : (addBlock lh b).Nodup := by
  unfold addBlock
  split
  · exact h
  · refine List.nodup_append.mpr ⟨h, by simp, ?_⟩
    intro c hc d hd
    rw [List.mem_singleton.mp hd]
    rintro rfl
    contradiction

theorem length_addBlock_le (lh : List Nat) (b : Nat) : (addBlock lh b).length ≤ lh.length + 1 := by
  unfold addBlock
  split <;> simp

variable {held : List (Nat × Nat)} {k : Kernel}

theorem CacheInv.dirty_mono {dirty dirty' : Set Nat} {pins : List Nat} (h : CacheInv k dirty pins held) (hs : dirty ⊆ dirty') :
    CacheInv k dirty' pins held :=
  { h with coherent := fun i hi hd hv hp hD => h.coherent i hi hd hv hp (fun hc => hD (hs hc)) }

theorem CacheInv.setLog {dirty : Set Nat} {pins : List Nat}
    (h : CacheInv k dirty pins held) (l : Log) : CacheInv { k with log := l } dirty pins held :=
  { h with }

theorem logWrite_spec {dirty : Set Nat} {i b : Nat}
    (h : CacheInv k dirty k.log.lh held) (hm : (i, b) ∈ held) : wp (logWrite i)
      (fun _ k' => CacheInv k' (dirty \ {b}) k'.log.lh held ∧ k'.log.lh = addBlock k.log.lh b ∧
        SameRest k k' ∧ k'.disk = k.disk ∧ k'.writes = k.writes ∧ k'.view = k.view)
      (fun e k' => k' = k ∧ ((e = .tooBigTransaction ∧
          (LOGSIZE ≤ k.log.lh.length ∨ k.log.size - 1 ≤ k.log.lh.length)) ∨
        (e = .logWriteOutsideOfTrans ∧ k.log.outstanding < 1))) k := by
  obtain ⟨hi, hd, hb, hv, hl⟩ := h.held_buf _ hm
  simp only at hi hd hb hv hl
  rw [logWrite, wp_bind, wp_get, wp_bind, wp_check]
  refine ⟨fun hbig => ⟨rfl, Or.inl ⟨rfl, by simpa using hbig⟩⟩, fun _ => ?_⟩
  rw [wp_bind, wp_check]
  refine ⟨fun ho => ⟨rfl, Or.inr ⟨rfl, by simpa using ho⟩⟩, fun _ => ?_⟩
  rw [hb]
  by_cases hin : b ∈ k.log.lh
  · rw [if_pos hin, wp_pure, addBlock, if_pos hin]
    have hinv : CacheInv k (dirty \ {b}) k.log.lh held :=
      { h with
        coherent := fun j hj hdj hvj hp hD =>
          h.coherent j hj hdj hvj hp (fun hc => hD ⟨hc, fun he => hp (by rw [he]; exact hin)⟩) }
    exact ⟨hinv, rfl, SameRest.refl k, rfl, rfl, rfl⟩
  · have hr := h.refcnt i hi hd
    rw [if_pos hl, hb, if_neg hin] at hr
    have hdirty : ∀ c, c ≠ b → c ∉ dirty \ {b} → c ∉ dirty :=
      fun c hc hD hc' => hD ⟨hc', hc⟩
    obtain ⟨hinv, hview⟩ := h.setRefcnt hm (n := (k.buf i).refcnt + 1)
      (nodup_addBlock h.pins_nodup b)
      (fun c hc => by simp [mem_addBlock, hc])
      (by simp [mem_addBlock, hr])
      hdirty
      (fun hp => absurd (mem_addBlock.mpr (Or.inr rfl)) hp)
    rw [if_neg hin]
    simp only [bpin, setLh, wp_bind, wp_modify]
    have hadd : k.log.lh ++ [b] = addBlock k.log.lh b := by rw [addBlock, if_neg hin]
    rw [hadd]
    exact ⟨hinv.setLog _, rfl, ⟨rfl, rfl, rfl, rfl, rfl, rfl, rfl⟩, rfl, rfl, hview⟩

end Xv6.Disk
