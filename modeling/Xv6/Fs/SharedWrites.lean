import Xv6.Foundation.SharedCursor
import Xv6.Fs.Chunks
import Xv6.Fs.Consistency

/-!
# Writes through a shared file descriptor

Processes that share an open file write at one offset. `filewrite` cuts a write into chunks, each in a
transaction of its own and under the lock of the inode. At the granularity of these chunks the calls
are writers with a shared cursor: the chunks tile the file in the order in which they ran.
-/

namespace Xv6.Fs

open Xv6.Foundation Xv6.Foundation.SharedCursor Xv6.Disk Function

set_option autoImplicit false

/-! ## One chunk -/

/-- The inode of the open file is in use, and none of its blocks was torn by a failed copy. -/
structure OpenFile (k : Kernel) (D : DTable) (dirty : Set Nat) (ip inum : Nat) : Prop where
  sound : Sound k D dirty
  entry : ip < NINODE
  ref : 0 < (k.inode ip).ref
  names : (k.inode ip).inum = inum
  live : Live k.sb D inum
  whole : ∀ bn, bn * BSIZE < (D inum).size → slotAddr D k.view (fileSlot inum bn) ∉ dirty

def fileData (k : Kernel) (inum : Nat) : List Byte := contents (diskTable k) k.view inum

section File
variable {k k' k1 : Kernel} {D D' : DTable} {dirty dirty' : Set Nat} {ip inum off n addr : Nat} {m : Mem}
  {R : Prop}

section
variable (h : OpenFile k D dirty ip inum)
include h

theorem OpenFile.fileData_eq : fileData k inum = contents D k.view inum := by
  have he := h.sound.table_eq h.live.1 h.live.2.1
  refine contents_congr (by rw [he]) fun o _ => ?_
  rw [fileByte, fileByte, h.sound.slot_eq (by rw [fileSlot_inode]; exact h.live)]

theorem OpenFile.length_fileData : (fileData k inum).length = (D inum).size := by
  rw [h.fileData_eq, contents, length_firstBytes]

theorem OpenFile.holes : HoleFree D k.view inum :=
  h.sound.inv.holes inum h.live (by simp)

theorem OpenFile.block {o : Nat} (ho : o < (D inum).size) :
    slotAddr D k.view (fileSlot inum (o / BSIZE)) ≠ 0 ∧
      slotAddr D k.view (fileSlot inum (o / BSIZE)) ∉ dirty ∧
      datastart k.sb ≤ slotAddr D k.view (fileSlot inum (o / BSIZE)) := by
  have hlt : o / BSIZE * BSIZE < (D inum).size := lt_of_le_of_lt (Nat.div_mul_le_self o BSIZE) ho
  have hz := h.holes _ hlt
  have hu : Used k.sb D k.view (fileSlot inum (o / BSIZE)) _ :=
    ⟨by rw [fileSlot_inode]; exact h.live, rfl, hz⟩
  exact ⟨hz, h.whole _ hlt, (h.sound.inv.owned.range _ _ hu).1⟩

theorem OpenFile.frame (hs : Sound k' D dirty) (hsb : k'.sb = k.sb)
    (href : 0 < (k'.inode ip).ref) (hinum : (k'.inode ip).inum = (k.inode ip).inum)
    (hview : ∀ c, c ∉ dirty → k.sb.inodestart ≤ c → k'.view c = k.view c) :
    OpenFile k' D dirty ip inum ∧ fileData k' inum = fileData k inum := by
  have hlow : k.sb.inodestart ≤ datastart k.sb :=
    h.sound.inv.geo.inodestart_le_bmapstart.trans (bmapstart_lt_datastart k.sb).le
  have hslot : ∀ bn, slotAddr D k'.view (fileSlot inum bn) = slotAddr D k.view (fileSlot inum bn) :=
    fun bn => slotAddr_congr fun hz => by
      rw [fileSlot_inode] at hz ⊢
      have hr := (h.sound.inv.owned.range _ _ (used_indirect (v := k.view) h.live hz)).1
      exact hview _ (h.sound.inv.not_dirty_indirect h.live) (hlow.trans hr)
  have hfile : OpenFile k' D dirty ip inum := by
    refine ⟨hs, h.entry, href, hinum.trans h.names, by rw [hsb]; exact h.live, fun bn hbn => ?_⟩
    rw [hslot]
    exact h.whole bn hbn
  refine ⟨hfile, ?_⟩
  rw [hfile.fileData_eq, h.fileData_eq]
  refine contents_congr rfl fun o ho => ?_
  obtain ⟨-, hd, hr⟩ := h.block ho
  rw [fileByte, fileByte, hslot, hview _ hd (hlow.trans hr)]

theorem OpenFile.undisturbed (hu : Undisturbed k k' D dirty) :
    OpenFile k' D dirty ip inum ∧ fileData k' inum = fileData k inum :=
  h.frame hu.sound hu.sb (by rw [hu.inode]; exact h.ref) (by rw [hu.inode]) hu.view

end

/-- How a chunk ends: with all of its bytes in the file, or refused for want of room in it. -/
def ChunkEnd (off n : Nat) (src : Bytes) (C C' : List Byte) (a : Int × Nat) : Prop :=
  (off + n ≤ MAXFILE * BSIZE ∧ a = ((n : Int), off + n) ∧ C' = overwrite C off (firstBytes src n)) ∨
    (MAXFILE * BSIZE < off + n ∧ a = (-1, off) ∧ C' = C)

theorem OpenFile.written {src : Bytes} {ok : Prop} (h : OpenFile k D dirty ip inum)
    (hoff : off ≤ (D inum).size) (hw : FileWritten k k' D D' ip inum off n ok dirty dirty')
    (hex : Exact k k' D D' inum src off n dirty dirty') : OpenFile k' D' dirty' ip inum ∧
      fileData k' inum = overwrite (fileData k inum) off (firstBytes src n) := by
  have hsize : (D' inum).size = max (D inum).size (off + n) := by rw [hw.same]
  have hself : k'.inode ip = (k.inode ip).withDin (D' inum) := by rw [hw.entry, update_self]
  have hfile : OpenFile k' D' dirty' ip inum := by
    refine ⟨⟨hw.inv, hw.table⟩, h.entry, by rw [hself]; exact h.ref, by rw [hself]; exact h.names, ?_,
      hw.whole hex h.live h.holes hoff h.whole⟩
    rw [hw.steady.sb]
    exact ⟨h.live.1, h.live.2.1, by rw [hw.same]; exact h.live.2.2⟩
  refine ⟨hfile, ?_⟩
  rw [hfile.fileData_eq, h.fileData_eq]
  exact contents_eq_overwrite hoff hsize hex.bytes fun o ho hn =>
    hex.rest o hn (h.block ho).1 (h.block ho).2.1

theorem OpenFile.writei (h : OpenFile k D dirty ip inum) (hv : (k.inode ip).valid = true)
    (hoff : off ≤ (D inum).size) (hwrap : off + n < 2 ^ 32) (hcov : m.Covers addr n)
    (hroom : WriteRoom R k D inum k.log.lh (touched off n)) : wp (writei ip m addr off n)
      (fun r k' => Steady k k' ∧ (k'.inode ip).locked = (k.inode ip).locked ∧
        (k'.inode ip).valid = true ∧ ∃ D' dirty', OpenFile k' D' dirty' ip inum ∧
          ChunkEnd off n (fun o => m.byte (addr + o)) (fileData k inum) (fileData k' inum)
            (r, if 0 < r then off + r.toNat else off))
      (Fail R) k := by
  have ho : Opened k ip inum := ⟨h.entry, h.ref, hv, h.names⟩
  by_cases hmax : off + n ≤ MAXFILE * BSIZE
  · refine wp_post (writei_exact m addr h.sound.inv h.sound.table ho hoff hmax (hroom.fits _)) ?_
    rintro _ k1 ⟨t, rfl, -, hall, -, -, D', dirty', hw, hex⟩
    obtain rfl := hall hcov
    obtain ⟨h1, hd1⟩ := h.written hoff hw (hex rfl)
    have hself : k1.inode ip = (k.inode ip).withDin (D' inum) := by rw [hw.entry, update_self]
    refine ⟨hw.steady, by rw [hself]; rfl, by rw [hself]; exact hv, D', dirty', h1,
      Or.inl ⟨hmax, ?_, hd1⟩⟩
    split
    · rfl
    · rename_i hz
      have : t = 0 := by omega
      rw [this, Nat.add_zero]
  · refine wp_post (writei_refused m addr (by omega) hwrap) ?_
    rintro _ _ ⟨rfl, rfl⟩
    exact ⟨Steady.refl _, rfl, hv, D, dirty, h, Or.inr ⟨by omega, rfl, rfl⟩⟩

theorem OpenFile.filewriteChunk (h : OpenFile k D dirty ip inum) (hoff : off ≤ (D inum).size)
    (hn : n ≤ chunkMax) (hcov : m.Covers addr n) (hlock : R → (k.inode ip).locked = false)
    (hroom : WriteRoom R k D inum k.log.lh (touched off n)) : wp (filewriteChunk ip m addr off n)
      (fun a k' => Steady k k' ∧ ∃ D' dirty', OpenFile k' D' dirty' ip inum ∧
        ChunkEnd off n (fun o => m.byte (addr + o)) (fileData k inum) (fileData k' inum) a)
      (Fail R) k := by
  have hcap : MAXFILE * BSIZE + chunkMax < 2 ^ 32 := by decide
  have hsize := size_le_of_holeFree h.holes
  have hnbuf : R → k.log.lh.length < NBUF := fun hR => by
    have := (hroom hR).2.2.1
    have : LOGSIZE - 2 < NBUF := by decide
    omega
  refine wp_seq (wp_and (ilock_spec h.sound h.entry h.ref (by rw [h.names]; exact h.live.1)
    (by rw [h.names]; exact h.live.2.1)) (ilock_logs h.sound h.entry h.ref fun hR =>
      ⟨hlock hR, by rw [h.names]; exact h.live, hnbuf hR⟩)) ?_ (fun _ _ he => he.2)
  rintro _ k1 ⟨⟨hs1, ho1, hl1, -, -, hst1⟩, hlog1, hsb1, hview1⟩
  obtain ⟨h1, hd1⟩ := h.frame hs1 hsb1 ho1.ref ho1.inum fun c hc _ => hview1 c hc
  have hroom1 : WriteRoom R k1 D inum k1.log.lh (touched off n) := by
    rw [WriteRoom, hlog1, hsb1, freeBlocks_congr (h.sound.inv.marked_of_kept fun c hc =>
      hview1 c (hc.resolve_right (by simp)))]
    exact hroom
  refine wp_then (h1.writei ho1.valid hoff (by omega) hcov hroom1) ?_
  rintro r k2 ⟨hst2, hl2, -, D2, dirty2, h2, hend⟩
  rw [wp_bind, iunlock, wp_bind, wp_get, wp_bind, wp_check, hl2, hl1]
  refine ⟨fun hne => ?_, fun _ => ?_⟩
  · have := h2.entry
    have := h2.ref
    simp at hne
    omega
  rw [wp_set, wp_pure]
  have hself : (k2.setInode ip ((k2.inode ip).withLocked false)).inode ip =
      (k2.inode ip).withLocked false := by rw [setInode_inode, update_self]
  have hs3 : Sound (k2.setInode ip ((k2.inode ip).withLocked false)) D2 dirty2 :=
    h2.sound.touch h2.entry h2.ref rfl rfl rfl id
  obtain ⟨h3, hd3⟩ := h2.frame hs3 rfl (by rw [hself]; exact h2.ref) (by rw [hself]; rfl) fun _ _ _ => rfl
  exact ⟨(hst1.trans hst2).trans (steady_setInode _ _ _), D2, dirty2, h3, by rw [hd3, ← hd1]; exact hend⟩

/-- A turn of the loop of `filewrite`. -/
def filewriteTurn (ip : Nat) (m : Mem) (addr off n1 : Nat) : K (Int × Nat) := do
  beginOp
  let a ← filewriteChunk ip m addr off n1
  endOp
  pure a

/-- Nobody has to be waited for, and there are blocks and log entries for a chunk. -/
structure TurnRoom (k : Kernel) (D : DTable) (ip inum off n : Nat) : Prop where
  unlocked : (k.inode ip).locked = false
  quiet : k.log.committing = false
  size : k.log.size = LOGSIZE
  reserve : k.log.lh.length + (k.log.outstanding + 1) * MAXOPBLOCKS ≤ LOGSIZE
  entries : k.log.lh.length + indirectCost D k.log.lh inum + 2 * touched off n + 1 ≤ LOGSIZE - 2
  blocks : touched off n + indirectFree D inum ≤ (freeBlocks k.sb k.view).card

theorem TurnRoom.of_table {D' : DTable} (he : D' inum = D inum) (h : TurnRoom k D ip inum off n) :
    TurnRoom k D' ip inum off n := by
  refine ⟨h.unlocked, h.quiet, h.size, h.reserve, ?_, ?_⟩
  · simpa only [indirectCost, he] using h.entries
  · simpa only [indirectFree, he] using h.blocks

theorem OpenFile.filewriteTurn (h : OpenFile k D dirty ip inum) (hoff : off ≤ (D inum).size)
    (hn : n ≤ chunkMax) (hcov : m.Covers addr n) (hroom : R → TurnRoom k D ip inum off n) :
    wp (filewriteTurn ip m addr off n)
      (fun a k' => ∃ D' dirty', OpenFile k' D' dirty' ip inum ∧
        ChunkEnd off n (fun o => m.byte (addr + o)) (fileData k inum) (fileData k' inum) a)
      (Fail R) k := by
  have hpass : R → GroupCommit.beginOpPass k.log = some { k.log with outstanding := k.log.outstanding + 1 } :=
    fun hR => by
      obtain ⟨-, hq, -, hr, -, -⟩ := hroom hR
      rw [GroupCommit.beginOpPass, if_neg (by simp [hq]), if_neg (by omega)]
  refine wp_then (beginOp_undisturbed h.sound fun hR => by simp [hpass hR]) ?_
  rintro _ k1 ⟨hu1, l, hl, rfl⟩
  obtain ⟨h1, hd1⟩ := h.undisturbed hu1
  have hlog : R → l = { k.log with outstanding := k.log.outstanding + 1 } := fun hR =>
    Option.some.inj (hl.symm.trans (hpass hR))
  refine wp_then (h1.filewriteChunk hoff hn hcov (fun hR => (hroom hR).unlocked) ?_) ?_
  · intro hR
    have hr := hroom hR
    rw [hlog hR]
    exact ⟨Nat.le_add_left 1 _, hr.size, hr.entries, hr.blocks⟩
  rintro a k2 ⟨hst2, D2, dirty2, h2, hend⟩
  refine wp_then (endOp_undisturbed h2.sound ?_) ?_
  · intro hR
    have hlt := h2.sound.inv.room
    have hc := hst2.committing
    have hz := hst2.size
    rw [hlog hR] at hc hz
    rw [hz, (hroom hR).size] at hlt
    exact ⟨hc.trans (hroom hR).quiet, hlt⟩
  rintro _ k3 hu3
  obtain ⟨h3, hd3⟩ := h2.undisturbed hu3
  exact ⟨D2, dirty2, h3, by rw [hd3, ← hd1]; exact hend⟩

/-! ## Unchunked writes -/

structure Source where
  mem : Mem
  addr : Nat
  n : Nat

def Source.bytes (s : Source) : List Byte := firstBytes (fun o => s.mem.byte (s.addr + o)) s.n

/-- The sources are written one after another at the offset, each by one call of `writei`. -/
def writeiAll (ip : Nat) : List Source → Nat → K Nat
  | [], off => pure off
  | s :: rest, off => do
    let r ← writei ip s.mem s.addr off s.n
    writeiAll ip rest (if 0 < r then off + r.toNat else off)

theorem OpenFile.writeiAll (srcs : List Source) (h : OpenFile k D dirty ip inum)
    (hv : (k.inode ip).valid = true) (hoff : off ≤ (D inum).size)
    (hcov : ∀ s ∈ srcs, s.mem.Covers s.addr s.n)
    (hfit : off + (srcs.map Source.bytes).flatten.length ≤ MAXFILE * BSIZE) :
    wp (writeiAll ip srcs off)
      (fun off' k' => (fileData k' inum, off') =
        (srcs.map Source.bytes).foldl SharedCursor.writeWhole (fileData k inum, off))
      (Fail False) k := by
  induction srcs generalizing k D dirty off with
  | nil => exact rfl
  | cons s rest ih =>
    have hcap : MAXFILE * BSIZE < 2 ^ 32 := by decide
    have hlen : s.bytes.length = s.n := length_firstBytes _ _
    rw [List.map_cons, List.flatten_cons, List.length_append, hlen] at hfit
    refine wp_then (h.writei hv hoff (by omega) (hcov s List.mem_cons_self) nofun) ?_
    rintro r k1 ⟨-, -, hv1, D1, dirty1, h1, ⟨-, ha, hd1⟩ | ⟨hbig, -⟩⟩
    · obtain ⟨-, ha⟩ := Prod.mk.inj ha
      have hsize : off + s.n ≤ (D1 inum).size := by
        rw [← h1.length_fileData, hd1]
        refine le_trans ?_ (SharedCursor.length_overwrite (by rw [h.length_fileData]; exact hoff)).ge
        rw [length_firstBytes]
        exact le_max_right _ _
      rw [ha]
      refine wp_post (ih h1 hv1 hsize (fun s' hs => hcov s' (List.mem_cons_of_mem _ hs)) (by omega)) ?_
      rintro off' k' hfold
      rw [hfold, List.map_cons, List.foldl_cons, SharedCursor.writeWhole, hlen, hd1]
      rfl
    · omega

end File

/-! ## Processes that share the file -/

/-- A call of `filewrite`: its source and the locals of its loop. -/
structure WriteCall where
  mem : Mem
  addr : Nat
  n : Nat
  i : Nat
  broke : Bool

/-- `int n1 = n - i; if(n1 > max) n1 = max;` -/
def WriteCall.n1 (c : WriteCall) : Nat := min (c.n - c.i) chunkMax

def WriteCall.source (c : WriteCall) (i : Nat) : Bytes := fun o => c.mem.byte (c.addr + i + o)

/-- The file system, the offset of the shared `struct file`, and the calls of its users. -/
structure World (P : Type) where
  kernel : Kernel
  off : Nat
  call : P → Option WriteCall

abbrev WEvent (P : Type) := SharedCursor.Event P Byte

section Machine
variable {P : Type} [DecidableEq P]

def World.setCall (w : World P) (p : P) (c : Option WriteCall) : World P :=
  { w with call := Function.update w.call p c }

/-- Any process starts a call with a mapped buffer, runs a turn of its loop, or returns. What others do
to the file system leaves the file as it is. -/
inductive WStep (ip inum : Nat) : World P → Option (WEvent P) → World P → Prop where
  | start {w : World P} {p : P} {m : Mem} {addr n : Nat} : w.call p = none → m.Covers addr n →
      WStep ip inum w (some (.start p (firstBytes (fun o => m.byte (addr + o)) n)))
        (w.setCall p (some ⟨m, addr, n, 0, false⟩))
  | chunk {w p c r off k} :
      w.call p = some c → c.broke = false → c.i < c.n →
      filewriteTurn ip c.mem (c.addr + c.i) w.off c.n1 w.kernel = .ok (r, off) k → r = c.n1 →
      WStep ip inum w (some (.chunk p w.off (firstBytes (c.source c.i) c.n1)))
        (World.setCall ⟨k, off, w.call⟩ p (some { c with i := c.i + c.n1 }))
  | refused {w p c r off k} :
      w.call p = some c → c.broke = false → c.i < c.n →
      filewriteTurn ip c.mem (c.addr + c.i) w.off c.n1 w.kernel = .ok (r, off) k → r ≠ c.n1 →
      WStep ip inum w (some (.refused p w.off c.n1))
        (World.setCall ⟨k, off, w.call⟩ p (some { c with broke := true }))
  | ret {w p c} : w.call p = some c →
      (c.broke = true ∨ ¬ c.i < c.n) →
      WStep ip inum w (some (.ret p (if c.i = c.n then c.n else -1))) (w.setCall p none)
  | other {w k D dirty} : OpenFile k D dirty ip inum →
      fileData k inum = fileData w.kernel inum → WStep ip inum w none { w with kernel := k }

/-- A step that starts a call only when no other is in progress. -/
def WSeqStep (ip inum : Nat) (w : World P) (e : Option (WEvent P)) (w' : World P) : Prop :=
  WStep ip inum w e w' ∧ ∀ p buf, e = some (.start p buf) → ∀ q, w.call q = none

/-- The file is open at an offset in it, and the buffers of the calls are mapped. -/
structure World.Good (w : World P) (ip inum : Nat) : Prop where
  file : ∃ D dirty, OpenFile w.kernel D dirty ip inum
  off : w.off ≤ (fileData w.kernel inum).length
  call : ∀ p c, w.call p = some c → c.mem.Covers c.addr c.n ∧ c.i ≤ c.n

def WriteCall.abs (c : WriteCall) : SharedCursor.Call Byte := ⟨firstBytes (c.source 0) c.n, c.i, c.broke⟩

def World.abs (w : World P) (inum : Nat) : SharedCursor.State P Byte :=
  ⟨w.off, fileData w.kernel inum, fun p => (w.call p).map WriteCall.abs⟩

variable {w w' w₀ : World P} {ip inum : Nat} {p : P} {c : WriteCall} {t : List (WEvent P)}

theorem abs_update (f : P → Option WriteCall) (p : P) (c : Option WriteCall) :
    (fun q => (update f p c q).map WriteCall.abs) =
      update (fun q => (f q).map WriteCall.abs) p (c.map WriteCall.abs) := by
  funext q
  by_cases hq : q = p
  · subst hq
    rw [update_self, update_self]
  · rw [update_of_ne hq, update_of_ne hq]

theorem WriteCall.piece_abs (c : WriteCall) :
    c.abs.piece chunkMax = firstBytes (c.source c.i) c.n1 := by
  refine List.ext_getElem ?_ fun o ho _ => ?_
  · simp [SharedCursor.Call.piece, WriteCall.abs, firstBytes, WriteCall.n1, Nat.min_comm]
  · simp [SharedCursor.Call.piece, WriteCall.abs, firstBytes, WriteCall.source, Nat.add_assoc]

theorem WriteCall.length_abs (c : WriteCall) : c.abs.buf.length = c.n := length_firstBytes _ _

theorem WriteCall.length_piece_abs (c : WriteCall) : (c.abs.piece chunkMax).length = c.n1 := by
  rw [c.piece_abs, length_firstBytes]

section
variable (h : w.Good ip inum)
include h

theorem World.Good.setCall {f : Option WriteCall}
    (hf : ∀ c, f = some c → c.mem.Covers c.addr c.n ∧ c.i ≤ c.n) : (w.setCall p f).Good ip inum := by
  refine ⟨h.file, h.off, fun q c hc => ?_⟩
  change update w.call p f q = some c at hc
  by_cases hq : q = p
  · subst hq
    rw [update_self] at hc
    exact hf c hc
  · rw [update_of_ne hq] at hc
    exact h.call q c hc

omit [DecidableEq P] in
theorem World.Good.turn_spec {R : Prop} (hc : w.call p = some c)
    (hroom : R → TurnRoom w.kernel (diskTable w.kernel) ip inum w.off c.n1) :
    wp (filewriteTurn ip c.mem (c.addr + c.i) w.off c.n1)
      (fun a k => (∃ D dirty, OpenFile k D dirty ip inum) ∧
        ChunkEnd w.off c.n1 (c.source c.i) (fileData w.kernel inum) (fileData k inum) a)
      (Fail R) w.kernel := by
  obtain ⟨D, dirty, hfile⟩ := h.file
  obtain ⟨hcov, hi⟩ := h.call p c hc
  have hoff : w.off ≤ (D inum).size := by
    rw [← hfile.length_fileData]
    exact h.off
  have hn : c.n1 ≤ chunkMax := min_le_right _ _
  have hcov1 : c.mem.Covers (c.addr + c.i) c.n1 := (hcov.tail hi).mono (min_le_left _ _)
  have he := hfile.sound.table_eq hfile.live.1 hfile.live.2.1
  refine wp_post (hfile.filewriteTurn hoff hn hcov1 fun hR => (hroom hR).of_table he.symm) ?_
  rintro a k ⟨D', dirty', hfile', hend⟩
  exact ⟨⟨D', dirty', hfile'⟩, hend⟩

omit [DecidableEq P] in
theorem World.Good.turn {r : Int} {off : Nat} {k : Kernel} (hc : w.call p = some c)
    (hrun : filewriteTurn ip c.mem (c.addr + c.i) w.off c.n1 w.kernel = .ok (r, off) k) :
    (World.Good ⟨k, off, w.call⟩ ip inum) ∧ ChunkEnd w.off c.n1 (c.source c.i)
      (fileData w.kernel inum) (fileData k inum) (r, off) := by
  have hturn := h.turn_spec (R := False) hc nofun
  rw [wp_of_ok hrun] at hturn
  obtain ⟨hfile, hend⟩ := hturn
  refine ⟨⟨hfile, ?_, h.call⟩, hend⟩
  rcases hend with ⟨-, ha, hd⟩ | ⟨-, ha, hd⟩
  · cases ha
    rw [hd]
    refine le_trans ?_ (SharedCursor.length_overwrite h.off).ge
    rw [length_firstBytes]
    exact le_max_right _ _
  · cases ha
    rw [hd]
    exact h.off

/-- A step of the processes is a step of writers that share a cursor. -/
theorem World.Good.step {e : Option (WEvent P)} (hs : WStep ip inum w e w') :
    w'.Good ip inum ∧ SharedCursor.Step chunkMax (MAXFILE * BSIZE) (w.abs inum) e (w'.abs inum) := by
  cases hs with
  | @start p m addr n hnone hcov =>
    refine ⟨h.setCall fun c hc => by cases hc; exact ⟨hcov, Nat.zero_le _⟩, ?_⟩
    have he : (w.setCall p (some ⟨m, addr, n, 0, false⟩)).abs inum =
        (w.abs inum).setCall p (some ⟨firstBytes (fun o => m.byte (addr + o)) n, 0, false⟩) := by
      simp only [World.abs, World.setCall, abs_update, SharedCursor.State.setCall, Option.map_some,
        WriteCall.abs]
      rfl
    rw [he]
    exact .start (by simp [World.abs, hnone])
  | @chunk p c r off k hc hb hlt hrun hr =>
    obtain ⟨hg, hend⟩ := h.turn hc hrun
    have hcall := h.call p c hc
    refine ⟨hg.setCall fun c' hc' => ?_, ?_⟩
    · cases hc'
      have : c.n1 ≤ c.n - c.i := min_le_left _ _
      exact ⟨hcall.1, by simp only; omega⟩
    · rcases hend with ⟨hle, ha, hd⟩ | ⟨-, ha, -⟩
      · cases ha
        have he : (World.setCall ⟨k, w.off + c.n1, w.call⟩ p (some { c with i := c.i + c.n1 })).abs inum =
            (w.abs inum).write p c.abs (c.abs.piece chunkMax) := by
          simp only [World.abs, World.setCall, abs_update, SharedCursor.State.write, Option.map_some,
            c.length_piece_abs, hd]
          rw [c.piece_abs]
          rfl
        rw [he, ← c.piece_abs]
        refine .chunk (by simp [World.abs, hc]) hb ?_ ?_
        · rw [c.length_abs]
          exact hlt
        · rw [c.length_piece_abs]
          exact hle
      · cases ha
        omega
  | @refused p c r off k hc hb hlt hrun hr =>
    obtain ⟨hg, hend⟩ := h.turn hc hrun
    refine ⟨hg.setCall fun c' hc' => ?_, ?_⟩
    · cases hc'
      exact h.call p c hc
    · rcases hend with ⟨-, ha, -⟩ | ⟨hbig, ha, hd⟩
      · cases ha
        exact absurd rfl hr
      · cases ha
        have he : (World.setCall ⟨k, w.off, w.call⟩ p (some { c with broke := true })).abs inum =
            (w.abs inum).setCall p (some { c.abs with broke := true }) := by
          simp only [World.abs, World.setCall, abs_update, SharedCursor.State.setCall, Option.map_some, hd]
          rfl
        rw [he, ← c.length_piece_abs]
        refine .refused (by simp [World.abs, hc]) hb ?_ ?_
        · rw [c.length_abs]
          exact hlt
        · rw [c.length_piece_abs]
          exact hbig
  | @ret p c hc hend =>
    refine ⟨h.setCall nofun, ?_⟩
    have he : (w.setCall p none).abs inum = (w.abs inum).setCall p none := by
      simp only [World.abs, World.setCall, abs_update, SharedCursor.State.setCall, Option.map_none]
    have hres : c.abs.result = if c.i = c.n then (c.n : Int) else -1 := by
      rw [SharedCursor.Call.result, c.length_abs]
      rfl
    rw [he, ← hres]
    refine .ret (by simp [World.abs, hc]) ?_
    rw [c.length_abs]
    exact hend
  | @other k D dirty hfile hd =>
    refine ⟨⟨⟨D, dirty, hfile⟩, by rw [hd]; exact h.off, h.call⟩, ?_⟩
    have he : World.abs { w with kernel := k } inum = w.abs inum := by
      simp only [World.abs, hd]
    rw [he]
    exact .idle

omit [DecidableEq P] in
theorem World.Good.enabled (hc : w.call p = some c)
    (hroom : TurnRoom w.kernel (diskTable w.kernel) ip inum w.off c.n1) :
    ∃ a k, filewriteTurn ip c.mem (c.addr + c.i) w.off c.n1 w.kernel = .ok a k := by
  obtain ⟨a, k, hrun, -⟩ := ok_of_wp (h.turn_spec (R := True) hc fun _ => hroom)
  exact ⟨a, k, hrun⟩

end

theorem World.Good.of_run (h : w₀.Good ip inum) (hr : Run (WStep ip inum) w₀ t w) : w.Good ip inum ∧
      Run (SharedCursor.Step chunkMax (MAXFILE * BSIZE)) (w₀.abs inum) t (w.abs inum) :=
  Run.simulate (I := fun w => w.Good ip inum) (f := fun w => w.abs inum)
    (fun _ _ _ hg hs => hg.step hs) h hr

theorem World.Good.of_seqRun (h : w₀.Good ip inum) (hr : Run (WSeqStep ip inum) w₀ t w) :
    Run (SharedCursor.SeqStep chunkMax (MAXFILE * BSIZE)) (w₀.abs inum) t (w.abs inum) := by
  refine (Run.simulate (I := fun w => w.Good ip inum) (f := fun w => w.abs inum)
    (fun w e w' hg hs => ?_) h hr).2
  obtain ⟨hg', hs'⟩ := hg.step hs.1
  refine ⟨hg', hs', fun p buf he q => ?_⟩
  simp [World.abs, hs.2 p buf he q]

omit [DecidableEq P] in
theorem World.Good.off_le (h : w.Good ip inum) : w.off ≤ MAXFILE * BSIZE := by
  obtain ⟨D, dirty, hfile⟩ := h.file
  have hsize := size_le_of_holeFree hfile.holes
  have hoff := h.off
  rw [hfile.length_fileData] at hoff
  omega

/-- Calls one after another, none refused, leave what unchunked writes would. -/
theorem World.Good.unchunked {k : Kernel} {D : DTable} {dirty : Set Nat} {srcs : List Source}
    (h : w₀.Good ip inum) (hcall : ∀ p, w₀.call p = none) (hr : Run (WSeqStep ip inum) w₀ t w)
    (hacc : SharedCursor.Accepted t) (hend : ∀ p, w.call p = none) (hfile : OpenFile k D dirty ip inum)
    (hv : (k.inode ip).valid = true) (hdata : fileData k inum = fileData w₀.kernel inum)
    (hcov : ∀ s ∈ srcs, s.mem.Covers s.addr s.n)
    (hbufs : srcs.map Source.bytes = SharedCursor.buffers t) :
    wp (writeiAll ip srcs w₀.off) (fun off k' => off = w.off ∧ fileData k' inum = fileData w.kernel inum)
      (Fail False) k := by
  have hseq := h.of_seqRun hr
  have hnone : ∀ p, (w₀.abs inum).call p = none := fun p => by simp [World.abs, hcall p]
  have hwhole : (fileData w.kernel inum, w.off) =
      (SharedCursor.buffers t).foldl SharedCursor.writeWhole (fileData w₀.kernel inum, w₀.off) :=
    SharedCursor.sequential hnone h.off hseq hacc fun p => by simp [World.abs, hend p]
  have hlimit : w.off ≤ MAXFILE * BSIZE := SharedCursor.off_le_of_run h.off_le (hseq.mono fun _ _ _ hs => hs.1)
  rw [SharedCursor.foldl_writeWhole h.off, ← hbufs] at hwhole
  obtain ⟨hdata', hoff'⟩ := Prod.mk.inj hwhole
  rw [hoff'] at hlimit
  have hoff : w₀.off ≤ (D inum).size := by
    rw [← hfile.length_fileData, hdata]
    exact h.off
  refine wp_post (hfile.writeiAll srcs hv hoff hcov hlimit) ?_
  rintro off k' hfold
  rw [hdata, SharedCursor.foldl_writeWhole h.off] at hfold
  obtain ⟨hd, ho⟩ := Prod.mk.inj hfold
  exact ⟨ho.trans hoff'.symm, hd.trans hdata'.symm⟩

end Machine

open SharedCursor in
/-- Processes that share an open file, under any interleaving of their chunks. -/
theorem shared_writes_tile {P : Type} [DecidableEq P] {ip inum : Nat} {w₀ w : World P}
    {t : List (WEvent P)} (h₀ : w₀.Good ip inum) (hcall : ∀ p, w₀.call p = none)
    (hr : Run (WStep ip inum) w₀ t w) :
    w.off = w₀.off + (written t).length ∧
    fileData w.kernel inum = overwrite (fileData w₀.kernel inum) w₀.off (written t) ∧
    Tiles w₀.off (MAXFILE * BSIZE) t ∧
    (∀ p base data t₁ t₂, t = t₂ ++ .chunk p base data :: t₁ →
      base = w₀.off + (written t₁).length ∧
        ((fileData w.kernel inum).drop base).take data.length = data) ∧
    (∀ p (v : Int) t₁ t₂, t = t₂ ++ .ret p v :: t₁ → ∃ g, progress p t₁ = some g ∧
      (v = g.buf.length ∧ g.data = g.buf ∨
        v = -1 ∧ g.data <+: g.buf ∧ chunkMax ∣ g.data.length ∧ ∃ base n, g.refused = some (base, n) ∧
          n = min chunkMax (g.buf.length - g.data.length) ∧ MAXFILE * BSIZE < base + n)) ∧
    (Run (WSeqStep ip inum) w₀ t w → Accepted t → (∀ p, w.call p = none) →
      ∀ (k : Kernel) (D : DTable) (dirty : Set Nat) (srcs : List Source),
        OpenFile k D dirty ip inum → (k.inode ip).valid = true →
        fileData k inum = fileData w₀.kernel inum → (∀ s ∈ srcs, s.mem.Covers s.addr s.n) →
        srcs.map Source.bytes = buffers t →
        wp (writeiAll ip srcs w₀.off)
          (fun off k' => off = w.off ∧ fileData k' inum = fileData w.kernel inum) (Fail False) k) ∧
    (∀ p c, w.call p = some c → TurnRoom w.kernel (diskTable w.kernel) ip inum w.off c.n1 →
      ∃ a k, filewriteTurn ip c.mem (c.addr + c.i) w.off c.n1 w.kernel = .ok a k) := by
  obtain ⟨hg, hrun⟩ := h₀.of_run hr
  have hnone : ∀ p, (w₀.abs inum).call p = none := fun p => by simp [World.abs, hcall p]
  have hinv := inv_of_run hnone h₀.off hrun
  refine ⟨hinv.off, hinv.file, hinv.tiles, ?_, ?_, ?_, fun p c hc hroom => hg.enabled hc hroom⟩
  · rintro p base data t₁ t₂ rfl
    exact chunk_in_file hnone h₀.off hrun
  · rintro p v t₁ t₂ rfl
    exact returned hnone h₀.off hrun
  · exact fun hseq hacc hend k D dirty srcs hfile hv hdata hcov hbufs =>
      h₀.unchunked hcall hseq hacc hend hfile hv hdata hcov hbufs

/-- A chunk of one process, with the call of another under way. -/
theorem shared_writes_tile_small : ∃ (off : Nat) (k : Kernel),
    filewriteTurn 0 (.kernel fun _ => 7) 0 1000 2000 smallUnlocked = .ok ((2000 : Nat), off) k ∧
      off = 3000 ∧ fileData k 1 =
        overwrite (fileData smallUnlocked 1) 1000 (firstBytes (fun _ => 7) 2000) := by
  have hfile : OpenFile smallUnlocked smallTable ∅ 0 1 :=
    ⟨smallUnlocked_sound, by decide, by decide, rfl, ⟨by decide, by decide, by decide⟩, fun _ _ => id⟩
  have hroom : TurnRoom smallUnlocked smallTable 0 1 1000 2000 :=
    ⟨rfl, rfl, rfl, by decide, by decide, le_trans (by decide) smallKernel_free⟩
  have he := hfile.sound.table_eq hfile.live.1 hfile.live.2.1
  have hlen := hfile.length_fileData
  generalize smallUnlocked = k at hfile hroom he hlen ⊢
  let c : WriteCall := ⟨.kernel fun _ => 7, 0, 2000, 0, false⟩
  have hn1 : c.n1 = 2000 := rfl
  let w₀ : World Bool := ⟨k, 1000, fun _ => none⟩
  let w₂ := (w₀.setCall true (some c)).setCall false (some ⟨.kernel fun _ => 9, 0, 5, 0, false⟩)
  have hoff : 1000 ≤ (smallTable 1).size := by decide
  have hgood : w₀.Good 0 1 := ⟨⟨_, _, hfile⟩, hoff.trans hlen.ge, nofun⟩
  have hr : Run (WStep 0 1) w₀ _ w₂ := (Run.refl.event (.start rfl nofun)).event (.start rfl nofun)
  obtain ⟨⟨r, off⟩, k', hturn⟩ := (shared_writes_tile hgood (fun _ => rfl) hr).2.2.2.2.2.2 true c rfl
    (hroom.of_table he)
  obtain ⟨-, hend⟩ := (hgood.of_run hr).1.turn (p := true) (c := c) rfl hturn
  rw [hn1] at hturn hend
  rcases hend with ⟨-, ha, -⟩ | ⟨hbig, -⟩
  · obtain ⟨rfl, rfl⟩ := Prod.mk.inj ha
    obtain ⟨-, hdata, -⟩ := shared_writes_tile hgood (fun _ => rfl)
      (hr.event (.chunk (p := true) (c := c) rfl rfl (by decide) (by rw [hn1]; exact hturn) (by rw [hn1])))
    have hsrc : c.source c.i = fun _ => 7 := rfl
    rw [hn1, hsrc] at hdata
    simp only [SharedCursor.written, List.nil_append] at hdata
    exact ⟨3000, k', hturn, rfl, hdata⟩
  · exact absurd hbig (show ¬ MAXFILE * BSIZE < 1000 + 2000 by decide)

end Xv6.Fs
