import Xv6.Disk.Crash
import Xv6.Fs.Copy

/-!
# Coherence of the buffer cache

A buffer that is neither locked nor listed in the log header holds what the disk holds. Every
path that changes `bp->data` has to pass through `log_write` or `bwrite` before `brelse`; the
error path of `writei` does so only if the failing copy has not changed anything.
-/

namespace Xv6.Fs

open Xv6.Foundation Xv6.Disk

set_option autoImplicit false

variable {α β : Type}

/-! ## Copies that fail -/

theorem eq_zero_of_block_start {off t : Nat} (h : t < BSIZE - off % BSIZE)
    (hz : (off + t) % BSIZE = 0) : t = 0 := by
  unfold BSIZE at *
  omega

/-- Of each piece that `writei` copies, all or nothing is mapped: the first unmapped byte is the
first byte, or the first one to go into its block. -/
def WholePieces (m : Mem) (src off n : Nat) : Prop :=
  m.user = true → ∀ t < n, MappedPrefix m src n t → t = 0 ∨ (off + t) % BSIZE = 0

section Piece
variable {m : Mem} {src off n : Nat} (hw : WholePieces m src off n)
include hw

theorem WholePieces.failed {len : Nat} (hlen : len = min n (BSIZE - off % BSIZE)) {d d' : Block}
    (h : eitherCopyin m d (off % BSIZE) src len = (d', false)) : d' = d := by
  unfold eitherCopyin at h
  split at h
  · rename_i hu
    obtain ⟨t, hp, hc⟩ := copyin_spec m len d (off % BSIZE) src len (Nat.le_refl _)
    rw [hc] at h
    obtain ⟨rfl, hne⟩ := Prod.mk.inj h
    have htl : t < len := by
      have := hp.1
      have := of_decide_eq_false hne
      omega
    have hz : t = 0 := by
      rcases hw hu t (by omega) ⟨by omega, hp.2.1, fun _ => hp.2.2 htl⟩ with hz | hz
      · exact hz
      · exact eq_zero_of_block_start (by omega) hz
    rw [hz, blit_zero]
  · cases h

theorem WholePieces.rest {len : Nat} (hle : len ≤ n) (hpos : 0 < len) {d d' : Block}
    (h : eitherCopyin m d (off % BSIZE) src len = (d', true)) :
    WholePieces m (src + len) (off + len) (n - len) := by
  intro hu t ht hp
  rw [eitherCopyin, if_pos hu] at h
  obtain ⟨t', hp', hc⟩ := copyin_spec m len d (off % BSIZE) src len (Nat.le_refl _)
  rw [hc] at h
  have hall : t' = len := of_decide_eq_true (Prod.mk.inj h).2
  subst hall
  rcases hw hu (t' + t) (by omega) (hp.tail hp'.2.1 hle) with hz | hz
  · omega
  · right
    rwa [Nat.add_assoc]

end Piece

/-! ## Calls that keep the cache coherent -/

/-- The cache is coherent but for the buffers in `held`; `S` lists inodes of the root device. -/
structure Coherent (S : Set Nat) (k : Kernel) (held : List (Nat × Nat)) : Prop where
  cache : CacheInv k ∅ k.log.lh held
  dev : k.log.dev = ROOTDEV
  inode : ∀ i ∈ S, (k.inode i).dev = ROOTDEV

/-- A call keeps the cache coherent, whatever its result; `held'` says what it leaves locked. -/
def Keeps (S : Set Nat) (held : List (Nat × Nat)) (f : K α) (held' : α → List (Nat × Nat)) : Prop :=
  ∀ k, Coherent S k held → wp f (fun a k' => Coherent S k' (held' a)) (fun _ _ => True) k

section Rules
variable {S : Set Nat} {held : List (Nat × Nat)} {i b : Nat} {held'' : β → List (Nat × Nat)}

theorem Coherent.quiet {k k' : Kernel} {held' : List (Nat × Nat)} (h : Coherent S k held)
    (hc : CacheInv k' ∅ k.log.lh held') (q : Quiet k k') : Coherent S k' held' :=
  ⟨by rw [q.log]; exact hc, by rw [q.log]; exact h.dev, fun i hi => by rw [q.inode]; exact h.inode i hi⟩

theorem Keeps.bind {f : K α} {g : α → K β} {held' : α → List (Nat × Nat)} (hf : Keeps S held f held')
    (hg : ∀ a, Keeps S (held' a) (g a) held'') : Keeps S held (f >>= g) held'' :=
  fun k h => wp_seq (hf k h) (fun a k' h' => hg a k' h') (fun _ _ _ => trivial)

theorem Keeps.pure (a : α) : Keeps S held (pure a) (fun _ => held) := fun _ h => h

theorem Keeps.throw (e : Panic) (held' : α → List (Nat × Nat)) :
    Keeps S held (throw e : K α) held' := fun _ _ => trivial

theorem Keeps.get {g : Kernel → K β} (hg : ∀ k, Coherent S k held → Keeps S held (g k) held'') :
    Keeps S held (get >>= g) held'' := fun k h => hg k h k h

theorem Keeps.check (c : Bool) (e : Panic) : Keeps S held (check c e) (fun _ => held) :=
  fun _ h => (wp_check _ _ _ _ _).mpr ⟨fun _ => trivial, fun _ => h⟩

theorem Keeps.when {c : Bool} {f : K Unit} (hf : Keeps S held f (fun _ => held)) :
    Keeps S held (when c f) (fun _ => held) :=
  fun k h => (wp_when _ _ _ _ _).mpr ⟨fun _ => hf k h, fun _ => h⟩

theorem keeps_bread (b : Nat) : Keeps S held (bread ROOTDEV b) (fun i => (i, b) :: held) :=
  fun _ h => wp_mono (bread_spec h.cache b) (fun _ _ hs => h.quiet hs.1 hs.2.1) (fun _ _ _ => trivial)

theorem keeps_bufData (i : Nat) : Keeps S held (bufData i) (fun _ => held) := fun _ h => h

theorem keeps_brelse : Keeps S ((i, b) :: held) (brelse i) (fun _ => held) := fun _ h =>
  wp_mono (brelse_spec h.cache List.mem_cons_self)
    (fun _ _ hs => h.quiet (by simpa using hs.1) hs.2.1) (fun _ _ _ => trivial)

/-- New contents, and `log_write` before anything else. -/
theorem keeps_store {d : Block} {rest : Unit → K β}
    (hrest : Keeps S ((i, b) :: held) (rest ()) held'') :
    Keeps S ((i, b) :: held) (setBufData i d >>= fun _ => logWrite i >>= rest) held'' := by
  intro k h
  refine wp_seq (setBufData_spec h.cache List.mem_cons_self d) ?_ (fun _ _ _ => trivial)
  rintro _ k1 ⟨h1, q1, -⟩
  rw [← q1.log] at h1
  refine wp_seq (logWrite_spec h1 List.mem_cons_self) ?_ (fun _ _ _ => trivial)
  rintro _ k2 ⟨h2, -, r2, -⟩
  rw [Set.insert_sdiff_of_mem _ (Set.mem_singleton _), Set.empty_sdiff] at h2
  refine hrest k2 ⟨h2, by rw [r2.dev, q1.log]; exact h.dev, fun i hi => ?_⟩
  rw [r2.inode, q1.inode]
  exact h.inode i hi

theorem wp_setBufData_same {k : Kernel} {rest : Unit → K β} {Q : β → Kernel → Prop}
    {E : Panic → Kernel → Prop} (h : wp (rest ()) Q E k) :
    wp (setBufData i (k.buf i).data >>= rest) Q E k := by
  have hk : k.setBuf i ((k.buf i).withData (k.buf i).data) = k := by
    simp [Kernel.setBuf, Buf.withData]
  simpa [setBufData, hk] using h

theorem keeps_setDin (ip : Nat) (f : DInode → DInode) :
    Keeps S held (setDin ip f) (fun _ => held) := by
  intro k h
  refine ⟨{ h.cache with }, h.dev, fun i hi => ?_⟩
  by_cases he : i = ip
  · subst he
    simpa [Inode.withDin] using h.inode i hi
  · simpa [he] using h.inode i hi

end Rules

/-! ## The functions of `fs.c` -/

section Functions
variable {S : Set Nat} {held : List (Nat × Nat)} {ip : Nat}

theorem keeps_bzero (b : Nat) : Keeps S held (bzero ROOTDEV b) (fun _ => held) :=
  (keeps_bread b).bind fun _ => keeps_store keeps_brelse

theorem keeps_ballocFrom (fuel b : Nat) : Keeps S held (ballocFrom ROOTDEV fuel b) (fun _ => held) := by
  induction fuel generalizing b with
  | zero => exact Keeps.throw _ _
  | succ fuel ih =>
    rw [ballocFrom]
    refine Keeps.get fun k _ => ?_
    split
    · refine (keeps_bread _).bind fun bp => (keeps_bufData bp).bind fun d => ?_
      split
      · exact keeps_store (keeps_brelse.bind fun _ => (keeps_bzero _).bind fun _ => Keeps.pure _)
      · exact keeps_brelse.bind fun _ => ih _
    · exact Keeps.throw _ _

theorem keeps_balloc : Keeps S held (balloc ROOTDEV) (fun _ => held) :=
  Keeps.get fun _ _ => keeps_ballocFrom _ _

theorem keeps_bfree (b : Nat) : Keeps S held (bfree ROOTDEV b) (fun _ => held) :=
  Keeps.get fun _ _ => (keeps_bread _).bind fun bp => (keeps_bufData bp).bind fun _ =>
    (Keeps.check _ _).bind fun _ => keeps_store keeps_brelse

variable (hip : ip ∈ S)
include hip

theorem keeps_iupdate : Keeps S held (iupdate ip) (fun _ => held) := by
  refine Keeps.get fun k h => ?_
  rw [h.inode ip hip]
  exact (keeps_bread _).bind fun bp => (keeps_bufData bp).bind fun _ => keeps_store keeps_brelse

theorem keeps_bmapEntry (j : Nat) : Keeps S held (bmapEntry ip j) (fun _ => held) := by
  refine Keeps.get fun k h => ?_
  rw [h.inode ip hip]
  refine (keeps_bread _).bind fun bp => (keeps_bufData bp).bind fun d => ?_
  split
  · exact keeps_balloc.bind fun _ => (keeps_bufData bp).bind fun _ =>
      keeps_store (keeps_brelse.bind fun _ => Keeps.pure _)
  · exact keeps_brelse.bind fun _ => Keeps.pure _

theorem keeps_bmap (bn : Nat) : Keeps S held (bmap ip bn) (fun _ => held) := by
  refine Keeps.get fun k h => ?_
  rw [h.inode ip hip]
  split
  · split
    · exact keeps_balloc.bind fun _ => (keeps_setDin _ _).bind fun _ => Keeps.pure _
    · exact Keeps.pure _
  split
  · exact (Keeps.when (keeps_balloc.bind fun _ => keeps_setDin _ _)).bind fun _ =>
      keeps_bmapEntry hip _
  · exact Keeps.throw _ _

theorem keeps_itruncDirect (is : List Nat) : Keeps S held (itruncDirect ip is) (fun _ => held) := by
  induction is with
  | nil => exact Keeps.pure _
  | cons i is ih =>
    refine Keeps.get fun k h => ?_
    rw [h.inode ip hip]
    exact (Keeps.when ((keeps_bfree _).bind fun _ => keeps_setDin _ _)).bind fun _ => ih

omit hip in
theorem keeps_itruncIndirect (bp : Nat) (js : List Nat) :
    Keeps S held (itruncIndirect ROOTDEV bp js) (fun _ => held) := by
  induction js with
  | nil => exact Keeps.pure _
  | cons j js ih =>
    exact (keeps_bufData bp).bind fun _ => (Keeps.when (keeps_bfree _)).bind fun _ => ih

theorem keeps_itrunc : Keeps S held (itrunc ip) (fun _ => held) := by
  refine (keeps_itruncDirect hip _).bind fun _ => Keeps.get fun k h => ?_
  rw [h.inode ip hip]
  refine (Keeps.when ?_).bind fun _ => (keeps_setDin _ _).bind fun _ => keeps_iupdate hip
  exact (keeps_bread _).bind fun bp => (keeps_itruncIndirect bp _).bind fun _ =>
    keeps_brelse.bind fun _ => (keeps_bfree _).bind fun _ => keeps_setDin _ _

theorem keeps_readiLoop (fuel : Nat) (m : Mem) (dst off tot n : Nat) :
    Keeps S held (readiLoop ip fuel m dst off tot n) (fun _ => held) := by
  induction fuel generalizing m dst off tot with
  | zero => exact Keeps.pure _
  | succ fuel ih =>
    rw [readiLoop]
    split
    · refine (keeps_bmap hip _).bind fun addr => Keeps.get fun k h => ?_
      rw [h.inode ip hip]
      refine (keeps_bread addr).bind fun bp => (keeps_bufData bp).bind fun d =>
        keeps_brelse.bind fun _ => ?_
      split
      · exact Keeps.pure _
      · exact ih _ _ _ _
    · exact Keeps.pure _

theorem keeps_readi (m : Mem) (dst off n : Nat) :
    Keeps S held (readi ip m dst off n) (fun _ => held) := by
  refine Keeps.get fun k _ => ?_
  split
  · exact Keeps.pure _
  · exact keeps_readiLoop hip _ _ _ _ _ _

theorem keeps_writeiLoop (m : Mem) (fuel src off tot n : Nat)
    (hw : WholePieces m src off (n - tot)) :
    Keeps S held (writeiLoop ip m fuel src off tot n) (fun _ => held) := by
  induction fuel generalizing src off tot with
  | zero => exact Keeps.pure _
  | succ fuel ih =>
    rw [writeiLoop]
    split
    · refine (keeps_bmap hip _).bind fun addr => Keeps.get fun k h => ?_
      rw [h.inode ip hip]
      refine (keeps_bread addr).bind fun bp k1 h1 => ?_
      rw [wp_bind, bufData_spec h1.cache List.mem_cons_self]
      dsimp only
      split
      · rename_i d' hc
        rw [hw.failed rfl hc, ← h1.cache.data_eq_view List.mem_cons_self]
        refine wp_setBufData_same ?_
        exact (keeps_brelse.bind fun _ => Keeps.pure _) k1 h1
      · rename_i d' hc
        have hpos : 0 < min (n - tot) (BSIZE - off % BSIZE) := by
          have := Nat.mod_lt off (show 0 < BSIZE by decide)
          omega
        have hrest := hw.rest (Nat.min_le_left _ _) hpos hc
        rw [Nat.sub_sub] at hrest
        exact keeps_store (keeps_brelse.bind fun _ => ih _ _ _ hrest) k1 h1
    · exact Keeps.pure _

theorem keeps_writei (m : Mem) (src off n : Nat) (hw : WholePieces m src off n) :
    Keeps S held (writei ip m src off n) (fun _ => held) := by
  refine Keeps.get fun k _ => ?_
  split
  · exact Keeps.pure _
  split
  · exact Keeps.pure _
  · exact (keeps_writeiLoop hip m n src off 0 n hw).bind fun r => Keeps.get fun _ _ =>
      (Keeps.when (keeps_setDin _ _)).bind fun _ => (keeps_iupdate hip).bind fun _ => Keeps.pure _

end Functions

/-! ## `commit` -/

section Commit
variable {k : Kernel} {pins : List Nat}

theorem writeLogFrom_coherent (bs : List Nat) (tail : Nat) (h : CacheInv k ∅ pins [])
    (hdev : k.log.dev = ROOTDEV) (hbs : ∀ b ∈ bs, b ∈ pins) : wp (writeLogFrom tail bs)
      (fun _ k' => CacheInv k' ∅ pins [] ∧ k'.log = k.log ∧ k'.inode = k.inode)
      (fun _ _ => True) k := by
  induction bs generalizing k tail with
  | nil => exact ⟨h, rfl, rfl⟩
  | cons b bs ih =>
    rw [writeLogFrom]
    refine wp_seq (writeLogBlock_spec h hdev (hbs b List.mem_cons_self)) ?_ (fun _ _ _ => trivial)
    rintro _ k1 ⟨h1, w1, -⟩
    rw [Set.empty_sdiff] at h1
    refine wp_mono (ih (tail + 1) h1 (by rw [w1.log, hdev])
      (fun c hc => hbs c (List.mem_cons_of_mem b hc))) ?_ (fun _ _ _ => trivial)
    rintro _ k2 ⟨h2, l2, i2⟩
    exact ⟨h2, l2.trans w1.log, i2.trans w1.inode⟩

theorem installFrom_coherent (bs : List Nat) (tail : Nat) (h : CacheInv k ∅ bs [])
    (hdev : k.log.dev = ROOTDEV) : wp (installFrom false tail bs)
      (fun _ k' => CacheInv k' ∅ [] [] ∧ k'.log = k.log ∧ k'.inode = k.inode)
      (fun _ _ => True) k := by
  induction bs generalizing k tail with
  | nil => exact ⟨h, rfl, rfl⟩
  | cons b bs ih =>
    rw [installFrom]
    refine wp_seq (installBlock_spec h hdev (Set.notMem_empty _)) ?_ (fun _ _ _ => trivial)
    rintro _ k1 ⟨h1, w1, -⟩
    rw [Set.empty_sdiff] at h1
    refine wp_mono (ih (tail + 1) h1 (by rw [w1.log, hdev])) ?_ (fun _ _ _ => trivial)
    rintro _ k2 ⟨h2, l2, i2⟩
    exact ⟨h2, l2.trans w1.log, i2.trans w1.inode⟩

theorem writeHead_coherent (h : CacheInv k ∅ pins []) (hdev : k.log.dev = ROOTDEV) :
    wp writeHead (fun _ k' => CacheInv k' ∅ pins [] ∧ k'.log = k.log ∧ k'.inode = k.inode)
      (fun _ _ => True) k := by
  refine wp_mono (writeHead_spec h hdev) ?_ (fun _ _ _ => trivial)
  rintro _ k1 ⟨d, h1, w1, -⟩
  rw [Set.empty_sdiff] at h1
  exact ⟨h1, w1.log, w1.inode⟩

theorem keeps_commit {S : Set Nat} : Keeps S [] commit (fun _ => []) := by
  intro k h
  rw [commit, wp_bind, wp_get]
  refine wp_ite (fun _ => ?_) (fun _ => h)
  rw [wp_bind, writeLog, wp_bind, wp_get]
  refine wp_mono (writeLogFrom_coherent _ 0 h.cache h.dev fun _ hb => hb) ?_ (fun _ _ _ => trivial)
  rintro _ k1 ⟨h1, l1, i1⟩
  refine wp_seq (writeHead_coherent h1 (by rw [l1, h.dev])) ?_ (fun _ _ _ => trivial)
  rintro _ k2 ⟨h2, l2, i2⟩
  rw [wp_bind, installTrans, wp_bind, wp_get, l2, l1]
  refine wp_mono (installFrom_coherent _ 0 h2 (by rw [l2, l1, h.dev])) ?_ (fun _ _ _ => trivial)
  rintro _ k3 ⟨h3, l3, i3⟩
  rw [wp_bind, setLh_spec]
  have hdev : k3.log.dev = ROOTDEV := by rw [l3, l2, l1, h.dev]
  refine wp_mono (writeHead_coherent (h3.setLog _) hdev) ?_ (fun _ _ _ => trivial)
  rintro _ k4 ⟨h4, l4, i4⟩
  refine ⟨by rw [l4]; exact h4, by rw [l4]; exact hdev, fun i hi => ?_⟩
  have hin : k4.inode = k.inode := i4.trans (i3.trans (i2.trans i1))
  rw [hin]
  exact h.inode i hi

theorem Coherent.setLog {S : Set Nat} {held : List (Nat × Nat)} (h : Coherent S k held) {l : Log}
    (hlh : l.lh = k.log.lh) (hdev : l.dev = k.log.dev) : Coherent S { k with log := l } held := by
  have hc := h.cache.setLog l
  rw [← hlh] at hc
  exact ⟨hc, hdev.trans h.dev, h.inode⟩

theorem keeps_beginOp {S : Set Nat} : Keeps S [] beginOp (fun _ => []) := by
  intro k h
  rw [beginOp, wp_bind, wp_get]
  rcases GroupCommit.beginOpPass_cases k.log with ⟨hb, -⟩ | ⟨hb, -, -⟩
  · rw [hb]
    trivial
  · rw [hb]
    exact h.setLog rfl rfl

theorem keeps_endOp {S : Set Nat} : Keeps S [] endOp (fun _ => []) := by
  intro k h
  rw [endOp, wp_bind, wp_get]
  rcases GroupCommit.endOpSection_cases k.log with ⟨hb, -⟩ | ⟨hb, -, -⟩ | ⟨hb, -, -⟩
  · rw [hb]
    trivial
  · rw [hb]
    refine keeps_commit.bind (fun _ k1 h1 => ?_) _ (h.setLog rfl rfl)
    exact h1.setLog rfl rfl
  · rw [hb]
    exact h.setLog rfl rfl

end Commit

/-! ## Sequences of calls -/

inductive FsCall where
  | readi (ip : Nat) (m : Mem) (dst off n : Nat)
  | writei (ip : Nat) (m : Mem) (src off n : Nat)
  | balloc
  | bfree (b : Nat)
  | iupdate (ip : Nat)
  | itrunc (ip : Nat)
  | beginOp
  | endOp
  | commit

def FsCall.run : FsCall → K Unit
  | .readi ip m dst off n => do
    let _ ← Fs.readi ip m dst off n
    pure ()
  | .writei ip m src off n => do
    let _ ← Fs.writei ip m src off n
    pure ()
  | .balloc => do
    let _ ← Fs.balloc ROOTDEV
    pure ()
  | .bfree b => Fs.bfree ROOTDEV b
  | .iupdate ip => Fs.iupdate ip
  | .itrunc ip => Fs.itrunc ip
  | .beginOp => Fs.beginOp
  | .endOp => Fs.endOp
  | .commit => Disk.commit

def FsCall.On (S : Set Nat) : FsCall → Prop
  | .readi ip _ _ _ _ => ip ∈ S
  | .writei ip _ _ _ _ => ip ∈ S
  | .iupdate ip => ip ∈ S
  | .itrunc ip => ip ∈ S
  | .balloc => True
  | .bfree _ => True
  | .beginOp => True
  | .endOp => True
  | .commit => True

/-- A `writei` copies each of its pieces as a whole or not at all. -/
def FsCall.Whole : FsCall → Prop
  | .writei _ m src off n => WholePieces m src off n
  | .readi _ _ _ _ _ => True
  | .balloc => True
  | .bfree _ => True
  | .iupdate _ => True
  | .itrunc _ => True
  | .beginOp => True
  | .endOp => True
  | .commit => True

def runCalls : List FsCall → Kernel → Option Kernel
  | [], k => some k
  | c :: cs, k =>
    match c.run k with
    | .ok _ k' => runCalls cs k'
    | .error _ _ => none

theorem keeps_run {S : Set Nat} {c : FsCall} (hon : c.On S) (hw : c.Whole) :
    Keeps S [] c.run (fun _ => []) := by
  cases c with
  | readi ip m dst off n => exact (keeps_readi hon m dst off n).bind fun _ => Keeps.pure _
  | writei ip m src off n => exact (keeps_writei hon m src off n hw).bind fun _ => Keeps.pure _
  | balloc => exact keeps_balloc.bind fun _ => Keeps.pure _
  | bfree b => exact keeps_bfree b
  | iupdate ip => exact keeps_iupdate hon
  | itrunc ip => exact keeps_itrunc hon
  | beginOp => exact keeps_beginOp
  | endOp => exact keeps_endOp
  | commit => exact keeps_commit

theorem Coherent.runCalls {S : Set Nat} {cs : List FsCall} {k k' : Kernel} (h : Coherent S k [])
    (hcs : ∀ c ∈ cs, c.On S ∧ c.Whole) (hr : Fs.runCalls cs k = some k') : Coherent S k' [] := by
  induction cs generalizing k with
  | nil =>
    cases hr
    exact h
  | cons c cs ih =>
    obtain ⟨hon, hw⟩ := hcs c List.mem_cons_self
    rw [Fs.runCalls] at hr
    split at hr
    · rename_i k1 hc
      have h1 := (wp_of_ok hc).mp (keeps_run hon hw k h)
      exact ih h1 (fun c hc => hcs c (List.mem_cons_of_mem _ hc)) hr
    · cases hr

/-- From a fresh boot on, as long as no `writei` copies a piece of which only a part is mapped:
between calls every valid buffer that is not logged is what the disk has, so that a block reads
the same whether or not it has been evicted. -/
theorem buffer_cache_coherent (k : Kernel) (disk : Nat → Block) (hdev : k.log.dev = ROOTDEV)
    (cs : List FsCall) (hon : ∀ c ∈ cs, c.On {i | (k.inode i).dev = ROOTDEV})
    (hw : ∀ c ∈ cs, c.Whole) (k' : Kernel) (hr : runCalls cs (k.reboot disk) = some k') :
    (∀ i < NBUF, (k'.buf i).locked = false) ∧
      (∀ i < NBUF, (k'.buf i).valid = true → (k'.buf i).blockno ∉ k'.log.lh →
        (k'.buf i).data = k'.disk (k'.buf i).blockno) ∧
      (∀ b, b ∉ k'.log.lh → k'.view b = k'.disk b) := by
  have hboot : Coherent {i | (k.inode i).dev = ROOTDEV} (k.reboot disk) [] :=
    ⟨reboot_cacheInv k disk, hdev, fun i hi => hi⟩
  have h := (hboot.runCalls (fun c hc => ⟨hon c hc, hw c hc⟩) hr).cache
  refine ⟨fun i hi => ?_, fun i hi hv hb => ?_, fun b hb => ?_⟩
  · by_contra hl
    obtain ⟨b, hm⟩ := h.locked_held i hi (by simpa using hl)
    cases hm
  · have hroot : (k'.buf i).dev = ROOTDEV := by
      by_contra hd
      rw [(h.foreign i hi hd).2.2] at hv
      cases hv
    exact h.coherent i hi hroot hv hb (Set.notMem_empty _)
  · exact h.view_eq_disk hb (Set.notMem_empty _)

/-- A file of one block, block 46, that is open in the inode table. -/
def oneFileKernel : Kernel where
  disk := fun _ _ => 0
  writes := []
  buf := fun _ => freshBuf
  lru := List.range NBUF
  log := ⟨2, LOGSIZE, 0, false, ROOTDEV, []⟩
  sb := ⟨FSMAGIC, 1000, 954, 200, LOGSIZE, 2, 32, 45⟩
  inode := fun _ => ⟨ROOTDEV, 1, 1, true, true,
    ⟨2, 0, 0, 1, BSIZE, fun j => if j = 0 then 46 else 0⟩⟩

/-- A process whose memory is one page of ones. -/
def onePage : Mem := ⟨true, fun p => p == 0, fun _ => 1⟩

/-- A whole block from inside the page: only the file's block and its inode are logged. -/
theorem buffer_cache_coherent_oneFile :
    ∃ k', runCalls [.beginOp, .writei 0 onePage 0 0 1024]
        (oneFileKernel.reboot fun _ _ => 0) = some k' ∧
      k'.view 46 0 = 1 ∧ ∀ b, b ≠ 46 → b ≠ 32 → k'.view b = k'.disk b := by
  obtain ⟨k', hr, hlh, hd⟩ : ∃ k', runCalls [.beginOp, .writei 0 onePage 0 0 1024]
      (oneFileKernel.reboot fun _ _ => 0) = some k' ∧ k'.log.lh = [46, 32] ∧ k'.view 46 0 = 1 :=
    ⟨_, rfl, rfl, rfl⟩
  have hwhole : WholePieces onePage 0 0 1024 := by
    rintro - t ht ⟨-, -, hend⟩
    have hpage : (0 + t) / PGSIZE = 0 := Nat.div_eq_of_lt (by simp only [PGSIZE]; omega)
    have hun := hend ht
    rw [hpage] at hun
    cases hun
  have hcond : ∀ c ∈ [FsCall.beginOp, .writei 0 onePage 0 0 1024],
      c.On {i | (oneFileKernel.inode i).dev = ROOTDEV} ∧ c.Whole := by
    intro c hc
    simp only [List.mem_cons, List.not_mem_nil, or_false] at hc
    rcases hc with rfl | rfl
    · exact ⟨trivial, trivial⟩
    · exact ⟨rfl, hwhole⟩
  refine ⟨k', hr, hd, fun b hb hb' => ?_⟩
  exact (buffer_cache_coherent oneFileKernel (fun _ _ => 0) rfl _ (fun c hc => (hcond c hc).1)
    (fun c hc => (hcond c hc).2) k' hr).2.2 b (by simp [hlh, hb, hb'])

/-- The last 512 bytes of the page and 512 bytes that are not mapped: `copyin` fails after it has
changed the first half of the buffer, and `writei` releases it without `log_write`. -/
theorem writei_leaves_torn_buffer :
    ∃ k', runCalls [.beginOp, .writei 0 onePage 3584 0 1024]
        (oneFileKernel.reboot fun _ _ => 0) = some k' ∧
      (∀ i < NBUF, (k'.buf i).locked = false) ∧ (k'.buf 0).valid = true ∧
      (k'.buf 0).blockno ∉ k'.log.lh ∧ (k'.buf 0).data ≠ k'.disk (k'.buf 0).blockno := by
  obtain ⟨k', hr, hlock, hv, hlh, hb, hbyte, hdisk⟩ :
      ∃ k', runCalls [.beginOp, .writei 0 onePage 3584 0 1024]
          (oneFileKernel.reboot fun _ _ => 0) = some k' ∧
        (∀ i < NBUF, (k'.buf i).locked = false) ∧ (k'.buf 0).valid = true ∧ k'.log.lh = [32] ∧
        (k'.buf 0).blockno = 46 ∧ (k'.buf 0).data 0 = 1 ∧ k'.disk 46 0 = 0 :=
    ⟨_, rfl, by decide, rfl, rfl, rfl, rfl, rfl⟩
  refine ⟨k', hr, hlock, hv, by simp [hlh, hb], fun he => ?_⟩
  rw [hb] at he
  have h0 := congrFun he 0
  rw [hbyte, hdisk] at h0
  exact absurd h0 (by decide)

end Xv6.Fs
