import Mathlib.Data.Set.Basic
import Mathlib.Data.List.Perm.Subperm
import Mathlib.Data.List.Nodup
import Xv6.Disk.Machine

/-!
# `bio.c`: the buffer cache

A buffer is named by its index in `bcache.buf`, as the code names it by a pointer.
`lru` lists the indices from `head.next` to `head.prev`.
-/

namespace Xv6.Disk

open Xv6.Foundation Function

set_option autoImplicit false

/-- `acquiresleep(&b->lock)` by the only running process. -/
def bufAcquiresleep (i : Nat) : K Unit := do
  let k ← get
  check (k.buf i).locked .selfDeadlock
  set (k.setBuf i { k.buf i with locked := true })

/-- The buffer that `bget`'s first loop stops at. -/
def Kernel.cached (k : Kernel) (dev blockno : Nat) : Option Nat :=
  k.lru.find? fun i => (k.buf i).dev == dev && (k.buf i).blockno == blockno

/-- The buffer that `bget`'s second loop stops at. -/
def Kernel.unused (k : Kernel) : Option Nat :=
  k.lru.reverse.find? fun i => (k.buf i).refcnt == 0

def bget (dev blockno : Nat) : K Nat := do
  let k ← get
  match k.cached dev blockno with
  | some i => do
    set (k.setBuf i { k.buf i with refcnt := (k.buf i).refcnt + 1 })
    bufAcquiresleep i
    pure i
  | none =>
    match k.unused with
    | some i => do
      set (k.setBuf i
        { k.buf i with dev := dev, blockno := blockno, valid := false, refcnt := 1 })
      bufAcquiresleep i
      pure i
    | none => throw .bgetNoBuffers

def bread (dev blockno : Nat) : K Nat := do
  let i ← bget dev blockno
  let k ← get
  if (k.buf i).valid then pure i
  else do
    set (k.setBuf i { k.buf i with data := k.disk (k.buf i).blockno, valid := true })
    pure i

def bwrite (i : Nat) : K Unit := do
  let k ← get
  check (!(k.buf i).locked) .bwrite
  set (k.diskWrite (k.buf i).blockno (k.buf i).data)

def Buf.withRefcnt (B : Buf) (n : Nat) : Buf := { B with refcnt := n }

/-- `releasesleep(&b->lock)` and `b->refcnt--`. -/
def Buf.released (B : Buf) : Buf := { B with locked := false, refcnt := B.refcnt - 1 }

/-- The buffer moves to the front of the list when nobody is waiting for it. -/
def brelse (i : Nat) : K Unit := do
  let k ← get
  check (!(k.buf i).locked) .brelse
  let lru := if (k.buf i).refcnt - 1 = 0 then i :: k.lru.erase i else k.lru
  set { k.setBuf i (k.buf i).released with lru := lru }

def bpin (i : Nat) : K Unit :=
  modify fun k => k.setBuf i ((k.buf i).withRefcnt ((k.buf i).refcnt + 1))

def bunpin (i : Nat) : K Unit :=
  modify fun k => k.setBuf i ((k.buf i).withRefcnt ((k.buf i).refcnt - 1))

def bufData (i : Nat) : K Block := do
  let k ← get
  pure (k.buf i).data

def Buf.withData (B : Buf) (d : Block) : Buf := { B with data := d }

@[simp] theorem Buf.withData_dev (B : Buf) (d : Block) : (B.withData d).dev = B.dev := rfl
@[simp] theorem Buf.withData_blockno (B : Buf) (d : Block) :
    (B.withData d).blockno = B.blockno := rfl
@[simp] theorem Buf.withData_valid (B : Buf) (d : Block) : (B.withData d).valid = B.valid := rfl
@[simp] theorem Buf.withData_locked (B : Buf) (d : Block) : (B.withData d).locked = B.locked := rfl
@[simp] theorem Buf.withData_refcnt (B : Buf) (d : Block) : (B.withData d).refcnt = B.refcnt := rfl
@[simp] theorem Buf.withData_data (B : Buf) (d : Block) : (B.withData d).data = d := rfl

/-- An assignment to bytes of `bp->data`. -/
def setBufData (i : Nat) (d : Block) : K Unit :=
  modify fun k => k.setBuf i ((k.buf i).withData d)

/-- A block's contents as `bread` would deliver them: the valid buffer's, else the disk's. -/
def Kernel.view (k : Kernel) (b : Nat) : Block :=
  match k.cached ROOTDEV b with
  | some i => if (k.buf i).valid then (k.buf i).data else k.disk b
  | none => k.disk b

/-- What holds of the cache between any two buffer calls. `held` lists the locked buffers
with their blocks, `pins` the blocks that carry a pin, and `dirty` the blocks whose buffer
may differ from the disk although no pin keeps it. -/
structure CacheInv (k : Kernel) (dirty : Set Nat) (pins : List Nat)
    (held : List (Nat × Nat)) : Prop where
  lru_nodup : k.lru.Nodup
  lru_mem : ∀ i, i ∈ k.lru ↔ i < NBUF
  unique : ∀ i < NBUF, ∀ j < NBUF, (k.buf i).dev = ROOTDEV → (k.buf j).dev = ROOTDEV →
    (k.buf i).blockno = (k.buf j).blockno → i = j
  foreign : ∀ i < NBUF, (k.buf i).dev ≠ ROOTDEV →
    (k.buf i).refcnt = 0 ∧ (k.buf i).locked = false ∧ (k.buf i).valid = false
  held_nodup : (held.map Prod.fst).Nodup
  held_buf : ∀ p ∈ held, p.1 < NBUF ∧ (k.buf p.1).dev = ROOTDEV ∧ (k.buf p.1).blockno = p.2 ∧
    (k.buf p.1).valid = true ∧ (k.buf p.1).locked = true
  locked_held : ∀ i < NBUF, (k.buf i).locked = true → ∃ b, (i, b) ∈ held
  pins_nodup : pins.Nodup
  pins_buf : ∀ b ∈ pins, ∃ i < NBUF, (k.buf i).dev = ROOTDEV ∧ (k.buf i).blockno = b ∧
    (k.buf i).valid = true
  refcnt : ∀ i < NBUF, (k.buf i).dev = ROOTDEV → (k.buf i).refcnt =
    (if (k.buf i).locked = true then 1 else 0) + (if (k.buf i).blockno ∈ pins then 1 else 0)
  coherent : ∀ i < NBUF, (k.buf i).dev = ROOTDEV → (k.buf i).valid = true →
    (k.buf i).blockno ∉ pins → (k.buf i).blockno ∉ dirty → (k.buf i).data = k.disk (k.buf i).blockno

/-- The parts of the kernel that buffer calls never touch. -/
structure SameRest (k k' : Kernel) : Prop where
  sb : k'.sb = k.sb
  inode : k'.inode = k.inode
  start : k'.log.start = k.log.start
  size : k'.log.size = k.log.size
  outstanding : k'.log.outstanding = k.log.outstanding
  committing : k'.log.committing = k.log.committing
  dev : k'.log.dev = k.log.dev

theorem SameRest.refl (k : Kernel) : SameRest k k := ⟨rfl, rfl, rfl, rfl, rfl, rfl, rfl⟩

theorem SameRest.trans {k k' k'' : Kernel} (h : SameRest k k') (h' : SameRest k' k'') :
    SameRest k k'' :=
  ⟨h'.sb.trans h.sb, h'.inode.trans h.inode, h'.start.trans h.start, h'.size.trans h.size,
    h'.outstanding.trans h.outstanding, h'.committing.trans h.committing, h'.dev.trans h.dev⟩

/-- A step that touches only buffers: no log state, no disk write. -/
structure Quiet (k k' : Kernel) : Prop where
  sb : k'.sb = k.sb
  inode : k'.inode = k.inode
  log : k'.log = k.log
  disk : k'.disk = k.disk
  writes : k'.writes = k.writes

theorem Quiet.refl (k : Kernel) : Quiet k k := ⟨rfl, rfl, rfl, rfl, rfl⟩

theorem Quiet.trans {k k' k'' : Kernel} (h : Quiet k k') (h' : Quiet k' k'') : Quiet k k'' :=
  ⟨h'.sb.trans h.sb, h'.inode.trans h.inode, h'.log.trans h.log, h'.disk.trans h.disk,
    h'.writes.trans h.writes⟩

theorem Quiet.sameRest {k k' : Kernel} (h : Quiet k k') : SameRest k k' :=
  ⟨h.sb, h.inode, by rw [h.log], by rw [h.log], by rw [h.log], by rw [h.log], by rw [h.log]⟩

theorem quiet_setBuf (k : Kernel) (i : Nat) (b : Buf) : Quiet k (k.setBuf i b) :=
  ⟨rfl, rfl, rfl, rfl, rfl⟩

namespace CacheInv

variable {k : Kernel} {dirty : Set Nat} {pins : List Nat} {held : List (Nat × Nat)}

variable (h : CacheInv k dirty pins held)
include h

theorem cached_eq_some {i b : Nat} (hi : i < NBUF)
    (hd : (k.buf i).dev = ROOTDEV) (hb : (k.buf i).blockno = b) : k.cached ROOTDEV b = some i := by
  cases hc : k.cached ROOTDEV b with
  | none =>
    have hn := List.find?_eq_none.mp hc i ((h.lru_mem i).mpr hi)
    simp [hd, hb] at hn
  | some j =>
    have hm := List.mem_of_find?_eq_some hc
    have hp := List.find?_some hc
    simp only [Bool.and_eq_true, beq_iff_eq] at hp
    rw [h.unique j ((h.lru_mem j).mp hm) i hi hp.1 hd (hp.2.trans hb.symm)]

theorem cached_eq_none {b : Nat} : k.cached ROOTDEV b = none ↔
      ∀ i < NBUF, (k.buf i).dev = ROOTDEV → (k.buf i).blockno ≠ b := by
  constructor
  · intro hc i hi hd hb
    simp [h.cached_eq_some hi hd hb] at hc
  · intro hn
    apply List.find?_eq_none.mpr
    intro i hm hp
    simp only [Bool.and_eq_true, beq_iff_eq] at hp
    exact hn i ((h.lru_mem i).mp hm) hp.1 hp.2

theorem of_cached {i b : Nat} (hc : k.cached ROOTDEV b = some i) :
    i < NBUF ∧ (k.buf i).dev = ROOTDEV ∧ (k.buf i).blockno = b := by
  have hp := List.find?_some hc
  simp only [Bool.and_eq_true, beq_iff_eq] at hp
  exact ⟨(h.lru_mem i).mp (List.mem_of_find?_eq_some hc), hp.1, hp.2⟩

theorem view_of_buf {i b : Nat} (hi : i < NBUF)
    (hd : (k.buf i).dev = ROOTDEV) (hb : (k.buf i).blockno = b) (hv : (k.buf i).valid = true) :
    k.view b = (k.buf i).data := by
  simp [Kernel.view, h.cached_eq_some hi hd hb, hv]

theorem view_of_uncached {b : Nat}
    (hn : ∀ i < NBUF, (k.buf i).dev = ROOTDEV → (k.buf i).blockno ≠ b) : k.view b = k.disk b := by
  simp [Kernel.view, h.cached_eq_none.mpr hn]

theorem view_of_invalid {i b : Nat} (hi : i < NBUF)
    (hd : (k.buf i).dev = ROOTDEV) (hb : (k.buf i).blockno = b) (hv : (k.buf i).valid = false) :
    k.view b = k.disk b := by
  simp [Kernel.view, h.cached_eq_some hi hd hb, hv]

/-- Outside the pinned and the dirty blocks, a read does not depend on the cache. -/
theorem view_eq_disk {b : Nat} (hp : b ∉ pins) (hd : b ∉ dirty) : k.view b = k.disk b := by
  cases hc : k.cached ROOTDEV b with
  | none => simp [Kernel.view, hc]
  | some i =>
    obtain ⟨hi, hdev, rfl⟩ := h.of_cached hc
    simp only [Kernel.view, hc]
    split
    · exact h.coherent i hi hdev ‹_› hp hd
    · rfl

theorem refcnt_eq_zero {i : Nat} (hi : i < NBUF) (hr : (k.buf i).refcnt = 0) :
    (k.buf i).locked = false ∧ ((k.buf i).dev = ROOTDEV → (k.buf i).blockno ∉ pins) := by
  by_cases hd : (k.buf i).dev = ROOTDEV
  · have hc := h.refcnt i hi hd
    rw [hr] at hc
    refine ⟨?_, fun _ hp => by rw [if_pos hp] at hc; omega⟩
    cases hl : (k.buf i).locked with
    | false => rfl
    | true => rw [if_pos hl] at hc; omega
  · exact ⟨(h.foreign i hi hd).2.1, fun hd' => absurd hd' hd⟩

/-- `bget` runs dry only when held and pinned buffers fill the cache. -/
theorem length_of_unused_none (hu : k.unused = none) : NBUF ≤ held.length + pins.length := by
  have hr : ∀ i ∈ k.lru, (k.buf i).refcnt ≠ 0 := by
    intro i hi
    have hn := List.find?_eq_none.mp hu i (List.mem_reverse.mpr hi)
    simpa using hn
  have hdev : ∀ i ∈ k.lru, (k.buf i).dev = ROOTDEV := by
    intro i hi
    by_contra hd
    exact hr i hi (h.foreign i ((h.lru_mem i).mp hi) hd).1
  have hlocked : (k.lru.filter fun i => (k.buf i).locked).length ≤ held.length := by
    have hm : (held.map Prod.fst).length = held.length := List.length_map _
    rw [← hm]
    apply List.Subperm.length_le
    apply List.subperm_of_subset (h.lru_nodup.filter _)
    intro i hi
    obtain ⟨hm, hl⟩ := List.mem_filter.mp hi
    obtain ⟨b, hb⟩ := h.locked_held i ((h.lru_mem i).mp hm) hl
    exact List.mem_map.mpr ⟨_, hb, rfl⟩
  have hpinned : (k.lru.filter fun i => !(k.buf i).locked).length ≤ pins.length := by
    rw [← List.length_map (f := fun i => (k.buf i).blockno)]
    apply List.Subperm.length_le
    apply List.subperm_of_subset
    · apply List.Nodup.map_on _ (h.lru_nodup.filter _)
      intro i hi j hj hij
      have hi' := (List.mem_filter.mp hi).1
      have hj' := (List.mem_filter.mp hj).1
      exact h.unique i ((h.lru_mem i).mp hi') j ((h.lru_mem j).mp hj') (hdev i hi') (hdev j hj') hij
    · intro b hb
      obtain ⟨i, hi, rfl⟩ := List.mem_map.mp hb
      obtain ⟨hm, hl⟩ := List.mem_filter.mp hi
      have hc := h.refcnt i ((h.lru_mem i).mp hm) (hdev i hm)
      have hne := hr i hm
      by_contra hp
      simp_all
  have hlen : k.lru.length = NBUF := by
    have hp : k.lru.Perm (List.range NBUF) := by
      apply (List.perm_ext_iff_of_nodup h.lru_nodup List.nodup_range).mpr
      intro i
      rw [h.lru_mem, List.mem_range]
    simpa using hp.length_eq
  have hsplit := List.length_eq_length_filter_add (l := k.lru) fun i => (k.buf i).locked
  omega

theorem acquire {i b : Nat} {B : Buf} (hi : i < NBUF)
    (hl : (k.buf i).locked = false) (hdev : B.dev = ROOTDEV) (hb : B.blockno = b)
    (hv : B.valid = true) (hlk : B.locked = true) (hr : B.refcnt = 1 + if b ∈ pins then 1 else 0)
    (hold : ∀ j < NBUF, (k.buf j).dev = ROOTDEV → (k.buf j).blockno = b → j = i)
    (hpin : (k.buf i).dev = ROOTDEV → (k.buf i).blockno ∈ pins → (k.buf i).blockno = b)
    (hcoh : b ∉ pins → b ∉ dirty → B.data = k.disk b) :
    CacheInv (k.setBuf i B) dirty pins ((i, b) :: held) := by
  have hne : ∀ p ∈ held, p.1 ≠ i := by
    intro p hp he
    have hlp := (h.held_buf p hp).2.2.2.2
    rw [he, hl] at hlp
    cases hlp
  constructor
  · exact h.lru_nodup
  · exact h.lru_mem
  · intro j hj l hl' hdj hdl hjl
    by_cases hji : j = i <;> by_cases hli : l = i
    · exact hji.trans hli.symm
    · simp only [hji, setBuf_buf, update_self, update_of_ne hli] at hdl hjl
      exact absurd (hold l hl' hdl (hjl.symm.trans hb)) hli
    · simp only [hli, setBuf_buf, update_self, update_of_ne hji] at hdj hjl
      exact absurd (hold j hj hdj (hjl.trans hb)) hji
    · simp only [setBuf_buf, update_of_ne hji, update_of_ne hli] at hdj hdl hjl
      exact h.unique j hj l hl' hdj hdl hjl
  · intro j hj hd
    simp only [setBuf_buf, update_apply] at hd ⊢
    split at hd
    · exact absurd hdev hd
    · rw [if_neg ‹_›]
      exact h.foreign j hj hd
  · refine List.nodup_cons.mpr ⟨?_, h.held_nodup⟩
    intro hm
    obtain ⟨p, hp, he⟩ := List.mem_map.mp hm
    exact hne p hp he
  · intro p hp
    rcases List.mem_cons.mp hp with rfl | hp
    · simp only [setBuf_buf, update_self]
      exact ⟨hi, hdev, hb, hv, hlk⟩
    · simp only [setBuf_buf, update_of_ne (hne p hp)]
      exact h.held_buf p hp
  · intro j hj hlj
    by_cases hji : j = i
    · exact ⟨b, by simp [hji]⟩
    · simp only [setBuf_buf, update_of_ne hji] at hlj
      obtain ⟨c, hc⟩ := h.locked_held j hj hlj
      exact ⟨c, List.mem_cons_of_mem _ hc⟩
  · exact h.pins_nodup
  · intro c hc
    by_cases hcb : c = b
    · exact ⟨i, hi, by simp [hdev], by simp [hb, hcb], by simp [hv]⟩
    · obtain ⟨j, hj, hdj, hbj, hvj⟩ := h.pins_buf c hc
      have hji : j ≠ i := by
        rintro rfl
        exact hcb (hbj.symm.trans (hpin hdj (by rw [hbj]; exact hc)))
      exact ⟨j, hj, by simp [hji, hdj], by simp [hji, hbj], by simp [hji, hvj]⟩
  · intro j hj hdj
    by_cases hji : j = i
    · subst hji
      simp [hlk, hb, hr]
    · simp only [setBuf_buf, update_of_ne hji] at hdj ⊢
      exact h.refcnt j hj hdj
  · intro j hj hdj hvj hpj hDj
    by_cases hji : j = i
    · subst hji
      simp only [setBuf_buf, update_self, setBuf_disk, hb] at hpj hDj ⊢
      exact hcoh hpj hDj
    · simp only [setBuf_buf, update_of_ne hji, setBuf_disk] at hdj hvj hpj hDj ⊢
      exact h.coherent j hj hdj hvj hpj hDj

/-- Recycling or locking a buffer changes the view only of a dirty block that is thrown out. -/
theorem acquire_view {i b : Nat} {B : Buf} {held' : List (Nat × Nat)}
    (h' : CacheInv (k.setBuf i B) dirty pins held') (hi : i < NBUF)
    (hl : (k.buf i).locked = false) (hdev : B.dev = ROOTDEV) (hb : B.blockno = b)
    (hv : B.valid = true) (hdata : B.data = k.view b)
    (hpin : (k.buf i).dev = ROOTDEV → (k.buf i).blockno ∈ pins → (k.buf i).blockno = b)
    {c : Nat} (hc : c ∉ dirty ∨ c ∈ pins ∨ c ∈ held.map Prod.snd) :
    (k.setBuf i B).view c = k.view c := by
  by_cases hcb : c = b
  · subst hcb
    rw [h'.view_of_buf hi (by simp [hdev]) (by simp [hb]) (by simp [hv]), ← hdata]
    simp
  cases hcc : (k.setBuf i B).cached ROOTDEV c with
  | some j =>
    obtain ⟨hj, hdj, hbj⟩ := h'.of_cached hcc
    have hji : j ≠ i := by
      rintro rfl
      simp [hb] at hbj
      exact hcb hbj.symm
    simp only [setBuf_buf, update_of_ne hji] at hdj hbj
    simp only [Kernel.view, hcc, h.cached_eq_some hj hdj hbj, setBuf_buf, update_of_ne hji,
      setBuf_disk]
  | none =>
    have hnone := h'.cached_eq_none.mp hcc
    rw [h'.view_of_uncached hnone, setBuf_disk]
    symm
    by_cases hold : (k.buf i).dev = ROOTDEV ∧ (k.buf i).blockno = c
    · obtain ⟨hdi, hbi⟩ := hold
      have hnp : c ∉ pins := fun hp => hcb (hbi.symm.trans (hpin hdi (hbi ▸ hp)))
      have hnh : c ∉ held.map Prod.snd := by
        intro hm
        obtain ⟨p, hp, rfl⟩ := List.mem_map.mp hm
        obtain ⟨hpi, hpd, hpb, -, hpl⟩ := h.held_buf p hp
        have := h.unique p.1 hpi i hi hpd hdi (hpb.trans hbi.symm)
        rw [this, hl] at hpl
        cases hpl
      exact h.view_eq_disk hnp (by tauto)
    · apply h.view_of_uncached
      intro j hj hdj hbj
      by_cases hji : j = i
      · exact hold ⟨hji ▸ hdj, hji ▸ hbj⟩
      · exact hnone j hj (by simpa [hji] using hdj) (by simpa [hji] using hbj)

end CacheInv

/-! ## Updates that keep every buffer on its block -/

section SameKeys
variable {k k' : Kernel} {dirty dirty' : Set Nat} {pins pins' : List Nat}
  {held held' : List (Nat × Nat)}

def SameKeys (k k' : Kernel) : Prop :=
  ∀ j < NBUF, (k'.buf j).dev = (k.buf j).dev ∧ (k'.buf j).blockno = (k.buf j).blockno ∧
    (k'.buf j).valid = (k.buf j).valid

theorem sameKeys_setBuf {i : Nat} {B : Buf} (hd : B.dev = (k.buf i).dev)
    (hb : B.blockno = (k.buf i).blockno) (hv : B.valid = (k.buf i).valid) :
    SameKeys k (k.setBuf i B) := by
  intro j _
  by_cases hji : j = i
  · subst hji
    simp [hd, hb, hv]
  · simp [hji]

theorem CacheInv.of_sameKeys (h : CacheInv k dirty pins held) (hk : SameKeys k k')
    (hlru : k'.lru.Nodup) (hmem : ∀ i, i ∈ k'.lru ↔ i < NBUF)
    (hforeign : ∀ i < NBUF, (k.buf i).dev ≠ ROOTDEV →
      (k'.buf i).refcnt = (k.buf i).refcnt ∧ (k'.buf i).locked = (k.buf i).locked)
    (hheld : (held'.map Prod.fst).Nodup) (hsub : ∀ p ∈ held', p ∈ held ∧ (k'.buf p.1).locked = true)
    (hlocked : ∀ i < NBUF, (k'.buf i).locked = true → ∃ b, (i, b) ∈ held') (hpins : pins'.Nodup)
    (hpsub : ∀ b ∈ pins', b ∈ pins ∨ ∃ i, (i, b) ∈ held)
    (hr : ∀ i < NBUF, (k.buf i).dev = ROOTDEV → (k'.buf i).refcnt =
      (if (k'.buf i).locked = true then 1 else 0) + (if (k.buf i).blockno ∈ pins' then 1 else 0))
    (hcoh : ∀ i < NBUF, (k.buf i).dev = ROOTDEV → (k.buf i).valid = true →
      (k.buf i).blockno ∉ pins' → (k.buf i).blockno ∉ dirty' →
      (k'.buf i).data = k'.disk (k.buf i).blockno) : CacheInv k' dirty' pins' held' := by
  constructor
  · exact hlru
  · exact hmem
  · intro i hi j hj hdi hdj hij
    rw [(hk i hi).1] at hdi
    rw [(hk j hj).1] at hdj
    rw [(hk i hi).2.1, (hk j hj).2.1] at hij
    exact h.unique i hi j hj hdi hdj hij
  · intro i hi hd
    rw [(hk i hi).1] at hd
    obtain ⟨h1, h2⟩ := hforeign i hi hd
    rw [h1, h2, (hk i hi).2.2]
    exact h.foreign i hi hd
  · exact hheld
  · intro p hp
    obtain ⟨hm, hl⟩ := hsub p hp
    obtain ⟨hi, hd, hb, hv, -⟩ := h.held_buf p hm
    obtain ⟨kd, kb, kv⟩ := hk p.1 hi
    exact ⟨hi, kd.trans hd, kb.trans hb, kv.trans hv, hl⟩
  · exact hlocked
  · exact hpins
  · intro b hb
    rcases hpsub b hb with hp | ⟨i, hm⟩
    · obtain ⟨i, hi, hd, hbi, hv⟩ := h.pins_buf b hp
      obtain ⟨kd, kb, kv⟩ := hk i hi
      exact ⟨i, hi, kd.trans hd, kb.trans hbi, kv.trans hv⟩
    · obtain ⟨hi, hd, hbi, hv, -⟩ := h.held_buf _ hm
      obtain ⟨kd, kb, kv⟩ := hk i hi
      exact ⟨i, hi, kd.trans hd, kb.trans hbi, kv.trans hv⟩
  · intro i hi hd
    obtain ⟨kd, kb, -⟩ := hk i hi
    rw [kb]
    exact hr i hi (kd.symm.trans hd)
  · intro i hi hd hv hp hD
    obtain ⟨kd, kb, kv⟩ := hk i hi
    rw [kb] at hp hD ⊢
    exact hcoh i hi (kd.symm.trans hd) (kv.symm.trans hv) hp hD

theorem CacheInv.view_of_sameKeys (h : CacheInv k dirty pins held)
    (h' : CacheInv k' dirty' pins' held') (hk : SameKeys k k') {c : Nat}
    (hdata : ∀ i < NBUF, (k.buf i).dev = ROOTDEV → (k.buf i).blockno = c →
      (k.buf i).valid = true → (k'.buf i).data = (k.buf i).data)
    (hdisk : (∀ i < NBUF, (k.buf i).dev = ROOTDEV → (k.buf i).blockno = c →
      (k.buf i).valid = false) → k'.disk c = k.disk c) : k'.view c = k.view c := by
  cases hc : k.cached ROOTDEV c with
  | none =>
    have hn := h.cached_eq_none.mp hc
    rw [h.view_of_uncached hn, h'.view_of_uncached]
    · exact hdisk fun i hi hd hb => absurd hb (hn i hi hd)
    · intro i hi hd
      rw [(hk i hi).1] at hd
      rw [(hk i hi).2.1]
      exact hn i hi hd
  | some i =>
    obtain ⟨hi, hd, hb⟩ := h.of_cached hc
    obtain ⟨kd, kb, kv⟩ := hk i hi
    cases hv : (k.buf i).valid with
    | true =>
      rw [h.view_of_buf hi hd hb hv, h'.view_of_buf hi (kd.trans hd) (kb.trans hb) (kv.trans hv)]
      exact hdata i hi hd hb hv
    | false =>
      rw [h.view_of_invalid hi hd hb hv,
        h'.view_of_invalid hi (kd.trans hd) (kb.trans hb) (kv.trans hv)]
      apply hdisk
      intro j hj hdj hbj
      rw [h.unique j hj i hi hdj hd (hbj.trans hb.symm)]
      exact hv

end SameKeys

section HeldBuffer
variable {k : Kernel} {dirty : Set Nat} {pins : List Nat} {held : List (Nat × Nat)} {i b : Nat}

variable (h : CacheInv k dirty pins held)
include h

theorem CacheInv.data_eq_view (hm : (i, b) ∈ held) : (k.buf i).data = k.view b := by
  obtain ⟨hi, hd, hb, hv, -⟩ := h.held_buf _ hm
  exact (h.view_of_buf hi hd hb hv).symm

theorem CacheInv.eq_of_blockno (hm : (i, b) ∈ held) {j : Nat}
    (hj : j < NBUF) (hd : (k.buf j).dev = ROOTDEV) (hb : (k.buf j).blockno = b) : j = i := by
  obtain ⟨hi, hdi, hbi, -, -⟩ := h.held_buf _ hm
  exact h.unique j hj i hi hd hdi (hb.trans hbi.symm)

theorem CacheInv.setData (hm : (i, b) ∈ held) (d : Block) :
    CacheInv (k.setBuf i ((k.buf i).withData d)) (insert b dirty) pins held := by
  have hlk : ∀ j, ((k.setBuf i ((k.buf i).withData d)).buf j).locked = (k.buf j).locked ∧
      ((k.setBuf i ((k.buf i).withData d)).buf j).refcnt = (k.buf j).refcnt := by
    intro j
    by_cases hji : j = i
    · subst hji
      simp
    · simp [hji]
  have hkeys : SameKeys k (k.setBuf i ((k.buf i).withData d)) := sameKeys_setBuf rfl rfl rfl
  apply h.of_sameKeys hkeys h.lru_nodup h.lru_mem
    (fun j _ _ => ⟨(hlk j).2, (hlk j).1⟩) h.held_nodup
    (fun p hp => ⟨hp, (hlk p.1).1.trans (h.held_buf p hp).2.2.2.2⟩)
    (fun j hj hl => h.locked_held j hj ((hlk j).1.symm.trans hl)) h.pins_nodup (fun c hc => Or.inl hc)
  · intro j hj hd
    rw [(hlk j).1, (hlk j).2]
    exact h.refcnt j hj hd
  · intro j hj hd hv hp hD
    have hji : j ≠ i := by
      rintro rfl
      exact hD (Or.inl (h.held_buf _ hm).2.2.1)
    simp only [setBuf_buf, update_of_ne hji, setBuf_disk]
    exact h.coherent j hj hd hv hp (fun hc => hD (Or.inr hc))

theorem setBufData_spec (hm : (i, b) ∈ held) (d : Block) : wp (setBufData i d)
      (fun _ k' => CacheInv k' (insert b dirty) pins held ∧ Quiet k k' ∧
        k'.view = update k.view b d)
      (fun _ _ => False) k := by
  simp only [setBufData, wp_modify]
  refine ⟨h.setData hm d, quiet_setBuf _ _ _, ?_⟩
  obtain ⟨hi, hd, hb, hv, -⟩ := h.held_buf _ hm
  funext c
  by_cases hcb : c = b
  · subst hcb
    rw [(h.setData hm d).view_of_buf hi (by simpa using hd) (by simpa using hb) (by simpa using hv)]
    simp
  · rw [update_of_ne hcb]
    apply h.view_of_sameKeys (h.setData hm d) (sameKeys_setBuf rfl rfl rfl)
    · intro j _ _ hbj _
      have hji : j ≠ i := fun he => hcb (hbj.symm.trans (he ▸ hb))
      simp [hji]
    · exact fun _ => rfl

theorem bufData_spec (hm : (i, b) ∈ held) (Q : Block → Kernel → Prop) (E : Panic → Kernel → Prop) :
    wp (bufData i) Q E k ↔ Q (k.view b) k := by
  simp only [bufData, wp_bind, wp_get, wp_pure, h.data_eq_view hm]

theorem bwrite_spec (hm : (i, b) ∈ held) : wp (bwrite i)
      (fun _ k' => CacheInv k' (dirty \ {b}) pins held ∧ k' = k.diskWrite b (k.view b) ∧
        k'.view = k.view)
      (fun _ _ => False) k := by
  obtain ⟨hi, hd, hb, hv, hl⟩ := h.held_buf _ hm
  have hkeys : SameKeys k (k.diskWrite b (k.view b)) := fun j _ => ⟨rfl, rfl, rfl⟩
  have hinv : CacheInv (k.diskWrite b (k.view b)) (dirty \ {b}) pins held := by
    apply h.of_sameKeys hkeys h.lru_nodup h.lru_mem (fun j _ _ => ⟨rfl, rfl⟩) h.held_nodup
      (fun p hp => ⟨hp, (h.held_buf p hp).2.2.2.2⟩) h.locked_held h.pins_nodup
      (fun c hc => Or.inl hc) h.refcnt
    intro j hj hdj hvj hp hD
    by_cases hbj : (k.buf j).blockno = b
    · rw [hbj, h.eq_of_blockno hm hj hdj hbj, diskWrite_buf, h.data_eq_view hm]
      simp
    · simp only [diskWrite_buf, diskWrite_disk, update_of_ne hbj]
      exact h.coherent j hj hdj hvj hp (fun hc => hD ⟨hc, hbj⟩)
  rw [bwrite, wp_bind, wp_get, wp_bind, wp_check, wp_set, hb, h.data_eq_view hm]
  refine ⟨fun hf => by simp [hl] at hf, fun _ => ⟨hinv, rfl, ?_⟩⟩
  funext c
  apply h.view_of_sameKeys hinv hkeys (fun _ _ _ _ _ => rfl)
  intro hn
  have hcb : c ≠ b := by
    rintro rfl
    rw [hn i hi hd hb] at hv
    cases hv
  simp [hcb]

theorem brelse_spec (hm : (i, b) ∈ held) : wp (brelse i)
      (fun _ k' => CacheInv k' dirty pins (held.erase (i, b)) ∧ Quiet k k' ∧ k'.view = k.view)
      (fun _ _ => False) k := by
  obtain ⟨hi, hd, hb, hv, hl⟩ := h.held_buf _ hm
  rw [brelse, wp_bind, wp_get, wp_bind, wp_check, wp_set]
  refine ⟨fun hf => by simp [hl] at hf, fun _ => ?_⟩
  set k' : Kernel := { k.setBuf i (k.buf i).released with
    lru := if (k.buf i).refcnt - 1 = 0 then i :: k.lru.erase i else k.lru } with hk'
  have hbuf : ∀ j, j ≠ i → k'.buf j = k.buf j := fun j hji => update_of_ne hji _ _
  have hself : k'.buf i = (k.buf i).released := update_self _ _ _
  have hkeys : SameKeys k k' := by
    intro j _
    by_cases hji : j = i
    · subst hji
      rw [hself]
      exact ⟨rfl, rfl, rfl⟩
    · rw [hbuf j hji]
      exact ⟨rfl, rfl, rfl⟩
  have hnd := h.held_nodup
  have hother : ∀ p ∈ held.erase (i, b), p ∈ held ∧ p.1 ≠ i := by
    intro p hp
    have hpm := List.mem_of_mem_erase hp
    refine ⟨hpm, fun he => ?_⟩
    have hpe : p = (i, b) := by
      have := List.inj_on_of_nodup_map hnd hpm hm he
      exact this
    exact (List.Nodup.mem_erase_iff (List.Nodup.of_map _ hnd)).mp hp |>.1 hpe
  have hlru : k'.lru.Nodup ∧ ∀ j, j ∈ k'.lru ↔ j < NBUF := by
    have hmi : i ∈ k.lru := (h.lru_mem i).mpr hi
    by_cases hz : (k.buf i).refcnt - 1 = 0
    · have hlr : k'.lru = i :: k.lru.erase i := if_pos hz
      rw [hlr]
      refine ⟨List.nodup_cons.mpr ⟨h.lru_nodup.not_mem_erase, h.lru_nodup.erase i⟩, fun j => ?_⟩
      rw [← h.lru_mem j]
      exact (List.perm_cons_erase hmi).symm.mem_iff
    · have hlr : k'.lru = k.lru := if_neg hz
      rw [hlr]
      exact ⟨h.lru_nodup, h.lru_mem⟩
  have hinv : CacheInv k' dirty pins (held.erase (i, b)) := by
    apply h.of_sameKeys hkeys hlru.1 hlru.2
    · intro j _ hdj
      have hji : j ≠ i := fun he => hdj (he ▸ hd)
      rw [hbuf j hji]
      exact ⟨rfl, rfl⟩
    · exact hnd.sublist (List.Sublist.map _ List.erase_sublist)
    · intro p hp
      obtain ⟨hpm, hpi⟩ := hother p hp
      rw [hbuf p.1 hpi]
      exact ⟨hpm, (h.held_buf p hpm).2.2.2.2⟩
    · intro j hj hlj
      have hji : j ≠ i := by
        rintro rfl
        rw [hself] at hlj
        cases hlj
      rw [hbuf j hji] at hlj
      obtain ⟨c, hc⟩ := h.locked_held j hj hlj
      exact ⟨c, (List.mem_erase_of_ne (by simp [hji])).mpr hc⟩
    · exact h.pins_nodup
    · exact fun c hc => Or.inl hc
    · intro j hj hdj
      by_cases hji : j = i
      · subst hji
        have hr := h.refcnt j hj hdj
        rw [if_pos hl] at hr
        simp [hself, Buf.released, hr]
      · rw [hbuf j hji]
        exact h.refcnt j hj hdj
    · intro j hj hdj hvj hp hD
      have hdata : (k'.buf j).data = (k.buf j).data := by
        by_cases hji : j = i
        · subst hji
          rw [hself]
          rfl
        · rw [hbuf j hji]
      rw [hdata]
      exact h.coherent j hj hdj hvj hp hD
  refine ⟨hinv, ⟨rfl, rfl, rfl, rfl, rfl⟩, ?_⟩
  funext c
  apply h.view_of_sameKeys hinv hkeys
  · intro j _ _ _ _
    by_cases hji : j = i
    · subst hji
      rw [hself]
      rfl
    · rw [hbuf j hji]
  · exact fun _ => rfl

theorem CacheInv.setRefcnt (hm : (i, b) ∈ held) {n : Nat}
    {pins' : List Nat} {dirty' : Set Nat} (hnd : pins'.Nodup)
    (hsame : ∀ c, c ≠ b → (c ∈ pins' ↔ c ∈ pins)) (hn : n = 1 + if b ∈ pins' then 1 else 0)
    (hdirty : ∀ c, c ≠ b → c ∉ dirty' → c ∉ dirty)
    (hcoh : b ∉ pins' → b ∉ dirty' → k.view b = k.disk b) :
    CacheInv (k.setBuf i ((k.buf i).withRefcnt n)) dirty' pins' held ∧
      (k.setBuf i ((k.buf i).withRefcnt n)).view = k.view := by
  obtain ⟨hi, hd, hb, hv, hl⟩ := h.held_buf _ hm
  set k' := k.setBuf i ((k.buf i).withRefcnt n) with hk'
  have hbuf : ∀ j, j ≠ i → k'.buf j = k.buf j := fun j hji => update_of_ne hji _ _
  have hself : k'.buf i = (k.buf i).withRefcnt n := update_self _ _ _
  have hkeys : SameKeys k k' := sameKeys_setBuf rfl rfl rfl
  have hlk : ∀ j, (k'.buf j).locked = (k.buf j).locked ∧ (k'.buf j).data = (k.buf j).data := by
    intro j
    by_cases hji : j = i
    · subst hji
      rw [hself]
      exact ⟨rfl, rfl⟩
    · rw [hbuf j hji]
      exact ⟨rfl, rfl⟩
  have hne : ∀ j < NBUF, (k.buf j).dev = ROOTDEV → j ≠ i → (k.buf j).blockno ≠ b :=
    fun j hj hdj hji hbj => hji (h.eq_of_blockno hm hj hdj hbj)
  have hinv : CacheInv k' dirty' pins' held := by
    apply h.of_sameKeys hkeys h.lru_nodup h.lru_mem
    · intro j _ hdj
      have hji : j ≠ i := fun he => hdj (he ▸ hd)
      rw [hbuf j hji]
      exact ⟨rfl, rfl⟩
    · exact h.held_nodup
    · exact fun p hp => ⟨hp, (hlk p.1).1.trans (h.held_buf p hp).2.2.2.2⟩
    · exact fun j hj hlj => h.locked_held j hj ((hlk j).1.symm.trans hlj)
    · exact hnd
    · intro c hc
      by_cases hcb : c = b
      · exact Or.inr ⟨i, hcb ▸ hm⟩
      · exact Or.inl ((hsame c hcb).mp hc)
    · intro j hj hdj
      by_cases hji : j = i
      · subst hji
        rw [(hlk j).1, if_pos hl, hself, hb]
        exact hn
      · rw [hbuf j hji, h.refcnt j hj hdj]
        simp only [hsame _ (hne j hj hdj hji)]
    · intro j hj hdj hvj hp hD
      rw [(hlk j).2]
      by_cases hji : j = i
      · subst hji
        rw [hb] at hp hD ⊢
        rw [h.data_eq_view hm]
        exact hcoh hp hD
      · have hbj := hne j hj hdj hji
        exact h.coherent j hj hdj hvj (fun hc => hp ((hsame _ hbj).mpr hc)) (hdirty _ hbj hD)
  refine ⟨hinv, ?_⟩
  funext c
  exact h.view_of_sameKeys hinv hkeys (fun j _ _ _ _ => (hlk j).2) (fun _ => rfl)

end HeldBuffer

/-- What a buffer call may leave in the view of a block: everything but dirty contents that no
pin and no lock protects. -/
def ViewKept (k k' : Kernel) (dirty : Set Nat) (pins : List Nat) (held : List (Nat × Nat)) : Prop :=
  ∀ c, c ∉ dirty ∨ c ∈ pins ∨ c ∈ held.map Prod.snd → k'.view c = k.view c

/-- A cached buffer as `bread` returns it: one more reference, locked, contents `d`. -/
def Buf.taken (B : Buf) (d : Block) : Buf :=
  { B with refcnt := B.refcnt + 1, locked := true, valid := true, data := d }

def Buf.loaded (dev b : Nat) (d : Block) : Buf := ⟨true, dev, b, true, 1, d⟩

theorem bread_eq_hit {k : Kernel} {dev b i : Nat} (hc : k.cached dev b = some i)
    (hl : (k.buf i).locked = false) : bread dev b k = .ok i (k.setBuf i ((k.buf i).taken
      (if (k.buf i).valid then (k.buf i).data else k.disk (k.buf i).blockno))) := by
  rw [ok_iff_wp]
  cases hv : (k.buf i).valid <;> simp [Buf.taken, bread, bget, bufAcquiresleep, hc, hl, hv]

theorem bread_eq_deadlock {k : Kernel} {dev b i : Nat} (hc : k.cached dev b = some i)
    (hl : (k.buf i).locked = true) : bread dev b k = .error .selfDeadlock
      (k.setBuf i { k.buf i with refcnt := (k.buf i).refcnt + 1 }) := by
  rw [error_iff_wp]
  simp [bread, bget, bufAcquiresleep, hc, hl]

theorem bread_eq_miss {k : Kernel} {dev b i : Nat} (hc : k.cached dev b = none)
    (hu : k.unused = some i) (hl : (k.buf i).locked = false) :
    bread dev b k = .ok i (k.setBuf i (Buf.loaded dev b (k.disk b))) := by
  rw [ok_iff_wp]
  simp [Buf.loaded, bread, bget, bufAcquiresleep, hc, hu, hl]

theorem bread_eq_dry {k : Kernel} {dev b : Nat} (hc : k.cached dev b = none)
    (hu : k.unused = none) : bread dev b k = .error .bgetNoBuffers k := by
  rw [error_iff_wp]
  simp [bread, bget, hc, hu]

theorem bread_spec {k : Kernel} {dirty : Set Nat} {pins : List Nat} {held : List (Nat × Nat)}
    (h : CacheInv k dirty pins held) (b : Nat) : wp (bread ROOTDEV b)
      (fun i k' => CacheInv k' dirty pins ((i, b) :: held) ∧ Quiet k k' ∧
        ViewKept k k' dirty pins held ∧ b ∉ held.map Prod.snd)
      (fun e k' => Quiet k k' ∧
        ((e = .bgetNoBuffers ∧ b ∉ pins ∧ NBUF ≤ held.length + pins.length) ∨
          (e = .selfDeadlock ∧ b ∈ held.map Prod.snd))) k := by
  -- the four ways `bget` can go: hit, hit on a buffer we hold, recycled buffer, no buffer
  cases hc : k.cached ROOTDEV b with
  | some i =>
    obtain ⟨hi, hdev, hb⟩ := h.of_cached hc
    cases hl : (k.buf i).locked with
    | true =>
      rw [wp_of_error (bread_eq_deadlock hc hl)]
      obtain ⟨c, hm⟩ := h.locked_held i hi hl
      refine ⟨quiet_setBuf _ _ _, Or.inr ⟨rfl, List.mem_map.mpr ⟨_, hm, ?_⟩⟩⟩
      exact (h.held_buf _ hm).2.2.1.symm.trans hb
    | false =>
      rw [wp_of_ok (bread_eq_hit hc hl)]
      have hview : (if (k.buf i).valid then (k.buf i).data else k.disk (k.buf i).blockno) =
          k.view b := by
        simp [Kernel.view, hc, hb]
      have hpin : (k.buf i).dev = ROOTDEV → (k.buf i).blockno ∈ pins → (k.buf i).blockno = b :=
        fun _ _ => hb
      have hr := h.refcnt i hi hdev
      simp only [hl, hb] at hr
      have hinv := h.acquire (B := (k.buf i).taken
          (if (k.buf i).valid then (k.buf i).data else k.disk (k.buf i).blockno))
        hi hl hdev hb rfl rfl (by simp [Buf.taken, hr, Nat.add_comm])
        (fun j hj hdj hbj => h.unique j hj i hi hdj hdev (hbj.trans hb.symm)) hpin
        (fun hp hD => hview.trans (h.view_eq_disk hp hD))
      refine ⟨hinv, quiet_setBuf _ _ _, ?_, ?_⟩
      · exact fun c => h.acquire_view hinv hi hl hdev hb rfl hview hpin
      · intro hm
        obtain ⟨p, hp, rfl⟩ := List.mem_map.mp hm
        obtain ⟨hpi, hpd, hpb, -, hpl⟩ := h.held_buf p hp
        rw [h.unique p.1 hpi i hi hpd hdev (hpb.trans hb.symm), hl] at hpl
        cases hpl
  | none =>
    have hnone := h.cached_eq_none.mp hc
    cases hu : k.unused with
    | none =>
      rw [wp_of_error (bread_eq_dry hc hu)]
      refine ⟨Quiet.refl k, Or.inl ⟨rfl, ?_, h.length_of_unused_none hu⟩⟩
      intro hp
      obtain ⟨i, hi, hdi, hbi, -⟩ := h.pins_buf b hp
      exact hnone i hi hdi hbi
    | some i =>
      have hi : i < NBUF := (h.lru_mem i).mp (List.mem_reverse.mp (List.mem_of_find?_eq_some hu))
      have hr : (k.buf i).refcnt = 0 := by simpa using List.find?_some hu
      obtain ⟨hl, hnp⟩ := h.refcnt_eq_zero hi hr
      rw [wp_of_ok (bread_eq_miss hc hu hl)]
      have hbp : b ∉ pins := by
        intro hp
        obtain ⟨j, hj, hdj, hbj, -⟩ := h.pins_buf b hp
        exact hnone j hj hdj hbj
      have hpin : (k.buf i).dev = ROOTDEV → (k.buf i).blockno ∈ pins → (k.buf i).blockno = b :=
        fun hd hp => absurd hp (hnp hd)
      have hinv := h.acquire (B := Buf.loaded ROOTDEV b (k.disk b)) hi hl rfl rfl rfl rfl
        (by simp [Buf.loaded, hbp]) (fun j hj hdj hbj => absurd hbj (hnone j hj hdj)) hpin (fun _ _ => rfl)
      refine ⟨hinv, quiet_setBuf _ _ _, ?_, ?_⟩
      · exact fun c => h.acquire_view hinv hi hl rfl rfl rfl (h.view_of_uncached hnone).symm hpin
      · intro hm
        obtain ⟨p, hp, rfl⟩ := List.mem_map.mp hm
        obtain ⟨hpi, hpd, hpb, -, -⟩ := h.held_buf p hp
        exact hnone p.1 hpi hpd hpb

theorem CacheInv.bread_full {k : Kernel} {dirty : Set Nat} {pins : List Nat}
    {held : List (Nat × Nat)} (h : CacheInv k dirty pins held) (hfull : NBUF ≤ pins.length) {b : Nat}
    (hb : b ∉ pins) : bread ROOTDEV b k = .error .bgetNoBuffers k := by
  have hall : ∀ i < NBUF, (k.buf i).dev = ROOTDEV ∧ (k.buf i).blockno ∈ pins := by
    let p : Nat → Bool := fun i => decide ((k.buf i).dev = ROOTDEV ∧ (k.buf i).blockno ∈ pins)
    have hsub : pins ⊆ ((List.range NBUF).filter p).map fun i => (k.buf i).blockno := by
      intro c hc
      obtain ⟨i, hi, hd, hbi, -⟩ := h.pins_buf c hc
      exact List.mem_map.mpr ⟨i, List.mem_filter.mpr ⟨List.mem_range.mpr hi, by simp [p, hd, hbi, hc]⟩, hbi⟩
    have hle := (List.subperm_of_subset h.pins_nodup hsub).length_le
    have hlen : ((List.range NBUF).filter p).length = (List.range NBUF).length := by
      have hup := List.length_filter_le p (List.range NBUF)
      simp only [List.length_map, List.length_range] at hle hup ⊢
      omega
    intro i hi
    have hp := List.length_filter_eq_length_iff.mp hlen i (List.mem_range.mpr hi)
    simpa [p] using hp
  have hc : k.cached ROOTDEV b = none :=
    h.cached_eq_none.mpr fun i hi _ he => hb (he ▸ (hall i hi).2)
  have hu : k.unused = none := by
    apply List.find?_eq_none.mpr
    intro i hi
    obtain ⟨hd, hp⟩ := hall i ((h.lru_mem i).mp (List.mem_reverse.mp hi))
    have hr := h.refcnt i ((h.lru_mem i).mp (List.mem_reverse.mp hi)) hd
    rw [if_pos hp] at hr
    simp [hr]
  exact bread_eq_dry hc hu

end Xv6.Disk
