import Xv6.Disk.Commit

/-!
# Crash atomicity of the redo log

A crash keeps the disk after some prefix of the block writes made so far and loses
everything in memory. Recovery may itself be cut short, any number of times.
-/

namespace Xv6.Disk

open Xv6.Foundation Function

set_option autoImplicit false

/-! ## Crashes and reboots -/

/-- The block writes that a run of `f` from `k` makes, also when it ends in a panic. -/
def ranWrites (f : K Unit) (k : Kernel) : List (Nat × Block) :=
  match f k with
  | .ok _ k' => k'.writes.drop k.writes.length
  | .error _ k' => k'.writes.drop k.writes.length

/-- The disk when the machine stops after the first `n` block writes of `f`. -/
def crashAfter (f : K Unit) (k : Kernel) (n : Nat) : Nat → Block :=
  applyWrites ((ranWrites f k).take n) k.disk

def freshBuf : Buf := ⟨false, 0, 0, false, 0, fun _ => 0⟩

/-- `binit`, and `initlog` up to its call of `recover_from_log`: an empty cache over `disk`, an
empty in-memory header, and the log geometry read again from the superblock. -/
def Kernel.reboot (k : Kernel) (disk : Nat → Block) : Kernel :=
  { k with
    disk := disk
    writes := []
    buf := fun _ => freshBuf
    lru := (List.range NBUF).reverse
    log := ⟨k.log.start, k.log.size, 0, false, k.log.dev, []⟩ }

/-- The disk after reboots whose recoveries are cut short after `ns` block writes each. -/
def interruptedRecoveries (k : Kernel) (disk : Nat → Block) : List Nat → Nat → Block
  | [] => disk
  | n :: ns => interruptedRecoveries k (crashAfter recoverFromLog (k.reboot disk) n) ns

theorem reboot_cacheInv (k : Kernel) (disk : Nat → Block) : CacheInv (k.reboot disk) ∅ [] [] := by
  have hdev : ∀ i, ((k.reboot disk).buf i).dev ≠ ROOTDEV := fun _ => by
    simp [Kernel.reboot, freshBuf, ROOTDEV]
  constructor
  · exact List.nodup_reverse.mpr List.nodup_range
  · intro i
    simp [Kernel.reboot]
  · exact fun i _ _ _ hd => absurd hd (hdev i)
  · exact fun _ _ _ => ⟨rfl, rfl, rfl⟩
  · exact List.nodup_nil
  · exact fun _ hp => by cases hp
  · exact fun _ _ hl => by cases hl
  · exact List.nodup_nil
  · exact fun _ hb => by cases hb
  · exact fun i _ hd => absurd hd (hdev i)
  · exact fun i _ hd => absurd hd (hdev i)

/-! ## Recovery -/

theorem ranWrites_of_wp {f : K Unit} {k : Kernel} {P : List (Nat × Block) → Prop}
    (h : wp f (fun _ k' => ∃ ws, P ws ∧ k'.writes = k.writes ++ ws)
      (fun _ k' => ∃ ws, P ws ∧ k'.writes = k.writes ++ ws) k) : P (ranWrites f k) := by
  cases hf : f k with
  | ok a k' =>
    obtain ⟨ws, hp, hw⟩ := (wp_of_ok hf).mp h
    simpa [ranWrites, hf, hw] using hp
  | error e k' =>
    obtain ⟨ws, hp, hw⟩ := (wp_of_error hf).mp h
    simpa [ranWrites, hf, hw] using hp

section Recovery
variable {k : Kernel} {disk : Nat → Block}

/-- The block writes of recovery on a disk whose header lists `lh`. -/
def recoverWrites (start : Nat) (disk : Nat → Block) (lh : List Nat) (d : Block) :
    List (Nat × Block) :=
  homeWrites start 0 disk lh ++ [(start, putHead d [])]

theorem reboot_view (k : Kernel) (disk : Nat → Block) (b : Nat) : (k.reboot disk).view b = disk b :=
  (reboot_cacheInv k disk).view_eq_disk (by simp) (by simp)

theorem readHead_spec (hdev : k.log.dev = ROOTDEV) : wp readHead
      (fun _ k' => CacheInv k' ∅ [] [] ∧ k'.writes = [] ∧ k'.disk = disk ∧
        k'.log = { (k.reboot disk).log with lh := headBlocks (disk k.log.start) } ∧
        k'.view = disk)
      (fun _ _ => False) (k.reboot disk) := by
  have h := reboot_cacheInv k disk
  have hstart : (k.reboot disk).log.start = k.log.start := rfl
  have hd : (k.reboot disk).log.dev = ROOTDEV := hdev
  rw [readHead, wp_bind, wp_get, hd, hstart]
  refine wp_seq (bread_spec h k.log.start) ?_ ?_
  · rintro buf k1 ⟨h1, q1, v1, -⟩
    have hview : ∀ c, k1.view c = disk c := fun c =>
      (v1 c (Or.inl (Set.notMem_empty c))).trans (reboot_view k disk c)
    rw [wp_bind, bufData_spec h1 List.mem_cons_self, wp_bind, setLh_spec]
    refine wp_sure_post (brelse_spec (h1.setLog _) List.mem_cons_self) ?_
    rintro _ k2 ⟨h2, q2, v2⟩
    rw [List.erase_cons_head] at h2
    refine ⟨h2, q2.writes.trans q1.writes, q2.disk.trans q1.disk, ?_, ?_⟩
    · rw [q2.log, hview]
      simp only [q1.log]
    · rw [v2]
      exact funext hview
  · rintro e k1 ⟨-, ⟨-, -, hlen⟩ | ⟨-, hm⟩⟩
    · simp [NBUF, MAXOPBLOCKS] at hlen
    · simp at hm

/-- Recovery completes, installs what the header lists and then clears the header. -/
theorem recover_spec (hdev : k.log.dev = ROOTDEV)
    (hlen : (headBlocks (disk k.log.start)).length < NBUF)
    (hsize : (headBlocks (disk k.log.start)).length < k.log.size ∨ headBlocks (disk k.log.start) = [])
    (hhome : ∀ b ∈ headBlocks (disk k.log.start), ¬ k.log.inArea b) : wp recoverFromLog
      (fun _ k' => ∃ d, k'.writes = recoverWrites k.log.start disk (headBlocks (disk k.log.start)) d ∧
        k'.disk = applyWrites k'.writes disk)
      (fun _ _ => False) (k.reboot disk) := by
  set lh := headBlocks (disk k.log.start) with hlh
  rw [recoverFromLog]
  refine wp_seq (readHead_spec hdev) ?_ (fun _ _ hf => hf)
  rintro _ k1 ⟨h1, hw1, hd1, hl1, v1⟩
  have hstart1 : k1.log.start = k.log.start := by rw [hl1]; rfl
  have hdev1 : k1.log.dev = ROOTDEV := by rw [hl1]; exact hdev
  have hlh1 : k1.log.lh = lh := by rw [hl1]
  rw [installTrans, wp_bind, wp_bind, wp_get, hlh1]
  change CacheInv k1 ∅ (pinsLeft true lh) [] at h1
  refine wp_mono (installFrom_spec lh 0 h1 hdev1 hlen ?_ (fun c _ => Set.notMem_empty c)) ?_
    (fun _ _ hf => hf)
  · intro b hb hr
    rw [hstart1, mem_logRange] at hr
    rcases hsize with hsize | hnil
    · exact hhome b hb ⟨by omega, by omega⟩
    · rw [hnil] at hb
      cases hb
  rintro _ k2 ⟨h2, w2⟩
  rw [hstart1, v1] at w2
  rw [wp_bind, setLh_spec]
  refine wp_mono (writeHead_spec (h2.setLog _) (by simp only [w2.log, hdev1])) ?_
    (fun _ _ hp => absurd hp (by simp [NBUF, MAXOPBLOCKS]))
  rintro _ k3 ⟨d, -, w3, -⟩
  have hws : k3.writes = recoverWrites k.log.start disk lh d := by
    rw [w3.writes, w2.writes, hw1, recoverWrites, w2.log, hstart1]
    simp
  refine ⟨d, hws, ?_⟩
  rw [w3.disk, w2.disk, hd1, hws, recoverWrites, applyWrites_append, w2.log, hstart1]

end Recovery

/-! ## The states a crash can leave -/

/-- The log is empty and the home blocks are those of `c`. -/
structure Settled (l : Log) (c d : Nat → Block) : Prop where
  head : headN (d l.start) = 0
  home : ∀ b, ¬ l.inArea b → d b = c b

/-- The transaction `lh` with contents `v` is in the log; its home blocks are in any state. -/
structure Logged (l : Log) (lh : List Nat) (v c d : Nat → Block) : Prop where
  head : headBlocks (d l.start) = lh
  body : ∀ j (hj : j < lh.length), d (l.start + 0 + 1 + j) = v lh[j]
  home : ∀ b, ¬ l.inArea b → b ∉ lh → d b = c b

def installed (lh : List Nat) (v c : Nat → Block) : Nat → Block :=
  fun b => if b ∈ lh then v b else c b

section States
variable {l : Log} {lh : List Nat} {v c d : Nat → Block} {ws : List (Nat × Block)}

theorem Logged.write (h : Logged l lh v c d) (hsize : lh.length < l.size)
    (hhome : ∀ b ∈ lh, ¬ l.inArea b) (hws : ∀ w ∈ ws, w.1 ∈ lh) :
    Logged l lh v c (applyWrites ws d) := by
  have hlog : ∀ b, l.inArea b → applyWrites ws d b = d b := fun b hb =>
    applyWrites_of_not_mem fun w hw he => hhome w.1 (hws w hw) (he ▸ hb)
  refine ⟨?_, fun j hj => ?_, fun b hb hm => ?_⟩
  · rw [hlog _ ⟨Nat.le_refl _, by omega⟩, h.head]
  · rw [hlog _ ⟨by omega, by omega⟩, h.body j hj]
  · rw [applyWrites_of_not_mem, h.home b hb hm]
    rintro w hw rfl
    exact hm (hws w hw)

theorem Logged.install (h : Logged l lh v c d) (hsize : lh.length < l.size) (e : Block) :
    Settled l (installed lh v c)
      (applyWrites ((lh.map fun b => (b, v b)) ++ [(l.start, putHead e [])]) d) := by
  rw [applyWrites_append, applyWrites_cons, applyWrites_nil]
  refine ⟨?_, fun b hb => ?_⟩
  · rw [update_self]
    exact headN_putHead e [] (by simp)
  · have hne : b ≠ l.start := by
      rintro rfl
      exact hb ⟨Nat.le_refl _, by omega⟩
    rw [update_of_ne hne, installed]
    split
    · rename_i hm
      have hmem : (b, v b) ∈ lh.map fun b => (b, v b) := List.mem_map.mpr ⟨b, hm, rfl⟩
      apply applyWrites_of_mem _ hmem
      intro w hw he
      obtain ⟨x, -, rfl⟩ := List.mem_map.mp hw
      exact congrArg v he
    · rename_i hm
      rw [applyWrites_of_not_mem, h.home b hb hm]
      intro w hw he
      obtain ⟨x, hx, rfl⟩ := List.mem_map.mp hw
      exact hm (he ▸ hx)

theorem Settled.write (h : Settled l c d) (hsize : 0 < l.size)
    (hws : ∀ w ∈ ws, w.1 = l.start ∧ headN w.2 = 0) : Settled l c (applyWrites ws d) := by
  induction ws generalizing d with
  | nil => exact h
  | cons w ws ih =>
    obtain ⟨hw, hn⟩ := hws w List.mem_cons_self
    rw [applyWrites_cons]
    refine ih ⟨?_, fun b hb => ?_⟩ fun x hx => hws x (List.mem_cons_of_mem w hx)
    · rw [hw, update_self, hn]
    · have hne : b ≠ w.1 := by
        rintro rfl
        exact hb ⟨by omega, by omega⟩
      rw [update_of_ne hne, h.home b hb]

end States

/-! ## Interrupted and complete recoveries -/

section Recoveries
variable {k : Kernel} {lh : List Nat} {v c d : Nat → Block}

theorem Settled.recover (h : Settled k.log c d) (hdev : k.log.dev = ROOTDEV) (hsize : 0 < k.log.size) :
    (∀ n, Settled k.log c (crashAfter recoverFromLog (k.reboot d) n)) ∧
      ∃ k', recoverFromLog (k.reboot d) = .ok () k' ∧ Settled k.log c k'.disk := by
  have hlh : headBlocks (d k.log.start) = [] := headBlocks_of_headN h.head
  have hspec := @recover_spec k d hdev (by simp [hlh, NBUF, MAXOPBLOCKS])
    (Or.inr hlh) (by simp [hlh])
  rw [hlh] at hspec
  have hclear : ∀ e, ∀ w ∈ recoverWrites k.log.start d [] e, w.1 = k.log.start ∧ headN w.2 = 0 := by
    intro e w hw
    rw [List.mem_singleton.mp hw]
    exact ⟨rfl, headN_putHead e [] (by simp)⟩
  constructor
  · intro n
    have hran : ∀ w ∈ ranWrites recoverFromLog (k.reboot d), w.1 = k.log.start ∧ headN w.2 = 0 := by
      apply ranWrites_of_wp (P := fun ws => ∀ w ∈ ws, w.1 = k.log.start ∧ headN w.2 = 0)
      refine wp_sure_post hspec ?_
      rintro _ k' ⟨e, hw, -⟩
      exact ⟨_, hclear e, by simp [hw, Kernel.reboot]⟩
    exact h.write hsize fun w hw => hran w (List.mem_of_mem_take hw)
  · cases hr : recoverFromLog (k.reboot d) with
    | error e k' => exact ((wp_of_error hr).mp hspec).elim
    | ok u k' =>
      obtain ⟨e, hw, hdisk⟩ := (wp_of_ok hr).mp hspec
      refine ⟨k', rfl, ?_⟩
      rw [hdisk, hw]
      exact h.write hsize (hclear e)

theorem Logged.recover (h : Logged k.log lh v c d) (hdev : k.log.dev = ROOTDEV)
    (hlen : lh.length < NBUF) (hsize : lh.length < k.log.size)
    (hhome : ∀ b ∈ lh, ¬ k.log.inArea b) :
    (∀ n, Logged k.log lh v c (crashAfter recoverFromLog (k.reboot d) n) ∨
        Settled k.log (installed lh v c) (crashAfter recoverFromLog (k.reboot d) n)) ∧
      ∃ k', recoverFromLog (k.reboot d) = .ok () k' ∧ Settled k.log (installed lh v c) k'.disk := by
  have hspec := @recover_spec k d hdev (by rw [h.head]; exact hlen)
    (Or.inl (by rw [h.head]; exact hsize)) (by rw [h.head]; exact hhome)
  rw [h.head] at hspec
  have hws : ∀ e, recoverWrites k.log.start d lh e =
      (lh.map fun b => (b, v b)) ++ [(k.log.start, putHead e [])] := by
    intro e
    rw [recoverWrites, homeWrites_eq_map h.body]
  constructor
  · intro n
    have hran : ∃ e, ranWrites recoverFromLog (k.reboot d) =
        (lh.map fun b => (b, v b)) ++ [(k.log.start, putHead e [])] := by
      apply ranWrites_of_wp (P := fun ws => ∃ e, ws =
        (lh.map fun b => (b, v b)) ++ [(k.log.start, putHead e [])])
      refine wp_sure_post hspec ?_
      rintro _ k' ⟨e, hw, -⟩
      exact ⟨_, ⟨e, rfl⟩, by rw [hw, hws]; rfl⟩
    obtain ⟨e, hran⟩ := hran
    rw [crashAfter, hran]
    by_cases hn : n ≤ lh.length
    · left
      rw [List.take_append_of_le_length (by simpa using hn)]
      apply h.write hsize hhome
      intro w hw
      obtain ⟨b, hb, rfl⟩ := List.mem_map.mp (List.mem_of_mem_take hw)
      exact hb
    · right
      rw [List.take_of_length_le (by simp; omega)]
      exact h.install hsize e
  · cases hr : recoverFromLog (k.reboot d) with
    | error e k' => exact ((wp_of_error hr).mp hspec).elim
    | ok u k' =>
      obtain ⟨e, hw, hdisk⟩ := (wp_of_ok hr).mp hspec
      refine ⟨k', rfl, ?_⟩
      rw [hdisk, hw, hws]
      exact h.install hsize e

theorem Settled.recoveries (h : Settled k.log c d) (hdev : k.log.dev = ROOTDEV)
    (hsize : 0 < k.log.size) (ns : List Nat) :
    ∃ k', recoverFromLog (k.reboot (interruptedRecoveries k d ns)) = .ok () k' ∧
      Settled k.log c k'.disk := by
  induction ns generalizing d with
  | nil => exact (h.recover hdev hsize).2
  | cons n ns ih => exact ih ((h.recover hdev hsize).1 n)

theorem Logged.recoveries (h : Logged k.log lh v c d) (hdev : k.log.dev = ROOTDEV)
    (hlen : lh.length < NBUF) (hsize : lh.length < k.log.size)
    (hhome : ∀ b ∈ lh, ¬ k.log.inArea b) (ns : List Nat) :
    ∃ k', recoverFromLog (k.reboot (interruptedRecoveries k d ns)) = .ok () k' ∧
      Settled k.log (installed lh v c) k'.disk := by
  induction ns generalizing d with
  | nil => exact (h.recover hdev hlen hsize hhome).2
  | cons n ns ih =>
    rcases (h.recover hdev hlen hsize hhome).1 n with hl | hs
    · exact ih hl
    · exact hs.recoveries hdev (by omega) ns

end Recoveries

/-! ## A crash during `commit` -/

/-- An in-memory `struct logheader`: at most `LOGSIZE` block numbers of 32 bits. -/
structure LogHeader where
  block : List Nat
  fits : block.length ≤ LOGSIZE
  word : ∀ b ∈ block, b < 2 ^ 32

section Commit
variable {k : Kernel} {dirty : Set Nat}

/-- What the log and the cache are at a call of `commit` with something to write. -/
structure CommitReady (k : Kernel) (dirty : Set Nat) (lh : LogHeader) : Prop where
  header : k.log.lh = lh.block
  pos : 0 < lh.block.length
  room : lh.block.length ≤ k.log.size - 1
  home : ∀ b ∈ lh.block, ¬ k.log.inArea b
  dev : k.log.dev = ROOTDEV
  cache : CacheInv k dirty lh.block []
  clean : headN (k.disk k.log.start) = 0

theorem commit_ranWrites {lh : LogHeader} (h : CommitReady k dirty lh) : (lh.block.length < NBUF ∧
      ∃ d d', ranWrites commit k = commitWrites k.log.start k.view lh.block d d') ∨
    (lh.block.length = NBUF ∧ ranWrites commit k = []) := by
  have hpos := h.pos
  have hroom := h.room
  have hcache := h.cache
  rw [← h.header] at hcache hpos hroom ⊢
  by_cases hfull : k.log.lh.length < NBUF
  · left
    refine ⟨hfull, ?_⟩
    apply ranWrites_of_wp (P := fun ws => ∃ d d', ws = commitWrites k.log.start k.view k.log.lh d d')
    refine wp_sure_post (commit_spec hcache h.dev hpos hfull (by omega) (by rw [h.header]; exact h.home)) ?_
    rintro _ k' ⟨d, d', -, hc⟩
    exact ⟨_, ⟨d, d', rfl⟩, hc.writes⟩
  · right
    have hlen : k.log.lh.length = NBUF := by
      have hfit := lh.fits
      rw [← h.header] at hfit
      simp only [LOGSIZE, NBUF] at hfit hfull ⊢
      omega
    refine ⟨hlen, ?_⟩
    apply ranWrites_of_wp (P := fun ws => ws = [])
    refine wp_mono (commit_dry hcache h.dev hlen.ge ?_) (fun _ _ hf => hf.elim) ?_
    · rw [h.header]
      exact fun hm => h.home _ hm ⟨by omega, by omega⟩
    · exact fun _ _ q => ⟨[], rfl, by simp [q.2.writes]⟩

theorem CommitReady.settled {lh : LogHeader} (h : CommitReady k dirty lh) {ws : List (Nat × Block)}
    (hws : ∀ w ∈ ws, w.1 ∈ logRange k.log.start 0 lh.block.length) :
    Settled k.log k.disk (applyWrites ws k.disk) := by
  have hroom := h.room
  have hpos := h.pos
  refine ⟨?_, fun b hb => ?_⟩
  · rw [applyWrites_of_not_mem, h.clean]
    intro w hw he
    have hr := hws w hw
    rw [he, mem_logRange] at hr
    omega
  · apply applyWrites_of_not_mem
    rintro w hw rfl
    have hr := mem_logRange.mp (hws w hw)
    exact hb ⟨by omega, by omega⟩

/-- The first header write commits the transaction. -/
theorem CommitReady.logged {lh : LogHeader} (h : CommitReady k dirty lh) (d : Block) :
    Logged k.log lh.block k.view k.disk (applyWrites
      (logWrites k.log.start 0 k.view lh.block ++ [(k.log.start, putHead d lh.block)]) k.disk) := by
  have hroom := h.room
  have hpos := h.pos
  rw [applyWrites_append, applyWrites_cons, applyWrites_nil]
  refine ⟨?_, fun j hj => ?_, fun b hb _ => ?_⟩
  · rw [update_self]
    apply headBlocks_putHead d lh.block _ lh.word
    have hfit := lh.fits
    simp only [LOGSIZE, MAXOPBLOCKS] at hfit
    omega
  · rw [update_of_ne (by omega), applyWrites_logWrites hj]
  · have hne : b ≠ k.log.start := by
      rintro rfl
      exact hb ⟨Nat.le_refl _, by omega⟩
    rw [update_of_ne hne]
    exact (h.settled fun w hw => logWrites_addr hw).home b hb

/-- The disk that a crash inside `commit` leaves: nothing happened, or the transaction is in the
log, or it is installed. After the first header write it is one of the last two. -/
theorem CommitReady.crashAfter {lh : LogHeader} (h : CommitReady k dirty lh) {n : Nat}
    (hn : n ≤ (ranWrites commit k).length) :
    (n ≤ lh.block.length ∧ Settled k.log k.disk (crashAfter commit k n)) ∨
    (lh.block.length < NBUF ∧ Logged k.log lh.block k.view k.disk (crashAfter commit k n)) ∨
    Settled k.log (installed lh.block k.view k.disk) (crashAfter commit k n) := by
  have hroom := h.room
  have hpos := h.pos
  rcases commit_ranWrites h with ⟨hlt, d, d', hran⟩ | ⟨-, hran⟩
  · rw [Xv6.Disk.crashAfter, hran, commitWrites]
    -- the four segments of the writes, and the prefixes that end in each
    rcases Nat.lt_or_ge lh.block.length n with hn1 | hn1
    · right
      rcases Nat.lt_or_ge (lh.block.length + 1 + lh.block.length) n with hn2 | hn2
      · right
        rw [List.take_of_length_le (by simp; omega), List.append_assoc, applyWrites_append]
        exact (h.logged d).install (by omega) d'
      · left
        refine ⟨hlt, ?_⟩
        rw [List.take_append_of_le_length (by simp; omega), List.take_append,
          List.take_of_length_le (by simp; omega), applyWrites_append]
        apply (h.logged d).write (by omega) h.home
        intro w hw
        obtain ⟨b, hb, rfl⟩ := List.mem_map.mp (List.mem_of_mem_take hw)
        exact hb
    · left
      refine ⟨hn1, ?_⟩
      rw [List.append_assoc, List.append_assoc, List.take_append_of_le_length (by simpa using hn1)]
      exact h.settled fun w hw => logWrites_addr (List.mem_of_mem_take hw)
  · rw [hran] at hn
    have hz : n = 0 := by simpa using hn
    subst hz
    exact Or.inl ⟨by omega, h.settled fun w hw => absurd hw List.not_mem_nil⟩

end Commit

/-- Crash atomicity: after a crash anywhere in `commit` and any number of interrupted recoveries,
the first complete recovery leaves all of the transaction or none of it. -/
theorem commit_crash_atomic (k : Kernel) (dirty : Set Nat) (lh : LogHeader)
    (h : CommitReady k dirty lh) (n : Nat) (hn : n ≤ (ranWrites commit k).length) (ns : List Nat) :
    ∃ k', recoverFromLog (k.reboot (interruptedRecoveries k (crashAfter commit k n) ns)) =
        .ok () k' ∧
      headN (k'.disk k.log.start) = 0 ∧
      ((∀ b, ¬ k.log.inArea b → k'.disk b = k.disk b) ∨
        (∀ b ∈ lh.block, k'.disk b = k.view b) ∧
          ∀ b, ¬ k.log.inArea b → b ∉ lh.block → k'.disk b = k.disk b) ∧
      (lh.block.length < n →
        (∀ b ∈ lh.block, k'.disk b = k.view b) ∧
          ∀ b, ¬ k.log.inArea b → b ∉ lh.block → k'.disk b = k.disk b) := by
  have hroom := h.room
  have hpos := h.pos
  have hdone : ∀ d, Settled k.log (installed lh.block k.view k.disk) d →
      (∀ b ∈ lh.block, d b = k.view b) ∧
        ∀ b, ¬ k.log.inArea b → b ∉ lh.block → d b = k.disk b := by
    intro d hs
    refine ⟨fun b hb => ?_, fun b hb hm => ?_⟩
    · rw [hs.home b (h.home b hb), installed, if_pos hb]
    · rw [hs.home b hb, installed, if_neg hm]
  rcases h.crashAfter hn with ⟨hle, hs⟩ | ⟨hlt, hl⟩ | hs
  · obtain ⟨k', hr, hs'⟩ := hs.recoveries h.dev (by omega) ns
    exact ⟨k', hr, hs'.head, Or.inl hs'.home, fun hgt => absurd hle (by omega)⟩
  · obtain ⟨k', hr, hs'⟩ := hl.recoveries h.dev hlt (by omega) h.home ns
    exact ⟨k', hr, hs'.head, Or.inr (hdone _ hs'), fun _ => hdone _ hs'⟩
  · obtain ⟨k', hr, hs'⟩ := hs.recoveries h.dev (by omega) ns
    exact ⟨k', hr, hs'.head, Or.inr (hdone _ hs'), fun _ => hdone _ hs'⟩

/-- A kernel that has logged blocks 46, 48 and 47 with new contents, and has cached block 50. -/
def threeBlockKernel : Kernel where
  disk := fun b _ => if b = 2 then 0 else 9
  writes := []
  buf := fun i =>
    if i < 3 then ⟨true, ROOTDEV, [46, 48, 47].getD i 0, false, 1, fun _ => i + 1⟩
    else if i = 3 then ⟨true, ROOTDEV, 50, false, 0, fun _ => 9⟩
    else freshBuf
  lru := List.range NBUF
  log := ⟨2, LOGSIZE, 0, true, ROOTDEV, [46, 48, 47]⟩
  sb := ⟨FSMAGIC, 1000, 954, 200, LOGSIZE, 2, 32, 45⟩
  inode := fun _ => ⟨0, 0, 0, false, false, ⟨0, 0, 0, 0, 0, fun _ => 0⟩⟩

def threeBlockHeader : LogHeader := ⟨[46, 48, 47], by decide, by decide⟩

theorem threeBlockKernel_cacheInv : CacheInv threeBlockKernel ∅ [46, 48, 47] [] where
  lru_nodup := List.nodup_range
  lru_mem := fun i => List.mem_range
  unique := by decide +kernel
  foreign := by decide +kernel
  held_nodup := List.nodup_nil
  held_buf := fun _ hp => by cases hp
  locked_held := by
    intro i hi hl
    exact absurd hl ((show ∀ i < NBUF, (threeBlockKernel.buf i).locked ≠ true by decide +kernel) i hi)
  pins_nodup := by decide
  pins_buf := by decide +kernel
  refcnt := by decide +kernel
  coherent := by
    intro i hi hd _ hp _
    obtain rfl : i = 3 :=
      (show ∀ i < NBUF, (threeBlockKernel.buf i).dev = ROOTDEV →
        (threeBlockKernel.buf i).blockno ∉ [46, 48, 47] → i = 3 by decide +kernel) i hi hd hp
    rfl

theorem threeBlockKernel_ready : CommitReady threeBlockKernel ∅ threeBlockHeader where
  header := rfl
  pos := by decide
  room := by decide
  home := by decide
  dev := rfl
  cache := threeBlockKernel_cacheInv
  clean := by decide

/-- Cut off in `write_log`, all blocks are old or all are new. Cut off when one block is installed,
and again twice in recovery, all are new, and no other block has changed. -/
theorem commit_crash_atomic_threeBlocks :
    (∃ k', recoverFromLog (threeBlockKernel.reboot
        (interruptedRecoveries threeBlockKernel (crashAfter commit threeBlockKernel 2) [0])) =
      .ok () k' ∧ ((∀ b ∈ [46, 48, 47], k'.disk b = threeBlockKernel.disk b) ∨
        ∀ b ∈ [46, 48, 47], k'.disk b = threeBlockKernel.view b)) ∧
    ∃ k', recoverFromLog (threeBlockKernel.reboot
        (interruptedRecoveries threeBlockKernel (crashAfter commit threeBlockKernel 5) [0, 2])) =
      .ok () k' ∧ headN (k'.disk 2) = 0 ∧
      (∀ b ∈ [46, 48, 47], k'.disk b = threeBlockKernel.view b) ∧
      k'.disk 50 = threeBlockKernel.disk 50 := by
  have hran : 5 ≤ (ranWrites commit threeBlockKernel).length := by
    rcases commit_ranWrites threeBlockKernel_ready with ⟨-, d, d', hw⟩ | ⟨hfull, -⟩
    · rw [hw]
      simp [commitWrites, threeBlockHeader]
    · exact absurd hfull (by decide)
  obtain ⟨k₁, hok₁, -, hone, -⟩ := commit_crash_atomic threeBlockKernel ∅ threeBlockHeader
    threeBlockKernel_ready 2 (by omega) [0]
  obtain ⟨k₂, hok₂, hhead₂, -, hall⟩ := commit_crash_atomic threeBlockKernel ∅ threeBlockHeader
    threeBlockKernel_ready 5 hran [0, 2]
  obtain ⟨hnew, hold⟩ := hall (by decide)
  refine ⟨⟨k₁, hok₁, ?_⟩, k₂, hok₂, hhead₂, hnew, hold 50 (by decide) (by decide)⟩
  exact hone.imp (fun h b hb => h b (threeBlockKernel_ready.home b hb)) fun h => h.1

end Xv6.Disk
