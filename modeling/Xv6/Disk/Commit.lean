import Xv6.Foundation.Writes
import Xv6.Disk.Log

/-!
# The block writes of `commit` and of recovery

Each function of `log.c` is described by the list of block writes it makes and by the
buffers it leaves behind. All of them run with no buffer locked.
-/

namespace Xv6.Disk

open Xv6.Foundation Function

set_option autoImplicit false

/-- Only the disk changed, by the block writes `ws`, and possibly the buffers. -/
structure Wrote (k k' : Kernel) (ws : List (Nat × Block)) : Prop where
  sb : k'.sb = k.sb
  inode : k'.inode = k.inode
  log : k'.log = k.log
  disk : k'.disk = applyWrites ws k.disk
  writes : k'.writes = k.writes ++ ws

theorem Quiet.wrote {k k' : Kernel} (h : Quiet k k') : Wrote k k' [] :=
  ⟨h.sb, h.inode, h.log, h.disk, by simp [h.writes]⟩

theorem wrote_diskWrite (k : Kernel) (b : Nat) (d : Block) : Wrote k (k.diskWrite b d) [(b, d)] :=
  ⟨rfl, rfl, rfl, rfl, rfl⟩

theorem Wrote.trans {k k' k'' : Kernel} {ws vs : List (Nat × Block)} (h : Wrote k k' ws)
    (h' : Wrote k' k'' vs) : Wrote k k'' (ws ++ vs) :=
  ⟨h'.sb.trans h.sb, h'.inode.trans h.inode, h'.log.trans h.log,
    by rw [h'.disk, h.disk, applyWrites_append], by rw [h'.writes, h.writes, List.append_assoc]⟩

section
variable {k : Kernel} {dirty : Set Nat} {pins : List Nat} {bs : List Nat} {start tail : Nat}
  {v w : Nat → Block} {recovering : Bool}

theorem writeHead_spec (h : CacheInv k dirty pins []) (hdev : k.log.dev = ROOTDEV) : wp writeHead
      (fun _ k' => ∃ d, CacheInv k' (dirty \ {k.log.start}) pins [] ∧
        Wrote k k' [(k.log.start, putHead d k.log.lh)] ∧
        ∀ c, c ≠ k.log.start → c ∉ dirty ∨ c ∈ pins → k'.view c = k.view c)
      (fun _ _ => NBUF ≤ pins.length) k := by
  rw [writeHead, wp_bind, wp_get, hdev]
  refine wp_seq (bread_spec h k.log.start) ?_ ?_
  · rintro buf k1 ⟨h1, q1, v1, -⟩
    have hm : (buf, k.log.start) ∈ [(buf, k.log.start)] := List.mem_singleton.mpr rfl
    rw [wp_bind, bufData_spec h1 hm]
    refine wp_sure (setBufData_spec h1 hm _) ?_
    rintro _ k2 ⟨h2, q2, v2⟩
    refine wp_sure (bwrite_spec h2 hm) ?_
    rintro _ k3 ⟨h3, rfl, v3⟩
    refine wp_sure_post (brelse_spec h3 hm) ?_
    rintro _ k4 ⟨h4, q4, v4⟩
    have hw := ((q1.trans q2).wrote.trans (wrote_diskWrite k2 k.log.start _)).trans q4.wrote
    rw [v2] at hw
    simp only [update_self, List.nil_append, List.append_nil] at hw
    rw [List.erase_cons_head, Set.insert_sdiff_of_mem _ (Set.mem_singleton _)] at h4
    refine ⟨_, h4, hw, ?_⟩
    intro c hc hk
    rw [v4, v3, v2, update_of_ne hc]
    exact v1 c (by tauto)
  · rintro e k1 ⟨-, ⟨-, -, hlen⟩ | ⟨-, hm⟩⟩
    · simpa using hlen
    · simp at hm

theorem wp_breadPair {f : Nat → Nat → K Unit} {Q : Unit → Kernel → Prop} {E : Panic → Kernel → Prop}
    {c b : Nat} (h : CacheInv k dirty pins []) (hb : b ∈ pins ∨ pins.length + 1 < NBUF)
    (he : ∀ e k', NBUF ≤ pins.length ∨ b = c → E e k')
    (hf : ∀ i j k', b ≠ c → CacheInv k' dirty pins [(j, b), (i, c)] → Quiet k k' →
      (∀ x, x ∉ dirty ∨ x ∈ pins → k'.view x = k.view x) → wp (f i j) Q E k') :
    wp (bread ROOTDEV c >>= fun i => bread ROOTDEV b >>= fun j => f i j) Q E k := by
  refine wp_seq (bread_spec h c) ?_ ?_
  · rintro i k1 ⟨h1, q1, v1, -⟩
    refine wp_seq (bread_spec h1 b) ?_ ?_
    · rintro j k2 ⟨h2, q2, v2, n2⟩
      refine hf i j k2 (by simpa using n2) h2 (q1.trans q2) fun x hx => ?_
      rw [v2 x (by tauto), v1 x (by tauto)]
    · rintro e k2 ⟨-, ⟨-, hnp, hlen⟩ | ⟨-, hm⟩⟩
      · simp only [List.length_singleton] at hlen
        rcases hb with hb | hb
        · exact absurd hb hnp
        · omega
      · exact he e k2 (Or.inr (by simpa using hm))
  · rintro e k1 ⟨-, ⟨-, -, hlen⟩ | ⟨-, hm⟩⟩
    · exact he e k1 (Or.inl (by simpa using hlen))
    · simp at hm

/-! ## `write_log` -/

theorem writeLogBlock_spec {tail b : Nat} (h : CacheInv k dirty pins [])
    (hdev : k.log.dev = ROOTDEV) (hb : b ∈ pins) : wp (writeLogBlock tail b)
      (fun _ k' => CacheInv k' (dirty \ {k.log.start + tail + 1}) pins [] ∧
        Wrote k k' [(k.log.start + tail + 1, k.view b)] ∧
        ∀ c, c ≠ k.log.start + tail + 1 → c ∉ dirty ∨ c ∈ pins → k'.view c = k.view c)
      (fun _ _ => NBUF ≤ pins.length ∨ b = k.log.start + tail + 1) k := by
  rw [writeLogBlock, wp_bind, wp_get, hdev]
  apply wp_breadPair h (Or.inl hb) (fun _ _ he => he)
  intro i j k1 _ h1 q1 v1
  have hmi : (i, k.log.start + tail + 1) ∈ [(j, b), (i, k.log.start + tail + 1)] := by simp
  rw [wp_bind, bufData_spec h1 List.mem_cons_self]
  refine wp_sure (setBufData_spec h1 hmi _) ?_
  rintro _ k2 ⟨h2, q2, v2⟩
  refine wp_sure (bwrite_spec h2 hmi) ?_
  rintro _ k3 ⟨h3, rfl, v3⟩
  refine wp_sure (brelse_spec h3 List.mem_cons_self) ?_
  rintro _ k4 ⟨h4, q4, v4⟩
  rw [List.erase_cons_head] at h4
  refine wp_sure_post (brelse_spec h4 List.mem_cons_self) ?_
  rintro _ k5 ⟨h5, q5, v5⟩
  have hw := ((q1.trans q2).wrote.trans (wrote_diskWrite k2 (k.log.start + tail + 1) _)).trans
    (q4.trans q5).wrote
  -- the block copied is the pinned one, so no buffer call has changed it
  rw [v2, v1 b (Or.inr hb)] at hw
  simp only [update_self, List.nil_append, List.append_nil] at hw
  rw [List.erase_cons_head, Set.insert_sdiff_of_mem _ (Set.mem_singleton _)] at h5
  refine ⟨h5, hw, fun c hc hk => ?_⟩
  rw [v5, v4, v3, v2, update_of_ne hc, v1 c hk]

/-- The block writes of `write_log` from index `tail` on, for contents `v`. -/
def logWrites (start tail : Nat) (v : Nat → Block) : List Nat → List (Nat × Block)
  | [] => []
  | b :: bs => (start + tail + 1, v b) :: logWrites start (tail + 1) v bs

theorem logWrites_congr
    (h : ∀ b ∈ bs, v b = w b) : logWrites start tail v bs = logWrites start tail w bs := by
  induction bs generalizing tail with
  | nil => rfl
  | cons b bs ih =>
    rw [logWrites, logWrites, h b List.mem_cons_self, ih fun c hc => h c (List.mem_cons_of_mem b hc)]

def logRange (start tail n : Nat) : Set Nat := {c | start + tail + 1 ≤ c ∧ c < start + tail + 1 + n}

theorem mem_logRange {start tail n c : Nat} :
    c ∈ logRange start tail n ↔ start + tail + 1 ≤ c ∧ c < start + tail + 1 + n := Iff.rfl

theorem mem_logRange_succ {start tail n c : Nat} : c ∈ logRange start tail (n + 1) ↔
    c = start + tail + 1 ∨ c ∈ logRange start (tail + 1) n := by
  rw [mem_logRange, mem_logRange]
  omega

theorem writeLogFrom_spec (bs : List Nat) (tail : Nat) (h : CacheInv k dirty pins [])
    (hdev : k.log.dev = ROOTDEV) (hroom : pins.length < NBUF) (hbs : ∀ b ∈ bs, b ∈ pins)
    (hhome : ∀ b ∈ pins, b ∉ logRange k.log.start tail bs.length) : wp (writeLogFrom tail bs)
      (fun _ k' => CacheInv k' (dirty \ logRange k.log.start tail bs.length) pins [] ∧
        Wrote k k' (logWrites k.log.start tail k.view bs) ∧
        ∀ c, c ∉ logRange k.log.start tail bs.length → c ∉ dirty ∨ c ∈ pins →
          k'.view c = k.view c)
      (fun _ _ => False) k := by
  induction bs generalizing k dirty tail with
  | nil =>
    rw [writeLogFrom, wp_pure]
    refine ⟨h.dirty_mono fun c hc => ⟨hc, fun hr => ?_⟩, (Quiet.refl k).wrote, fun _ _ _ => rfl⟩
    rw [mem_logRange, List.length_nil] at hr
    omega
  | cons b bs ih =>
    have hto : k.log.start + tail + 1 ∈ logRange k.log.start tail (b :: bs).length :=
      mem_logRange_succ.mpr (Or.inl rfl)
    have hfar : ∀ c ∈ pins, c ≠ k.log.start + tail + 1 := fun c hc he => hhome c hc (he ▸ hto)
    rw [writeLogFrom]
    have hbp := hbs b List.mem_cons_self
    refine wp_seq (writeLogBlock_spec h hdev hbp) ?_
      (fun _ _ he => he.elim (Nat.not_le.mpr hroom) (hfar b hbp))
    rintro _ k1 ⟨h1, w1, v1⟩
    refine wp_mono (ih (tail + 1) h1 (by rw [w1.log, hdev])
      (fun c hc => hbs c (List.mem_cons_of_mem b hc)) ?_) ?_ (fun _ _ hf => hf)
    · rw [w1.log]
      exact fun c hc hr => hhome c hc (mem_logRange_succ.mpr (Or.inr hr))
    · rintro _ k2 ⟨h2, w2, v2⟩
      rw [w1.log] at h2 w2 v2
      rw [logWrites_congr fun c hc => v1 c (hfar c (hbs c (List.mem_cons_of_mem b hc)))
        (Or.inr (hbs c (List.mem_cons_of_mem b hc)))] at w2
      refine ⟨h2.dirty_mono ?_, w1.trans w2, ?_⟩
      · rintro c ⟨⟨hc, hne⟩, hr⟩
        exact ⟨hc, fun hm => (mem_logRange_succ.mp hm).elim hne hr⟩
      · intro c hr hk
        rw [v2 c (fun hm => hr (mem_logRange_succ.mpr (Or.inr hm)))
          (hk.imp_left fun hc hm => hc hm.1)]
        exact v1 c (fun he => hr (mem_logRange_succ.mpr (Or.inl he))) hk

/-! ## `install_trans` -/

def pinsLeft (recovering : Bool) (bs : List Nat) : List Nat := if recovering then [] else bs

theorem unpin_spec {b j : Nat} {held : List (Nat × Nat)}
    (h : CacheInv k dirty (pinsLeft recovering (b :: bs)) held) (hm : (j, b) ∈ held)
    (hcoh : k.view b = k.disk b) : wp (when (!recovering) (bunpin j))
      (fun _ k' => CacheInv k' dirty (pinsLeft recovering bs) held ∧ Quiet k k' ∧ k'.view = k.view)
      (fun _ _ => False) k := by
  cases recovering with
  | true => exact (wp_when _ _ _ _ _).mpr ⟨by simp, fun _ => ⟨h, Quiet.refl k, rfl⟩⟩
  | false =>
    change CacheInv k dirty (b :: bs) held at h
    obtain ⟨hnb, hnd⟩ := List.nodup_cons.mp h.pins_nodup
    obtain ⟨hj, hd, hb, -, hl⟩ := h.held_buf _ hm
    simp only at hj hd hb hl
    have hr := h.refcnt j hj hd
    rw [if_pos hl, hb, if_pos List.mem_cons_self] at hr
    have hsame : ∀ c, c ≠ b → (c ∈ bs ↔ c ∈ b :: bs) := by
      intro c hc
      simp [hc]
    obtain ⟨h', hv⟩ := h.setRefcnt hm (n := (k.buf j).refcnt - 1) hnd hsame
      (by rw [hr, if_neg hnb]) (fun c _ hc => hc) (fun _ _ => hcoh)
    exact (wp_when _ _ _ _ _).mpr ⟨fun _ => ⟨h', quiet_setBuf _ _ _, hv⟩, by simp⟩

theorem installBlock_spec {tail b : Nat}
    (h : CacheInv k dirty (pinsLeft recovering (b :: bs)) []) (hdev : k.log.dev = ROOTDEV)
    (hclean : k.log.start + tail + 1 ∉ dirty) : wp (installBlock recovering tail b)
      (fun _ k' => CacheInv k' (dirty \ {b}) (pinsLeft recovering bs) [] ∧
        Wrote k k' [(b, k.view (k.log.start + tail + 1))] ∧
        ∀ c, c ≠ b → c ∉ dirty → k'.view c = k.view c)
      (fun _ _ => NBUF ≤ (pinsLeft recovering (b :: bs)).length ∨ b = k.log.start + tail + 1) k := by
  have hb : b ∈ pinsLeft recovering (b :: bs) ∨ (pinsLeft recovering (b :: bs)).length + 1 < NBUF := by
    cases recovering
    · exact Or.inl List.mem_cons_self
    · exact Or.inr (by simp [pinsLeft, NBUF, MAXOPBLOCKS])
  rw [installBlock, wp_bind, wp_get, hdev]
  apply wp_breadPair h hb (fun _ _ he => he)
  intro i j k1 hne h1 q1 v1
  have hmi : (i, k.log.start + tail + 1) ∈ [(j, b), (i, k.log.start + tail + 1)] := by simp
  rw [wp_bind, bufData_spec h1 hmi, v1 _ (Or.inl hclean)]
  refine wp_sure (setBufData_spec h1 List.mem_cons_self _) ?_
  rintro _ k2 ⟨h2, q2, v2⟩
  refine wp_sure (bwrite_spec h2 List.mem_cons_self) ?_
  rintro _ k3 ⟨h3, hk3, v3⟩
  have hw : Wrote k k3 [(b, k.view (k.log.start + tail + 1))] := by
    have hw := (q1.trans q2).wrote.trans (wrote_diskWrite k2 b (k2.view b))
    simpa [hk3, v2] using hw
  have hcoh : k3.view b = k3.disk b := by
    rw [v3, hk3, diskWrite_disk, update_self]
  rw [Set.insert_sdiff_of_mem _ (Set.mem_singleton _)] at h3
  refine wp_sure (unpin_spec h3 List.mem_cons_self hcoh) ?_
  rintro _ k4 ⟨h4, q4, v4⟩
  refine wp_sure (brelse_spec h4 hmi) ?_
  rintro _ k5 ⟨h5, q5, v5⟩
  rw [List.erase_cons_tail (by simp [hne]), List.erase_cons_head] at h5
  refine wp_sure_post (brelse_spec h5 List.mem_cons_self) ?_
  rintro _ k6 ⟨h6, q6, v6⟩
  rw [List.erase_cons_head] at h6
  refine ⟨h6, by simpa using hw.trans ((q4.trans q5).trans q6).wrote, fun c hc hk => ?_⟩
  rw [v6, v5, v4, v3, v2, update_of_ne hc, v1 c (Or.inl hk)]

/-- The block writes of `install_trans` from index `tail` on, when log block `c` holds `v c`. -/
def homeWrites (start tail : Nat) (v : Nat → Block) : List Nat → List (Nat × Block)
  | [] => []
  | b :: bs => (b, v (start + tail + 1)) :: homeWrites start (tail + 1) v bs

theorem homeWrites_congr (h : ∀ c ∈ logRange start tail bs.length, v c = w c) :
    homeWrites start tail v bs = homeWrites start tail w bs := by
  induction bs generalizing tail with
  | nil => rfl
  | cons b bs ih =>
    rw [homeWrites, homeWrites, h _ (mem_logRange_succ.mpr (Or.inl rfl)),
      ih fun c hc => h c (mem_logRange_succ.mpr (Or.inr hc))]

theorem installFrom_spec (bs : List Nat) (tail : Nat)
    (h : CacheInv k dirty (pinsLeft recovering bs) []) (hdev : k.log.dev = ROOTDEV)
    (hroom : bs.length < NBUF) (hhome : ∀ b ∈ bs, b ∉ logRange k.log.start tail bs.length)
    (hclean : ∀ c ∈ logRange k.log.start tail bs.length, c ∉ dirty) :
    wp (installFrom recovering tail bs)
      (fun _ k' => CacheInv k' dirty [] [] ∧
        Wrote k k' (homeWrites k.log.start tail k.view bs))
      (fun _ _ => False) k := by
  induction bs generalizing k dirty tail with
  | nil =>
    rw [installFrom, wp_pure]
    have hp : pinsLeft recovering [] = [] := by cases recovering <;> rfl
    rw [hp] at h
    exact ⟨h, (Quiet.refl k).wrote⟩
  | cons b bs ih =>
    have hto : k.log.start + tail + 1 ∈ logRange k.log.start tail (b :: bs).length :=
      mem_logRange_succ.mpr (Or.inl rfl)
    rw [installFrom]
    refine wp_seq (installBlock_spec h hdev (hclean _ hto)) ?_
      (fun _ _ he => he.elim (fun hp => ?_) fun he => hhome b List.mem_cons_self (he ▸ hto))
    swap
    · cases recovering
      · exact absurd hp (Nat.not_le.mpr hroom)
      · simp [pinsLeft, NBUF, MAXOPBLOCKS] at hp
    rintro _ k1 ⟨h1, w1, v1⟩
    have hrest : ∀ c ∈ logRange k.log.start (tail + 1) bs.length,
        c ∈ logRange k.log.start tail (b :: bs).length :=
      fun c hc => mem_logRange_succ.mpr (Or.inr hc)
    refine wp_mono (ih (tail + 1) (h1.dirty_mono Set.sdiff_subset) (by rw [w1.log, hdev])
      (by simp only [List.length_cons] at hroom; omega) ?_ ?_) ?_ (fun _ _ hf => hf)
    · rw [w1.log]
      exact fun c hc hr => hhome c (List.mem_cons_of_mem b hc) (hrest c hr)
    · rw [w1.log]
      exact fun c hc => hclean c (hrest c hc)
    · rintro _ k2 ⟨h2, w2⟩
      rw [w1.log] at w2
      have hv : homeWrites k.log.start (tail + 1) k1.view bs =
          homeWrites k.log.start (tail + 1) k.view bs :=
        homeWrites_congr fun c hc => v1 c
          (fun he => hhome b List.mem_cons_self (he ▸ hrest c hc)) (hclean c (hrest c hc))
      rw [hv] at w2
      exact ⟨h2, w1.trans w2⟩

/-! ## What the write lists leave on the disk -/

theorem logWrites_addr {v : Nat → Block} {w : Nat × Block}
    (h : w ∈ logWrites start tail v bs) : w.1 ∈ logRange start tail bs.length := by
  induction bs generalizing tail with
  | nil => simp [logWrites] at h
  | cons b bs ih =>
    rcases List.mem_cons.mp h with rfl | h
    · exact mem_logRange_succ.mpr (Or.inl rfl)
    · exact mem_logRange_succ.mpr (Or.inr (ih h))

@[simp] theorem logWrites_length (start tail : Nat) (v : Nat → Block) (bs : List Nat) :
    (logWrites start tail v bs).length = bs.length := by
  induction bs generalizing tail with
  | nil => rfl
  | cons b bs ih => simp [logWrites, ih]

theorem applyWrites_logWrites {v : Nat → Block} {d : Nat → Block} {j : Nat} (hj : j < bs.length) :
    applyWrites (logWrites start tail v bs) d (start + tail + 1 + j) = v bs[j] := by
  induction bs generalizing tail d j with
  | nil => simp at hj
  | cons b bs ih =>
    rw [logWrites, applyWrites_cons]
    cases j with
    | zero =>
      rw [applyWrites_of_not_mem]
      · simp
      · intro w hw he
        have hr := logWrites_addr hw
        rw [mem_logRange] at hr
        omega
    | succ j =>
      have hadd : start + tail + 1 + (j + 1) = start + (tail + 1) + 1 + j := by omega
      rw [hadd, ih (by simpa using hj)]
      rfl

theorem homeWrites_eq_map (h : ∀ j (hj : j < bs.length), v (start + tail + 1 + j) = w bs[j]) :
    homeWrites start tail v bs = bs.map fun b => (b, w b) := by
  induction bs generalizing tail with
  | nil => rfl
  | cons b bs ih =>
    have h0 := h 0 (by simp)
    rw [homeWrites, List.map_cons, ih]
    · simpa using h0
    · intro j hj
      have hj' := h (j + 1) (by simpa using hj)
      have hadd : start + tail + 1 + (j + 1) = start + (tail + 1) + 1 + j := by omega
      rw [hadd] at hj'
      exact hj'

/-! ## `commit` -/

/-- The block writes of a commit of the blocks `lh` with contents `v`; `d` and `d'` are what the
header's buffer held before each of the two header writes. -/
def commitWrites (start : Nat) (v : Nat → Block) (lh : List Nat) (d d' : Block) :
    List (Nat × Block) :=
  logWrites start 0 v lh ++ [(start, putHead d lh)] ++ (lh.map fun b => (b, v b)) ++
    [(start, putHead d' [])]

/-- A block of the log: the header or one of the `size - 1` log blocks. -/
def Log.inArea (l : Log) (b : Nat) : Prop := l.start ≤ b ∧ b < l.start + l.size

instance (l : Log) (b : Nat) : Decidable (l.inArea b) :=
  inferInstanceAs (Decidable (_ ∧ _))

theorem setLh_spec (lh : List Nat) (Q : Unit → Kernel → Prop) (E : Panic → Kernel → Prop) :
    wp (setLh lh) Q E k ↔ Q () { k with log := { k.log with lh := lh } } := Iff.rfl

/-- `k'` is `k` with an empty in-memory header, after the block writes `ws`. -/
structure Committed (k k' : Kernel) (ws : List (Nat × Block)) : Prop where
  sb : k'.sb = k.sb
  inode : k'.inode = k.inode
  log : k'.log = { k.log with lh := [] }
  disk : k'.disk = applyWrites ws k.disk
  writes : k'.writes = k.writes ++ ws

theorem Wrote.clear {k' k'' : Kernel} {ws vs : List (Nat × Block)} (h : Wrote k k' ws)
    (h' : Wrote { k' with log := { k'.log with lh := [] } } k'' vs) : Committed k k'' (ws ++ vs) :=
  ⟨h'.sb.trans h.sb, h'.inode.trans h.inode, by rw [h'.log, h.log],
    by rw [h'.disk, applyWrites_append, ← h.disk], by rw [h'.writes, ← List.append_assoc, ← h.writes]⟩

theorem commit_spec (h : CacheInv k dirty k.log.lh []) (hdev : k.log.dev = ROOTDEV)
    (hpos : 0 < k.log.lh.length) (hroom : k.log.lh.length < NBUF)
    (hsize : k.log.lh.length < k.log.size) (hhome : ∀ b ∈ k.log.lh, ¬ k.log.inArea b) : wp commit
      (fun _ k' => ∃ d d', CacheInv k' dirty [] [] ∧
        Committed k k' (commitWrites k.log.start k.view k.log.lh d d'))
      (fun _ _ => False) k := by
  have hrange : ∀ b ∈ k.log.lh, b ∉ logRange k.log.start 0 k.log.lh.length := by
    intro b hb hr
    rw [mem_logRange] at hr
    exact hhome b hb ⟨by omega, by omega⟩
  rw [commit, wp_bind, wp_get, if_pos hpos, writeLog, wp_bind, wp_bind, wp_get]
  refine wp_mono (writeLogFrom_spec k.log.lh 0 h hdev hroom (fun b hb => hb) hrange) ?_
    (fun _ _ hf => hf)
  rintro _ k1 ⟨h1, w1, v1⟩
  have hlog1 := w1.log
  refine wp_seq (writeHead_spec h1 (by rw [hlog1, hdev])) ?_
    (fun _ _ hp => absurd hp (Nat.not_le.mpr hroom))
  rintro _ k2 ⟨d, h2, w2, v2⟩
  rw [hlog1] at h2 w2 v2
  have hlog2 : k2.log = k.log := w2.log.trans hlog1
  -- the log blocks were written through, so their views are the disk's
  have hlogv : ∀ j (hj : j < k.log.lh.length), k2.view (k.log.start + 0 + 1 + j) = k.view k.log.lh[j] := by
    intro j hj
    have hr : k.log.start + 0 + 1 + j ∈ logRange k.log.start 0 k.log.lh.length :=
      ⟨by omega, by omega⟩
    rw [v2 _ (by omega) (Or.inl fun hm => hm.2 hr),
      h1.view_eq_disk (fun hp => hrange _ hp hr) (fun hm => hm.2 hr), w1.disk,
      applyWrites_logWrites hj]
  rw [installTrans, wp_bind, wp_bind, wp_get, hlog2]
  change CacheInv k2 _ (pinsLeft false k.log.lh) [] at h2
  refine wp_mono (installFrom_spec k.log.lh 0 h2 (by rw [hlog2, hdev]) hroom
    (by rw [hlog2]; exact hrange) ?_) ?_ (fun _ _ hf => hf)
  · rw [hlog2]
    exact fun c hc hm => hm.1.2 hc
  rintro _ k3 ⟨h3, w3⟩
  rw [hlog2, homeWrites_eq_map hlogv] at w3
  have hlog3 : k3.log = k.log := w3.log.trans hlog2
  rw [wp_bind, setLh_spec]
  refine wp_mono (writeHead_spec (h3.setLog _) (by simp only [hlog3, hdev])) ?_
    (fun _ _ hp => absurd hp (by simp [NBUF, MAXOPBLOCKS]))
  rintro _ k4 ⟨d', h4, w4, -⟩
  rw [hlog3] at h4 w4
  refine ⟨d, d', h4.dirty_mono fun c hc => hc.1.1.1, ?_⟩
  exact ((w1.trans w2).trans w3).clear (by rw [hlog3]; exact w4)

/-- With every buffer pinned the first `bread` of a commit already stops the machine. -/
theorem commit_dry (h : CacheInv k dirty k.log.lh []) (hdev : k.log.dev = ROOTDEV)
    (hfull : NBUF ≤ k.log.lh.length) (hfar : k.log.start + 1 ∉ k.log.lh) :
    wp commit (fun _ _ => False) (fun e k' => e = .bgetNoBuffers ∧ Quiet k k') k := by
  have hpos : 0 < k.log.lh.length := Nat.lt_of_lt_of_le (by decide) hfull
  have hdry := h.bread_full hfull hfar
  rw [commit, wp_bind, wp_get, if_pos hpos, writeLog, wp_bind, wp_bind, wp_get]
  cases hlh : k.log.lh with
  | nil => simp [hlh] at hpos
  | cons b bs =>
    rw [writeLogFrom, wp_bind, writeLogBlock, wp_bind, wp_get, hdev, wp_bind, Nat.add_zero]
    rw [wp_of_error hdry]
    exact ⟨rfl, Quiet.refl k⟩

end

end Xv6.Disk
