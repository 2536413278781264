import Mathlib.Algebra.BigOperators.Ring.Finset
import Xv6.GroupCommit.Isolation

/-!
# What `begin_op` reserves

`begin_op` lets three operations of `MAXOPBLOCKS` blocks into the `LOGSIZE` entries of the
header, but the on-disk log of `nlog = LOGSIZE` blocks has one block less for data, and
`log_write` makes its capacity test before it looks for an earlier entry of the same block.
-/

namespace Xv6.GroupCommit

open Xv6.Foundation Xv6.Disk

set_option autoImplicit false

variable {P : Type} [DecidableEq P]

/-- The blocks that `p` has logged since its last `begin_op`, each once. -/
def opBlocks (p : P) : List (Event P) → List Nat
  | [] => []
  | .began q :: t => if q = p then [] else opBlocks p t
  | .logWrite q b :: t => if q = p then addBlock (opBlocks p t) b else opBlocks p t
  | .ended _ :: t => opBlocks p t
  | .committed _ _ :: t => opBlocks p t

/-- Every operation of the history logs at most `m` distinct blocks. -/
def OpsWithin (m : Nat) : List (Event P) → Prop
  | [] => True
  | .logWrite p b :: t => (addBlock (opBlocks p t) b).length ≤ m ∧ OpsWithin m t
  | .began _ :: t => OpsWithin m t
  | .ended _ :: t => OpsWithin m t
  | .committed _ _ :: t => OpsWithin m t

instance decidableOpsWithin (m : Nat) : (t : List (Event P)) → Decidable (OpsWithin m t)
  | [] => isTrue trivial
  | .logWrite p b :: t =>
    have := decidableOpsWithin m t
    inferInstanceAs (Decidable ((addBlock (opBlocks p t) b).length ≤ m ∧ OpsWithin m t))
  | .began _ :: t => decidableOpsWithin m t
  | .ended _ :: t => decidableOpsWithin m t
  | .committed _ _ :: t => decidableOpsWithin m t

/-- Every `log_write` of the history is called while the operations of the transaction have logged
fewer than `m` distinct blocks. -/
def TxnWithin (m : Nat) : List (Event P) → Prop
  | [] => True
  | .logWrite _ _ :: t => (txnBlocks t).length < m ∧ TxnWithin m t
  | .began _ :: t => TxnWithin m t
  | .ended _ :: t => TxnWithin m t
  | .committed _ _ :: t => TxnWithin m t

variable [Fintype P]

/-! ## The exact condition -/

section Exact
variable {l : Log} {t : List (Event P)} {s : Sys P}

omit [Fintype P] in
theorem Step.size {s' : Sys P} {e : Option (Event P)} (h : Step s e s') :
    s'.log.size = s.log.size := by
  obtain ⟨-, ht⟩ := h.trans
  cases ht <;> rfl

omit [Fintype P] in
theorem Reaches.size (h : Reaches l t s) : s.log.size = l.size :=
  Run.invariant (I := fun _ s => s.log.size = l.size) rfl
    (fun _ _ _ _ hi hs => hs.size.trans hi) (fun _ _ _ _ _ hi hs => hs.size.trans hi) h

/-- A live system has only made calls with room; one that is stopped made a last call without. -/
theorem Reaches.txnWithin (hsize : l.size = LOGSIZE) (h : Reaches l t s) :
    (s.panicked = none → TxnWithin (LOGSIZE - 1) t) ∧
      (s.panicked = some .tooBigTransaction → ¬ TxnWithin (LOGSIZE - 1) t) := by
  refine Run.invariant (I := fun t s => (s.panicked = none → TxnWithin (LOGSIZE - 1) t) ∧
    (s.panicked = some .tooBigTransaction → ¬ TxnWithin (LOGSIZE - 1) t))
    ⟨fun _ => trivial, by simp [boot]⟩ ?_ ?_ h
  · intro t s s' hr hi hs
    obtain ⟨hlive, ht⟩ := hs.trans
    cases ht <;> exact hi
  · intro t s s' e hr hi hs
    have hinv := Reaches.inv hr
    have hsz := (Reaches.size hr).trans hsize
    obtain ⟨hlive, ht⟩ := hs.trans
    have hblocks := hinv.blocks hlive
    cases ht with
    | logWrite hp _ hroom _ =>
      refine ⟨fun _ => ⟨?_, hi.1 hlive⟩, fun hp => ?_⟩
      · rw [← hblocks, ← hsz]
        exact hroom
      · rw [hlive] at hp
        cases hp
    | tooBig hp hbig =>
      refine ⟨by simp, fun _ hw => ?_⟩
      have hroom := hw.1
      rw [← hblocks] at hroom
      rw [hsz] at hbig
      omega
    | outside hp ho => exact absurd (hinv.outstanding_pos hp) (by omega)
    | endOpPanic hp hc => exact absurd (hinv.committing_false hp) (by simp [hc])
    | beginOp => exact hi
    | endOpLast => exact hi
    | endOp => exact hi
    | commit => exact hi

end Exact

/-! ## Operations of at most `MAXOPBLOCKS - 1` blocks -/

/-- What `p` may still log. -/
def reserve (t : List (Event P)) (s : Sys P) (p : P) : Nat :=
  if s.pc p = .inOp then MAXOPBLOCKS - 1 - (opBlocks p t).length else 0

structure Reserved (t : List (Event P)) (s : Sys P) : Prop where
  sub : ∀ p, s.pc p = .inOp → ∀ b ∈ opBlocks p t, b ∈ txnBlocks t
  total : (txnBlocks t).length + ∑ p, reserve t s p ≤ LOGSIZE - 2

omit [Fintype P] in
theorem inOp_of_goto {s : Sys P} {p q : P} {c : PC} (hc : c ≠ .inOp)
    (h : (s.goto p c).pc q = .inOp) : s.pc q = .inOp := by
  rw [goto_pc] at h
  split at h
  · exact absurd h hc
  · exact h

namespace Reserved
variable {t : List (Event P)} {s s' : Sys P} {p : P}

theorem mono {t' : List (Event P)} (h : Reserved t s)
    (hpc : ∀ q, s'.pc q = .inOp → s.pc q = .inOp) (hop : ∀ q, opBlocks q t' = opBlocks q t)
    (htxn : txnBlocks t' = txnBlocks t) : Reserved t' s' := by
  have hres : ∀ q, reserve t' s' q ≤ reserve t s q := by
    intro q
    unfold reserve
    by_cases hq : s'.pc q = .inOp
    · rw [if_pos hq, if_pos (hpc q hq), hop]
    · rw [if_neg hq]
      exact Nat.zero_le _
  refine ⟨fun q hq => ?_, ?_⟩
  · rw [hop, htxn]
    exact h.sub q (hpc q hq)
  · rw [htxn]
    have hsum : ∑ q, reserve t' s' q ≤ ∑ q, reserve t s q :=
      Finset.sum_le_sum fun q _ => hres q
    have htotal := h.total
    omega

omit [Fintype P] in
theorem reserve_le (t : List (Event P)) (s : Sys P) (q : P) :
    reserve t s q ≤ (MAXOPBLOCKS - 1) * (s.pc q).active := by
  unfold reserve PC.active
  split
  · omega
  · exact Nat.zero_le _

theorem beginOp (h : Reserved t s) (hi : Inv t s) (hlive : s.panicked = none)
    (hp : s.pc p = .begins) (hc : s.log.committing = false)
    (hl : s.log.lh.length + (s.log.outstanding + 1) * MAXOPBLOCKS ≤ LOGSIZE) :
    Reserved (.began p :: t)
      ({ s with log := { s.log with outstanding := s.log.outstanding + 1 } }.goto p .inOp) := by
  have hi' := hi.beginOp hp hc
  refine ⟨fun q hq b hb => ?_, ?_⟩
  · rw [goto_pc] at hq
    rw [opBlocks] at hb
    by_cases hqp : q = p
    · simp [hqp] at hb
    · rw [if_neg (Ne.symm hqp)] at hb
      rw [if_neg hqp] at hq
      exact h.sub q hq b hb
  · have hsum := Finset.sum_le_sum fun q (_ : q ∈ Finset.univ) => reserve_le (.began p :: t)
      ({ s with log := { s.log with outstanding := s.log.outstanding + 1 } }.goto p .inOp) q
    rw [← Finset.mul_sum, ← hi'.outstanding] at hsum
    have hblocks := hi.blocks hlive
    have hfirst : s.log.outstanding = 0 → s.log.lh.length = 0 := fun ho => by simp [hi.idle ho hc]
    simp only [goto_log, LOGSIZE, MAXOPBLOCKS] at hsum hl ⊢
    rw [txnBlocks, ← hblocks]
    omega

theorem logWrite (h : Reserved t s) (hp : s.pc p = .inOp) {b : Nat}
    (hm : (addBlock (opBlocks p t) b).length ≤ MAXOPBLOCKS - 1) :
    Reserved (.logWrite p b :: t) { s with log := { s.log with lh := addBlock s.log.lh b } } := by
  have hoff : ∀ q, q ≠ p → reserve (.logWrite p b :: t)
      { s with log := { s.log with lh := addBlock s.log.lh b } } q = reserve t s q := by
    intro q hq
    simp only [reserve, opBlocks, if_neg (Ne.symm hq)]
  refine ⟨fun q hq c hcq => ?_, ?_⟩
  · rw [opBlocks] at hcq
    rw [txnBlocks, mem_addBlock]
    by_cases hqp : p = q
    · rw [if_pos hqp, mem_addBlock] at hcq
      exact hcq.imp_left (h.sub q hq c)
    · rw [if_neg hqp] at hcq
      exact Or.inl (h.sub q hq c hcq)
  · have hsum := sum_add_eq_of_off_mem (Finset.mem_univ p) fun q _ => hoff q
    have htotal := h.total
    have hstep : (addBlock (txnBlocks t) b).length + reserve (.logWrite p b :: t)
        { s with log := { s.log with lh := addBlock s.log.lh b } } p ≤
        (txnBlocks t).length + reserve t s p := by
      simp only [reserve, hp, if_true, opBlocks]
      by_cases hb : b ∈ opBlocks p t
      · simp [addBlock, hb, h.sub p hp b hb]
      · have hle := length_addBlock_le (txnBlocks t) b
        simp only [addBlock, if_neg hb, List.length_append, List.length_singleton] at hm hle ⊢
        omega
    rw [txnBlocks]
    omega

theorem commit (hi : Inv t s) (hp : s.pc p = .committing) : Reserved (.committed p s.log.lh :: t)
      ({ s with log := { s.log with lh := [] } }.goto p .committed) := by
  have hidle : ∀ q, s.pc q ≠ .inOp := fun q hq => by
    have hpos := hi.outstanding_pos hq
    have hzero := (hi.commit p (Or.inl hp)).2
    omega
  have hnone : ∀ q, ({ s with log := { s.log with lh := [] } }.goto p .committed).pc q ≠ .inOp :=
    fun q hq => hidle q (inOp_of_goto (by simp) hq)
  refine ⟨fun q hq => absurd hq (hnone q), ?_⟩
  have hzero : ∀ q, reserve (.committed p s.log.lh :: t)
      ({ s with log := { s.log with lh := [] } }.goto p .committed) q = 0 :=
    fun q => if_neg (hnone q)
  simp [txnBlocks, hzero]

end Reserved

/-- Operations of at most `MAXOPBLOCKS - 1` distinct blocks never fill the log. -/
theorem Reaches.reserved {l : Log} {t : List (Event P)} {s : Sys P} (hsize : l.size = LOGSIZE)
    (h : Reaches l t s) : OpsWithin (MAXOPBLOCKS - 1) t → s.panicked = none ∧ Reserved t s := by
  refine Run.invariant
    (I := fun t s => OpsWithin (MAXOPBLOCKS - 1) t → s.panicked = none ∧ Reserved t s) ?_ ?_ ?_ h
  · intro _
    exact ⟨rfl, fun q hq => (by cases hq), by simp [reserve, boot, txnBlocks]⟩
  · intro t s s' hr hi hs hw
    obtain ⟨hlive, hres⟩ := hi hw
    obtain ⟨-, ht⟩ := hs.trans
    cases ht with
    | finish hp =>
      refine ⟨hlive, hres.mono (fun q hq => ?_) (fun _ => rfl) rfl⟩
      exact (wakeup_eq_iff (by simp) (by simp)).mp (inOp_of_goto (by simp) hq)
    | callBeginOp _ =>
      exact ⟨hlive, hres.mono (fun _ => inOp_of_goto (by simp)) (fun _ => rfl) rfl⟩
    | sleep _ _ =>
      exact ⟨hlive, hres.mono (fun _ => inOp_of_goto (by simp)) (fun _ => rfl) rfl⟩
    | kill _ =>
      exact ⟨hlive, hres.mono (fun _ => inOp_of_goto (by simp)) (fun _ => rfl) rfl⟩
  · intro t s s' e hr hi hs hw
    have hinv := Reaches.inv hr
    have hsz := (Reaches.size hr).trans hsize
    obtain ⟨-, ht⟩ := hs.trans
    cases ht with
    | beginOp hp hc hl =>
      obtain ⟨hlive, hres⟩ := hi hw
      exact ⟨hlive, hres.beginOp hinv hlive hp hc hl⟩
    | logWrite hp _ _ _ =>
      obtain ⟨hlive, hres⟩ := hi hw.2
      exact ⟨hlive, hres.logWrite hp hw.1⟩
    | tooBig hp hbig =>
      obtain ⟨hlive, hres⟩ := hi hw.2
      have htotal := hres.total
      rw [← hinv.blocks hlive] at htotal
      rw [hsz] at hbig
      simp only [LOGSIZE, MAXOPBLOCKS] at htotal hbig
      omega
    | outside hp ho => exact absurd (hinv.outstanding_pos hp) (by omega)
    | endOpPanic hp hc => exact absurd (hinv.committing_false hp) (by simp [hc])
    | endOpLast hp hc ho =>
      obtain ⟨hlive, hres⟩ := hi hw
      exact ⟨hlive, hres.mono (fun _ => inOp_of_goto (by simp)) (fun _ => rfl) rfl⟩
    | endOp hp hc ho =>
      obtain ⟨hlive, hres⟩ := hi hw
      refine ⟨hlive, hres.mono (fun q hq => ?_) (fun _ => rfl) rfl⟩
      exact (wakeup_eq_iff (by simp) (by simp)).mp (inOp_of_goto (by simp) hq)
    | commit hp =>
      obtain ⟨hlive, hres⟩ := hi hw
      exact ⟨hlive, Reserved.commit hinv hp⟩

/-! ## When `log_write` has room -/

/-- Three operations run together, each logging ten blocks of its own. -/
def threeFullOps : List (Act (Fin 3)) :=
  [.callBeginOp 0, .beginOp 0, .callBeginOp 1, .beginOp 1, .callBeginOp 2, .beginOp 2] ++
    (List.range 10).map (fun i => .logWrite 0 (46 + i)) ++
    (List.range 10).map (fun i => .logWrite 1 (56 + i)) ++
    (List.range 10).map (fun i => .logWrite 2 (66 + i))

/-- The three operations were admitted within their reservations, and the thirtieth block of the
transaction does not fit. -/
theorem log_write_too_big_of_reserved :
    ∃ (t : List (Event (Fin 3))) (s : Sys (Fin 3)), Reaches mkfsLog t s ∧
      mkfsLog.size = LOGSIZE ∧ OpsWithin MAXOPBLOCKS t ∧
      s.panicked = some .tooBigTransaction := by
  obtain ⟨t, s, hs, hw, hp⟩ : ∃ (t : List (Event (Fin 3))) (s : Sys (Fin 3)),
      runActs [] (boot mkfsLog) threeFullOps = some (t, s) ∧ OpsWithin MAXOPBLOCKS t ∧
        s.panicked = some .tooBigTransaction := ⟨_, _, rfl, by decide, rfl⟩
  exact ⟨t, s, Reaches.runActs Run.refl hs, rfl, hw, hp⟩

/-- A run meets `panic("too big a transaction")` exactly if it calls `log_write` when the
operations of the transaction have logged `LOGSIZE - 1` distinct blocks. Operations that log one
block less than `begin_op` reserves for them never do. -/
theorem log_write_never_too_big_iff (l : Log) (hsize : l.size = LOGSIZE) (t : List (Event P))
    (s : Sys P) (h : Reaches l t s) :
    (s.panicked ≠ some .tooBigTransaction ↔ TxnWithin (LOGSIZE - 1) t) ∧
      (OpsWithin (MAXOPBLOCKS - 1) t → s.panicked ≠ some .tooBigTransaction) := by
  have hexact := h.txnWithin hsize
  refine ⟨⟨fun hp => ?_, fun hw hp => hexact.2 hp hw⟩, fun hw => ?_⟩
  · exact hexact.1 (h.inv.panicked.resolve_right hp)
  · simp [(h.reserved hsize hw).1]

/-- Two full operations side by side. -/
theorem log_write_never_too_big_two :
    ∃ (t : List (Event (Fin 3))) (s : Sys (Fin 3)), Reaches mkfsLog t s ∧
      t.length = 22 ∧ s.panicked ≠ some .tooBigTransaction := by
  obtain ⟨t, s, hs, hlen, hw⟩ : ∃ (t : List (Event (Fin 3))) (s : Sys (Fin 3)),
      runActs [] (boot mkfsLog) (threeFullOps.take 4 ++ (threeFullOps.drop 6).take 20) =
        some (t, s) ∧ t.length = 22 ∧ TxnWithin (LOGSIZE - 1) t := by
    refine ⟨_, _, rfl, rfl, ?_⟩
    simp only [TxnWithin]
    decide
  have hr := Reaches.runActs Run.refl hs
  exact ⟨t, s, hr, hlen, (log_write_never_too_big_iff mkfsLog rfl t s hr).1.mpr hw⟩

end Xv6.GroupCommit
