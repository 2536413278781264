import Mathlib.Algebra.Order.BigOperators.Group.Finset
import Xv6.Foundation.Counting
import Xv6.GroupCommit.Model

/-!
# Isolation of group commit

`log.outstanding` counts the operations in progress, `log.committing` is set exactly while one
process is on its way through `commit()`, and the two never meet.
-/

namespace Xv6.GroupCommit

open Xv6.Foundation Xv6.Disk

set_option autoImplicit false

variable {P : Type} [DecidableEq P]

/-! ## The history of a run -/

/-- Whether `p` is between `begin_op` and `end_op`. -/
def openOp (p : P) : List (Event P) → Bool
  | [] => false
  | .began q :: t => if q = p then true else openOp p t
  | .ended q :: t => if q = p then false else openOp p t
  | .logWrite _ _ :: t => openOp p t
  | .committed _ _ :: t => openOp p t

/-- The blocks logged since the last commit, each once, in the order of their first `log_write`. -/
def txnBlocks : List (Event P) → List Nat
  | [] => []
  | .logWrite _ b :: t => addBlock (txnBlocks t) b
  | .committed _ _ :: _ => []
  | .began _ :: t => txnBlocks t
  | .ended _ :: t => txnBlocks t

def Event.isCommit : Event P → Bool
  | .committed _ _ => true
  | _ => false

omit [DecidableEq P] in
theorem mem_txnBlocks_of_logWrite {t₁ t₂ : List (Event P)} {p : P} {b : Nat}
    (h : ∀ e ∈ t₂, e.isCommit = false) : b ∈ txnBlocks (t₂ ++ .logWrite p b :: t₁) := by
  induction t₂ with
  | nil => exact mem_addBlock.mpr (Or.inr rfl)
  | cons e t₂ ih =>
    have htail := ih fun e he => h e (List.mem_cons_of_mem _ he)
    cases e with
    | logWrite q c => exact mem_addBlock.mpr (Or.inl htail)
    | committed q bs => simp [Event.isCommit] at h
    | began q => exact htail
    | ended q => exact htail

omit [DecidableEq P] in
theorem exists_logWrite_of_mem_txnBlocks {t : List (Event P)} {b : Nat} (h : b ∈ txnBlocks t) :
    ∃ t₁ t₂ p, t = t₂ ++ .logWrite p b :: t₁ ∧ ∀ e ∈ t₂, e.isCommit = false := by
  have hcons : ∀ (e : Event P) (t : List (Event P)), e.isCommit = false →
      (∃ t₁ t₂ p, t = t₂ ++ .logWrite p b :: t₁ ∧ ∀ e ∈ t₂, e.isCommit = false) →
      ∃ t₁ t₂ p, e :: t = t₂ ++ .logWrite p b :: t₁ ∧ ∀ e ∈ t₂, e.isCommit = false := by
    rintro e t he ⟨t₁, t₂, p, rfl, hn⟩
    exact ⟨t₁, e :: t₂, p, rfl, List.forall_mem_cons.mpr ⟨he, hn⟩⟩
  induction t with
  | nil => cases h
  | cons e t ih =>
    cases e with
    | logWrite q c =>
      rcases mem_addBlock.mp h with hm | rfl
      · exact hcons _ _ rfl (ih hm)
      · exact ⟨t, [], q, rfl, by simp⟩
    | committed q bs => cases h
    | began q => exact hcons _ _ rfl (ih h)
    | ended q => exact hcons _ _ rfl (ih h)

theorem openOp_append {t₁ t₂ : List (Event P)} {p : P} (h : openOp p t₁ = true)
    (hend : .ended p ∉ t₂) : openOp p (t₂ ++ t₁) = true := by
  induction t₂ with
  | nil => exact h
  | cons e t₂ ih =>
    have htail := ih fun hm => hend (List.mem_cons_of_mem _ hm)
    cases e with
    | ended q =>
      have hne : q ≠ p := by
        rintro rfl
        exact hend List.mem_cons_self
      simpa [openOp, hne] using htail
    | began q => simp [openOp, htail]
    | logWrite q c => exact htail
    | committed q bs => exact htail

/-! ## The invariant -/

/-- In `end_op` with `do_commit = 1`. -/
def PC.inCommit (c : PC) : Prop := c = .committing ∨ c = .committed

def PC.active (c : PC) : Nat := if c = .inOp then 1 else 0

@[simp] theorem goto_log (s : Sys P) (p : P) (c : PC) : (s.goto p c).log = s.log := rfl
@[simp] theorem goto_panicked (s : Sys P) (p : P) (c : PC) :
    (s.goto p c).panicked = s.panicked := rfl

theorem goto_pc (s : Sys P) (p q : P) (c : PC) :
    (s.goto p c).pc q = if q = p then c else s.pc q := by
  simp [Sys.goto, Function.update_apply]

omit [DecidableEq P] in
theorem wakeup_eq_iff {pc : P → PC} {q : P} {c : PC} (hs : c ≠ .sleeping) (hb : c ≠ .begins) :
    wakeup pc q = c ↔ pc q = c := by
  unfold wakeup
  split
  · rename_i h
    exact ⟨fun hc => absurd hc.symm hb, fun hc => absurd (hc.symm.trans h) hs⟩
  · exact Iff.rfl

omit [DecidableEq P] in
theorem wakeup_ne_sleeping (pc : P → PC) (q : P) : wakeup pc q ≠ .sleeping := by
  unfold wakeup
  split
  · simp
  · assumption

omit [DecidableEq P] in
theorem active_wakeup (pc : P → PC) (q : P) : (wakeup pc q).active = (pc q).active := by
  have h : wakeup pc q = .inOp ↔ pc q = .inOp := wakeup_eq_iff (by simp) (by simp)
  simp only [PC.active, h]

variable [Fintype P]

structure Inv (t : List (Event P)) (s : Sys P) : Prop where
  outstanding : s.log.outstanding = ∑ p, (s.pc p).active
  commit : ∀ p, (s.pc p).inCommit → s.log.committing = true ∧ s.log.outstanding = 0
  unique : ∀ p q, (s.pc p).inCommit → (s.pc q).inCommit → p = q
  flag : s.log.committing = true → ∃ p, (s.pc p).inCommit
  committed : ∀ p, s.pc p = .committed → s.log.lh = []
  idle : s.log.outstanding = 0 → s.log.committing = false → s.log.lh = []
  waiting : ∀ p, s.pc p = .sleeping → s.log.committing = true ∨
    LOGSIZE < s.log.lh.length + (s.log.outstanding + 1) * MAXOPBLOCKS
  panicked : s.panicked = none ∨ s.panicked = some .tooBigTransaction
  open_iff : ∀ p, s.pc p = .inOp ↔ openOp p t = true
  blocks : s.panicked = none → s.log.lh = txnBlocks t

theorem Inv.boot (l : Log) : Inv [] (boot l : Sys P) where
  outstanding := by simp [GroupCommit.boot, PC.active]
  commit p h := by simp [GroupCommit.boot, PC.inCommit] at h
  unique p q h := by simp [GroupCommit.boot, PC.inCommit] at h
  flag h := by simp [GroupCommit.boot] at h
  committed p h := by simp [GroupCommit.boot] at h
  idle _ _ := rfl
  waiting p h := by simp [GroupCommit.boot] at h
  panicked := Or.inl rfl
  open_iff p := by simp [GroupCommit.boot, openOp]
  blocks _ := rfl

namespace Inv
variable {t : List (Event P)} {s : Sys P} {p : P}

variable (h : Inv t s)
include h

theorem outstanding_pos (hp : s.pc p = .inOp) : 1 ≤ s.log.outstanding := by
  have hle := Finset.single_le_sum (f := fun q => (s.pc q).active) (fun _ _ => Nat.zero_le _)
    (Finset.mem_univ p)
  simp only [hp, PC.active, if_true] at hle
  exact h.outstanding ▸ hle

theorem committing_false (hp : s.pc p = .inOp) : s.log.committing = false := by
  have hpos := h.outstanding_pos hp
  by_contra hc
  obtain ⟨q, hq⟩ := h.flag (by simpa using hc)
  have := (h.commit q hq).2
  omega

theorem not_inCommit (hc : s.log.committing = false) (q : P) : ¬ (s.pc q).inCommit := fun hq => by
  rw [(h.commit q hq).1] at hc
  cases hc

omit h in
theorem active_goto (pc : P → PC) (p : P) (c : PC) :
    ∑ q, (Function.update pc p c q).active + (pc p).active = ∑ q, (pc q).active + c.active :=
  sum_update_add PC.active pc p c

theorem move {c : PC} (hp : s.pc p ≠ .inOp ∧ ¬ (s.pc p).inCommit) (hc : c = .begins ∨ c = .sleeping)
    (hw : c = .sleeping → s.log.committing = true ∨
      LOGSIZE < s.log.lh.length + (s.log.outstanding + 1) * MAXOPBLOCKS) : Inv t (s.goto p c) := by
  have hci : c ≠ .inOp ∧ ¬ c.inCommit := by
    rcases hc with rfl | rfl <;> simp [PC.inCommit]
  have hcom : ∀ q, ((s.goto p c).pc q).inCommit ↔ (s.pc q).inCommit := by
    intro q
    rw [goto_pc]
    split
    · rename_i hq
      simp [hq, hp.2, hci.2]
    · rfl
  constructor
  · have hsum := active_goto s.pc p c
    simp only [PC.active, if_neg hp.1, if_neg hci.1, Nat.add_zero] at hsum
    exact h.outstanding.trans hsum.symm
  · exact fun q hq => h.commit q ((hcom q).mp hq)
  · exact fun q r hq hr => h.unique q r ((hcom q).mp hq) ((hcom r).mp hr)
  · intro hf
    obtain ⟨q, hq⟩ := h.flag hf
    exact ⟨q, (hcom q).mpr hq⟩
  · intro q hq
    have hi := (hcom q).mp (Or.inr hq)
    rw [goto_pc] at hq
    split at hq
    · exact absurd (Or.inr hq) hci.2
    · exact h.committed q hq
  · exact h.idle
  · intro q hq
    rw [goto_pc] at hq
    split at hq
    · exact hw hq
    · exact h.waiting q hq
  · exact h.panicked
  · intro q
    rw [goto_pc, ← h.open_iff]
    split
    · rename_i hq
      simp [hq, hp.1, hci.1]
    · rfl
  · exact h.blocks

theorem beginOp (hp : s.pc p = .begins) (hc : s.log.committing = false) : Inv (.began p :: t)
      ({ s with log := { s.log with outstanding := s.log.outstanding + 1 } }.goto p .inOp) := by
  have hcom : ∀ q, ¬ (({ s with log := { s.log with outstanding := s.log.outstanding + 1 } }.goto
      p .inOp).pc q).inCommit := by
    intro q
    rw [goto_pc]
    split
    · simp [PC.inCommit]
    · exact h.not_inCommit hc q
  constructor
  · have hsum := active_goto s.pc p .inOp
    simp only [PC.active, hp, if_true, reduceCtorEq, if_false, Nat.add_zero] at hsum
    exact (congrArg (· + 1) h.outstanding).trans hsum.symm
  · exact fun q hq => absurd hq (hcom q)
  · exact fun q _ hq => absurd hq (hcom q)
  · intro hf
    rw [goto_log] at hf
    rw [hc] at hf
    cases hf
  · exact fun q hq => absurd (Or.inr hq) (hcom q)
  · exact fun ho => by simp at ho
  · intro q hq
    rw [goto_pc] at hq
    split at hq
    · cases hq
    · rcases h.waiting q hq with hw | hw
      · exact Or.inl hw
      · refine Or.inr (Nat.lt_of_lt_of_le hw ?_)
        exact Nat.add_le_add_left (Nat.mul_le_mul_right _ (Nat.le_succ _)) _
  · exact h.panicked
  · intro q
    rw [goto_pc, openOp]
    by_cases hq : q = p
    · simp [hq]
    · simp [hq, Ne.symm hq, h.open_iff]
  · exact h.blocks

theorem logWrite (hlive : s.panicked = none) (hp : s.pc p = .inOp) (b : Nat) :
    Inv (.logWrite p b :: t) { s with log := { s.log with lh := addBlock s.log.lh b } } := by
  have hpos := h.outstanding_pos hp
  have hcom := h.not_inCommit (h.committing_false hp)
  have hlen : s.log.lh.length ≤ (addBlock s.log.lh b).length := by
    unfold addBlock
    split <;> simp
  refine ⟨h.outstanding, h.commit, h.unique, h.flag, fun q hq => absurd (Or.inr hq) (hcom q), ?_, ?_,
    h.panicked, h.open_iff, ?_⟩
  · intro ho _
    simp only at ho
    omega
  · intro q hq
    rcases h.waiting q hq with hw | hw
    · exact Or.inl hw
    · exact Or.inr (by simp only; omega)
  · intro _
    simp only [txnBlocks, h.blocks hlive]

theorem endOpLast (hp : s.pc p = .inOp) (ho : s.log.outstanding - 1 = 0) : Inv (.ended p :: t)
      ({ s with log :=
        { s.log with outstanding := s.log.outstanding - 1, committing := true } }.goto
          p .committing) := by
  have hpos := h.outstanding_pos hp
  have hcom := h.not_inCommit (h.committing_false hp)
  have hsum := active_goto s.pc p .committing
  simp only [PC.active, hp, if_true, reduceCtorEq, if_false, Nat.add_zero] at hsum
  have honly : ∀ q, (({ s with log :=
      { s.log with outstanding := s.log.outstanding - 1, committing := true } }.goto
        p .committing).pc q).inCommit → q = p := by
    intro q hq
    rw [goto_pc] at hq
    by_contra hne
    rw [if_neg hne] at hq
    exact hcom q hq
  constructor
  · have hout := h.outstanding
    simp only [PC.active] at hout
    simp only [goto_log]
    rw [show s.log.outstanding - 1 = ∑ q, (Function.update s.pc p .committing q).active by
      simp only [PC.active]; omega]
    rfl
  · exact fun q _ => ⟨rfl, ho⟩
  · exact fun q r hq hr => (honly q hq).trans (honly r hr).symm
  · exact fun _ => ⟨p, Or.inl (by rw [goto_pc, if_pos rfl])⟩
  · intro q hq
    have hqp := honly q (Or.inr hq)
    rw [goto_pc, if_pos hqp] at hq
    cases hq
  · exact fun _ hf => by cases hf
  · exact fun _ _ => Or.inl rfl
  · exact h.panicked
  · intro q
    rw [goto_pc, openOp]
    by_cases hq : q = p
    · simp [hq]
    · simp [hq, Ne.symm hq, h.open_iff]
  · exact h.blocks

theorem leave {t' : List (Event P)} {l : Log}
    (hout : l.outstanding + (s.pc p).active = s.log.outstanding)
    (hcom : ∀ q, q ≠ p → ¬ (s.pc q).inCommit) (hflag : l.committing = false)
    (hlh : l.lh = s.log.lh) (hidle : l.outstanding = 0 → l.lh = [])
    (hopen : openOp p t' = false) (hother : ∀ q, q ≠ p → openOp q t' = openOp q t)
    (htxn : txnBlocks t' = txnBlocks t) :
    Inv t' ({ s with log := l, pc := wakeup s.pc }.goto p .out) := by
  have hnone : ∀ q, ¬ (({ s with log := l, pc := wakeup s.pc }.goto p .out).pc q).inCommit := by
    intro q
    rw [goto_pc]
    split
    · simp [PC.inCommit]
    · rename_i hq
      intro hw
      apply hcom q hq
      simpa [PC.inCommit, wakeup_eq_iff] using hw
  constructor
  · have hsum := active_goto (wakeup s.pc) p .out
    simp only [active_wakeup] at hsum
    have hzero : PC.out.active = 0 := rfl
    have hold := h.outstanding
    show l.outstanding = ∑ q, (Function.update (wakeup s.pc) p .out q).active
    omega
  · exact fun q hq => absurd hq (hnone q)
  · exact fun q _ hq => absurd hq (hnone q)
  · intro hf
    rw [goto_log] at hf
    rw [hflag] at hf
    cases hf
  · exact fun q hq => absurd (Or.inr hq) (hnone q)
  · exact fun ho _ => hidle ho
  · intro q hq
    rw [goto_pc] at hq
    split at hq
    · cases hq
    · exact absurd hq (wakeup_ne_sleeping s.pc q)
  · exact h.panicked
  · intro q
    rw [goto_pc]
    split
    · rename_i hq
      simp [hq, hopen]
    · rename_i hq
      rw [hother q hq, ← h.open_iff]
      exact wakeup_eq_iff (by simp) (by simp)
  · intro hl
    rw [htxn]
    exact hlh.trans (h.blocks hl)

theorem endOp (hp : s.pc p = .inOp) (ho : s.log.outstanding - 1 ≠ 0) : Inv (.ended p :: t)
      ({ s with
          log := { s.log with outstanding := s.log.outstanding - 1 }
          pc := wakeup s.pc }.goto p .out) := by
  have hpos := h.outstanding_pos hp
  have hc := h.committing_false hp
  refine h.leave ?_ (fun q _ => h.not_inCommit hc q) hc rfl (fun hz => absurd hz ho) ?_ ?_ rfl
  · simp only [hp, PC.active, if_true]
    omega
  · simp [openOp]
  · intro q hq
    simp [openOp, Ne.symm hq]

theorem finish (hp : s.pc p = .committed) :
    Inv t ({ s with log := { s.log with committing := false }, pc := wakeup s.pc }.goto p .out) := by
  have hpc : (s.pc p).inCommit := Or.inr hp
  refine h.leave ?_ (fun q hq hc => hq (h.unique q p hc hpc)) rfl rfl (fun _ => h.committed p hp)
    ?_ (fun _ _ => rfl) rfl
  · simp [hp, PC.active]
  · have hopen := h.open_iff p
    simpa [hp] using hopen

theorem commitStep (hp : s.pc p = .committing) : Inv (.committed p s.log.lh :: t)
      ({ s with log := { s.log with lh := [] } }.goto p .committed) := by
  have hpc : (s.pc p).inCommit := Or.inl hp
  have hcom : ∀ q, (({ s with log := { s.log with lh := [] } }.goto p .committed).pc q).inCommit ↔
      (s.pc q).inCommit := by
    intro q
    rw [goto_pc]
    split
    · rename_i hq
      simp [hq, hp, PC.inCommit]
    · rfl
  constructor
  · have hsum := active_goto s.pc p .committed
    simp only [PC.active, hp, reduceCtorEq, if_false, Nat.add_zero] at hsum
    exact h.outstanding.trans hsum.symm
  · exact fun q hq => h.commit q ((hcom q).mp hq)
  · exact fun q r hq hr => h.unique q r ((hcom q).mp hq) ((hcom r).mp hr)
  · exact fun _ => ⟨p, (hcom p).mpr hpc⟩
  · exact fun _ _ => rfl
  · exact fun _ _ => rfl
  · exact fun _ _ => Or.inl (h.commit p hpc).1
  · exact h.panicked
  · intro q
    rw [goto_pc, openOp, ← h.open_iff]
    split
    · rename_i hq
      simp [hq, hp]
    · rfl
  · exact fun _ => rfl

theorem step {s' : Sys P} {e : Option (Event P)} (hs : Step s e s') : Inv (e.toList ++ t) s' := by
  obtain ⟨hlive, ht⟩ := hs.trans
  cases ht with
  | callBeginOp hp => exact h.move (by simp [hp, PC.inCommit]) (Or.inl rfl) (fun hc => by cases hc)
  | sleep hp hl => exact h.move (by simp [hp, PC.inCommit]) (Or.inr rfl) (fun _ => hl)
  | kill hp => exact h.move (by simp [hp, PC.inCommit]) (Or.inl rfl) (fun hc => by cases hc)
  | beginOp hp hc _ => exact h.beginOp hp hc
  | logWrite hp _ _ _ => exact h.logWrite hlive hp _
  | tooBig hp _ =>
    exact { h with panicked := Or.inr rfl, blocks := fun hl => by cases hl }
  | outside hp ho => exact absurd (h.outstanding_pos hp) (by omega)
  | endOpPanic hp hc => exact absurd (h.committing_false hp) (by simp [hc])
  | endOpLast hp _ ho => exact h.endOpLast hp ho
  | endOp hp _ ho => exact h.endOp hp ho
  | commit hp => exact h.commitStep hp
  | finish hp => exact h.finish hp

end Inv

theorem Reaches.inv {l : Log} {t : List (Event P)} {s : Sys P} (h : Reaches l t s) : Inv t s :=
  Run.invariant (Inv.boot l) (fun _ _ _ _ hi hs => hi.step hs) (fun _ _ _ _ _ hi hs => hi.step hs) h

/-! ## Isolation -/

section Isolation
variable {l : Log} {t t₁ t₂ : List (Event P)} {s : Sys P} {t₃ : List (Event P)}

theorem Reaches.committed {q : P} {bs : List Nat} (h : Reaches l (t₂ ++ .committed q bs :: t₁) s) :
    bs = txnBlocks t₁ ∧ ∀ p, openOp p t₁ = false := by
  obtain ⟨s₁, s₂, hr, hs⟩ := Run.exists_step h
  have hi := Reaches.inv hr
  obtain ⟨hlive, ht⟩ := hs.trans
  cases ht with
  | commit hp =>
    refine ⟨hi.blocks hlive, fun p => ?_⟩
    have hout := (hi.commit q (Or.inl hp)).2
    by_contra ho
    have := hi.outstanding_pos ((hi.open_iff p).mpr (by simpa using ho))
    omega

theorem Reaches.logWrite_open {p : P} {b : Nat} (h : Reaches l (t₂ ++ .logWrite p b :: t₁) s) :
    openOp p t₁ = true := by
  obtain ⟨s₁, s₂, hr, hs⟩ := Run.exists_step h
  have hi := Reaches.inv hr
  obtain ⟨-, ht⟩ := hs.trans
  cases ht with
  | logWrite hp _ _ _ => exact (hi.open_iff p).mp hp
  | tooBig hp _ => exact (hi.open_iff p).mp hp
  | outside hp _ => exact (hi.open_iff p).mp hp

theorem Reaches.not_idle (h : Reaches l t s) {p : P} (hp : s.pc p = .sleeping) :
    ¬ (s.log.outstanding = 0 ∧ s.log.committing = false) := by
  rintro ⟨ho, hc⟩
  have hi := h.inv
  rcases hi.waiting p hp with hw | hw
  · rw [hw] at hc
    cases hc
  · rw [hi.idle ho hc, ho] at hw
    exact absurd hw (by decide)

/-- No commit comes between a `begin_op` and its `end_op`. -/
theorem Reaches.no_commit_in_op {p : P}
    (h : Reaches l (t₃ ++ (t₂ ++ .began p :: t₁)) s) (hend : .ended p ∉ t₂) : ∀ e ∈ t₂, e.isCommit = false := by
  intro e he
  cases e with
  | committed q bs =>
    obtain ⟨u, v, rfl⟩ := List.append_of_mem he
    rw [List.append_assoc, List.cons_append, ← List.append_assoc] at h
    have hclosed := h.committed.2 p
    have hopen : openOp p (v ++ .began p :: t₁) = true :=
      openOp_append (by simp [openOp]) fun hm => hend (by simp [hm])
    rw [hopen] at hclosed
    cases hclosed
  | began q => rfl
  | logWrite q b => rfl
  | ended q => rfl

/-- The first commit after a `log_write` has its block, and the operation is over by then. -/
theorem Reaches.mem_commit {p q : P} {b : Nat} {bs : List Nat}
    (h : Reaches l (t₃ ++ .committed q bs :: (t₂ ++ .logWrite p b :: t₁)) s)
    (hn : ∀ e ∈ t₂, e.isCommit = false) : b ∈ bs ∧ .ended p ∈ t₂ := by
  obtain ⟨rfl, hclosed⟩ := h.committed
  refine ⟨mem_txnBlocks_of_logWrite hn, ?_⟩
  by_contra hend
  have hopen : openOp p (.logWrite p b :: t₁) = true := by
    rw [← List.cons_append, ← List.append_assoc] at h
    exact h.logWrite_open
  have := openOp_append hopen hend
  rw [hclosed p] at this
  cases this

end Isolation

/-- Group commit keeps operations apart from commits, in every run of any number of processes:
commits and operations exclude each other, the blocks of an operation go into one commit, and
whoever sleeps on `&log` waits for something. -/
theorem group_commit_isolation (l : Log) (t : List (Event P)) (s : Sys P) (h : Reaches l t s) :
    ((∀ p, (s.pc p).inCommit → s.log.outstanding = 0) ∧
      (∀ p s', Step s (some (.began p)) s' →
        s.log.committing = false ∧ s'.log.committing = false) ∧
      s.panicked ≠ some .logCommitting) ∧
    ((∀ t₁ t₂ t₃ p, t = t₃ ++ (t₂ ++ .began p :: t₁) → .ended p ∉ t₂ →
        ∀ e ∈ t₂, e.isCommit = false) ∧
      (∀ t₁ t₂ t₃ p q b bs, t = t₃ ++ .committed q bs :: (t₂ ++ .logWrite p b :: t₁) →
        (∀ e ∈ t₂, e.isCommit = false) → b ∈ bs ∧ .ended p ∈ t₂) ∧
      (∀ t₁ t₃ q b bs, t = t₃ ++ .committed q bs :: t₁ → b ∈ bs →
        ∃ t₀ t₂ p, t₁ = t₂ ++ .logWrite p b :: t₀ ∧ ∀ e ∈ t₂, e.isCommit = false)) ∧
    ((∀ p, s.pc p = .sleeping → s.log.committing = true ∨
        LOGSIZE < s.log.lh.length + (s.log.outstanding + 1) * MAXOPBLOCKS) ∧
      (s.log.outstanding = 0 → s.log.committing = false → s.log.lh = []) ∧
      (∀ p, s.pc p = .sleeping → ¬ (s.log.outstanding = 0 ∧ s.log.committing = false))) := by
  have hi := h.inv
  refine ⟨⟨fun p hp => (hi.commit p hp).2, fun p s' hs => ?_, ?_⟩, ⟨?_, ?_, ?_⟩,
    hi.waiting, hi.idle, fun p hp => h.not_idle hp⟩
  · obtain ⟨-, ht⟩ := hs.trans
    cases ht with
    | beginOp hp hc _ => exact ⟨hc, hc⟩
  · rcases hi.panicked with hn | hn <;> simp [hn]
  · rintro t₁ t₂ t₃ p rfl hend
    exact h.no_commit_in_op hend
  · rintro t₁ t₂ t₃ p q b bs rfl hn
    exact h.mem_commit hn
  · rintro t₁ t₃ q b bs rfl hb
    rw [h.committed.1] at hb
    exact exists_logWrite_of_mem_txnBlocks hb

def mkfsLog : Log := ⟨2, LOGSIZE, 0, false, ROOTDEV, []⟩

/-- Two overlapping operations: both blocks are in the commit that the second one makes. -/
theorem group_commit_isolation_two :
    ∃ s : Sys (Fin 2), Reaches mkfsLog [.committed 1 [46, 47], .ended 1, .logWrite 1 47, .ended 0,
        .logWrite 0 46, .began 1, .began 0] s ∧
      s.log.lh = [] ∧ 46 ∈ [46, 47] ∧ s.panicked ≠ some .logCommitting := by
  obtain ⟨s, hs, hlh⟩ : ∃ s : Sys (Fin 2), runActs [] (boot mkfsLog)
      [.callBeginOp 0, .beginOp 0, .callBeginOp 1, .beginOp 1, .logWrite 0 46, .endOp 0,
        .logWrite 1 47, .endOp 1, .commit 1] =
      some ([.committed 1 [46, 47], .ended 1, .logWrite 1 47, .ended 0, .logWrite 0 46, .began 1,
        .began 0], s) ∧ s.log.lh = [] := ⟨_, rfl, rfl⟩
  have hr := Reaches.runActs (Run.refl) hs
  obtain ⟨⟨-, -, hpanic⟩, ⟨-, hmem, -⟩, -⟩ := group_commit_isolation mkfsLog _ s hr
  refine ⟨s, hr, hlh, ?_, hpanic⟩
  exact (hmem [.began 1, .began 0] [.ended 1, .logWrite 1 47, .ended 0] [] 0 1 46 [46, 47] rfl
    (by decide)).1

end Xv6.GroupCommit
