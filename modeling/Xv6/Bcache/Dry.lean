import Xv6.Bcache.Supply

/-!
# When the buffer cache runs dry

`bread` needs no transaction, so nothing bounds the number of buffers that readers hold: thirty-one
readers of different blocks make `bget` panic. It does not as long as the references and the pins
leave room.
-/

namespace Xv6.Bcache

open Xv6.Foundation Xv6.Disk Xv6.GroupCommit

set_option autoImplicit false

section
variable {P : Type} [Fintype P] [DecidableEq P] {start : Nat} {p : P} {F : Multiset (Nat × Nat)}
  {c : Option (List Nat × Nat)} {Q : Unit → Hold → Prop}

theorem wp_bread {b : Nat} {Q : Nat → Hold → Prop} (hq : ∀ i, Q i ⟨(i, b) ::ₘ F, c⟩) :
    (supply P start).wp p (bread b) ⟨F, c⟩ Q := by
  apply Logic.wp_bind
  apply wp_bget
  intro i
  apply Logic.wp_bind
  apply wp_acquiresleep
  apply Logic.wp_bind
  apply wp_diskRead
  exact hq i

theorem wp_brelse {i b : Nat} (hq : Q () ⟨F, c⟩) :
    (supply P start).wp p (brelse i) ⟨(i, b) ::ₘ F, c⟩ Q := by
  apply Logic.wp_bind
  apply wp_releasesleep
  exact wp_put hq

theorem wp_brelse_second {i j b d : Nat} (hq : Q () ⟨(j, d) ::ₘ F, c⟩) :
    (supply P start).wp p (brelse i) ⟨(j, d) ::ₘ (i, b) ::ₘ F, c⟩ Q := by
  rw [Multiset.cons_swap]
  exact wp_brelse hq

/-! ## Calls -/

theorem wp_logIf {log : Bool} {i b : Nat} (hq : Q () ⟨(i, b) ::ₘ F, c⟩) :
    (supply P start).wp p (.when log (act (.logWrite i))) ⟨(i, b) ::ₘ F, c⟩ Q :=
  Logic.wp_when (fun _ => wp_logWrite (Multiset.mem_cons_self _ _) hq) fun _ => hq

theorem wp_touch {x : Touch} (hq : Q () ⟨F, c⟩) : (supply P start).wp p (touch x) ⟨F, c⟩ Q := by
  apply Logic.wp_bind
  apply wp_bread
  intro i
  apply Logic.wp_bind
  apply wp_logIf
  exact wp_brelse hq

theorem wp_touchAll {xs : List Touch} (hq : Q () ⟨F, c⟩) :
    (supply P start).wp p (touchAll xs) ⟨F, c⟩ Q := by
  induction xs with
  | nil => exact hq
  | cons x xs ih =>
    apply Logic.wp_bind
    exact wp_touch ih

theorem wp_visit {v : Visit} (hq : Q () ⟨F, c⟩) : (supply P start).wp p (visit v) ⟨F, c⟩ Q := by
  apply Logic.wp_bind
  apply wp_bread
  intro i
  apply Logic.wp_bind
  apply wp_touchAll
  apply Logic.wp_bind
  apply wp_logIf
  exact wp_brelse hq

theorem wp_visitAll {vs : List Visit} (hq : Q () ⟨F, c⟩) :
    (supply P start).wp p (visitAll vs) ⟨F, c⟩ Q := by
  induction vs with
  | nil => exact hq
  | cons v vs ih =>
    apply Logic.wp_bind
    exact wp_visit ih

/-! ## The commit -/

section Commit
variable {bs : List Nat} {u : Nat} {Q : Unit → Hold → Prop}

theorem wp_writeLogBlock {tail : Nat} (hq : Q () ⟨F, some (bs, u)⟩) :
    (supply P start).wp p (writeLogBlock start tail) ⟨F, some (bs, u)⟩ Q := by
  apply Logic.wp_bind
  apply wp_bread
  intro i
  apply Logic.wp_bind
  apply wp_logBlock
  apply Logic.wp_bind
  apply wp_bread
  intro j
  apply Logic.wp_bind
  apply wp_bwrite
  apply Logic.wp_bind
  apply wp_brelse
  exact wp_brelse hq

theorem wp_writeLog {n tail : Nat} (hq : Q () ⟨F, some (bs, u)⟩) :
    (supply P start).wp p (writeLog start n tail) ⟨F, some (bs, u)⟩ Q := by
  induction n generalizing tail with
  | zero => exact hq
  | succ n ih =>
    apply Logic.wp_bind
    exact wp_writeLogBlock ih

theorem wp_writeHead (hq : Q () ⟨F, c⟩) : (supply P start).wp p (writeHead start) ⟨F, c⟩ Q := by
  apply Logic.wp_bind
  apply wp_bread
  intro i
  apply Logic.wp_bind
  apply wp_bwrite
  exact wp_brelse hq

theorem wp_installBlock (hu : u < bs.length) (hq : Q () ⟨F, some (bs, u + 1)⟩) :
    (supply P start).wp p (installBlock start u) ⟨F, some (bs, u)⟩ Q := by
  have hdrop : bs.drop u = bs.getD u 0 :: bs.drop (u + 1) := by
    rw [List.drop_eq_getElem_cons hu, List.getD_eq_getElem?_getD, List.getElem?_eq_getElem hu,
      Option.getD_some]
  apply Logic.wp_bind
  apply wp_bread
  intro i
  apply Logic.wp_bind
  apply wp_logBlock
  apply Logic.wp_bind
  apply wp_bread
  intro j
  apply Logic.wp_bind
  apply wp_bwrite
  apply Logic.wp_bind
  apply wp_bunpin (Multiset.mem_cons_self _ _) hdrop
  apply Logic.wp_bind
  apply wp_brelse_second
  exact wp_brelse hq

theorem wp_installTrans {n : Nat} (hn : u + n = bs.length) (hq : Q () ⟨F, some (bs, bs.length)⟩) :
    (supply P start).wp p (installTrans start n u) ⟨F, some (bs, u)⟩ Q := by
  induction n generalizing u with
  | zero =>
    obtain rfl : u = bs.length := hn
    exact hq
  | succ n ih =>
    apply Logic.wp_bind
    exact wp_installBlock (by omega) (ih (by omega))

theorem wp_commit (hq : Q () ⟨F, some ([], 0)⟩) :
    (supply P start).wp p (commit start) ⟨F, some (bs, 0)⟩ Q := by
  apply Logic.wp_bind
  apply wp_logLength
  apply Logic.wp_ite
  · intro _
    apply Logic.wp_bind
    apply wp_writeLog
    apply Logic.wp_bind
    apply wp_writeHead
    apply Logic.wp_bind
    apply wp_installTrans (Nat.zero_add _)
    apply Logic.wp_bind
    apply wp_clear rfl
    exact wp_writeHead hq
  · intro hn
    obtain rfl : bs = [] := List.length_eq_zero_iff.mp (Nat.eq_zero_of_not_pos hn)
    exact hq

end Commit

theorem wp_endOp_call (hq : Q () ⟨F, none⟩) : (supply P start).wp p (endOp start) ⟨F, none⟩ Q := by
  apply Logic.wp_bind
  apply wp_endOp
  · intro bs
    apply Logic.wp_when (fun _ => ?_) fun h => by cases h
    apply Logic.wp_bind
    apply wp_commit
    exact wp_finish hq
  · exact Logic.wp_when (fun h => by cases h) fun _ => hq

theorem calls : (supply P start).Calls := by
  intro p call r s s' ls hinv hdone henter
  cases henter
  refine ⟨⟨0, none⟩, ?_, ?_⟩
  · rw [← show ls p = ⟨0, none⟩ from hdone, Function.update_eq_self]
    exact hinv
  · cases call with
    | read vs => exact wp_visitAll rfl
    | op vs =>
      apply Logic.wp_bind
      apply wp_beginOp
      apply Logic.wp_bind
      apply wp_visitAll
      exact wp_endOp_call rfl

omit [DecidableEq P] in
theorem counts_boot (l : Log) : Counts (boot P l) [] := by
  constructor
  · intro i
    simp [boot]
  · intro i _ j _ b hb
    cases hb
  · intro p i hi
    simp [boot] at hi
  · exact List.nodup_nil
  · intro b hb
    cases hb
  · intro i _
    simp [boot, refsTo, pinOf]

theorem kept_init (l : Log) : (supply P start).Kept (init P l) := by
  refine ⟨⟨fun _ => ⟨0, none⟩, ?_, fun _ => rfl⟩, fun e he => by cases he⟩
  exact ⟨fun _ => rfl, fun _ _ hx => absurd hx (Multiset.notMem_zero _), .of_none fun _ => rfl,
    [], counts_boot l, .of_none (fun _ => rfl) rfl⟩

/-- If a block that is not cached is asked for only while the references of all processes and the
blocks in the log are fewer than `NBUF`, then `bget` finds the block or an unused buffer. -/
theorem bget_finds_buffer {l : Log} {t : List (Label P Call)}
    {σ : Sys P Act Act.Answer (Cache P) Panic Unit}
    (h : Run ((machine P start).Step fun _ a s => Room a s) (init P l) t σ) :
    σ.panicked ≠ some .bgetNoBuffers ∧
      ∀ p b, σ.next? p = some (.bget b) →
        (σ.shared.cached b = none → inUse σ.shared < NBUF) →
        σ.shared.cached b ≠ none ∨ σ.shared.unused ≠ none := by
  have hkept := (kept_init l).run calls h
  constructor
  · exact fun he => hkept.2 _ he rfl
  · exact fun p b hb hroom => hkept.safe hb hroom

end

def log0 : Log := ⟨2, 30, 0, false, ROOTDEV, []⟩

/-- Process 0 logs block 46, process 1 reads it again and keeps it, process 2 holds the indirect
block 50 and asks for block 51; then process 0 is about to ask for block 47. -/
def visitors : List (Label (Fin 3) Call) :=
  .call 0 (.op [⟨⟨46, true⟩, []⟩, ⟨⟨47, true⟩, []⟩]) :: (List.replicate 7 (.run 0) ++
    .call 1 (.read [⟨⟨46, false⟩, []⟩]) :: (List.replicate 3 (.run 1) ++
      .call 2 (.read [⟨⟨50, false⟩, [⟨51, false⟩]⟩]) :: List.replicate 4 (.run 2)))

def visited : Sys (Fin 3) Act Act.Answer (Cache (Fin 3)) Panic Unit :=
  ((machine (Fin 3) 2).runs (fun _ a s => decide (Room a s)) visitors (init (Fin 3) log0)).get
    (by decide +kernel)

/-- With a logged block and the references of two other processes, `bget` finds a buffer for a block
that is not cached. -/
theorem bget_finds_buffer_visited :
    visited.shared.log.lh = [46] ∧ inUse visited.shared = 4 ∧
      visited.next? 0 = some (.bget 47) ∧ visited.shared.cached 47 = none ∧
      (visited.shared.cached 47 ≠ none ∨ visited.shared.unused ≠ none) := by
  have hrun : Run ((machine (Fin 3) 2).Step fun _ a s => decide (Room a s)) (init (Fin 3) log0)
      _ visited :=
    Machine.run_of_runs _ .refl (Option.some_get _).symm
  have hnext : visited.next? 0 = some (.bget 47) := by decide +kernel
  have huse : inUse visited.shared = 4 := by decide +kernel
  refine ⟨by decide +kernel, huse, hnext, by decide +kernel, ?_⟩
  refine (bget_finds_buffer
    (hrun.mono fun _ _ _ h => h.mono fun _ _ _ => of_decide_eq_true)).2 0 47 hnext fun _ => ?_
  rw [huse]
  decide

/-- As many readers as there are buffers, and one more, each at its own block. -/
def readers : List (Label (Fin NPROC) Call) :=
  ((List.finRange NPROC).take (NBUF + 1)).flatMap fun p =>
    [.call p (.read [⟨⟨46 + p, false⟩, []⟩]), .run p]

/-- No reader has given its buffer back when the last one asks for one. -/
theorem readers_exhaust_cache :
    ∃ σ : Sys (Fin NPROC) Act Act.Answer (Cache (Fin NPROC)) Panic Unit,
      Run ((machine (Fin NPROC) 2).Step fun _ _ _ => True) (init (Fin NPROC) log0)
        readers.reverse σ ∧ σ.panicked = some .bgetNoBuffers := by
  have hsome : (((machine (Fin NPROC) 2).runs (fun _ _ _ => true) readers
      (init (Fin NPROC) log0)).map fun σ => σ.panicked) = some (some .bgetNoBuffers) := by
    decide +kernel
  obtain ⟨σ, hσ, hp⟩ := Option.map_eq_some_iff.mp hsome
  have hrun := Machine.run_of_any Run.refl hσ
  rw [List.append_nil] at hrun
  exact ⟨σ, hrun, hp⟩

end Xv6.Bcache
