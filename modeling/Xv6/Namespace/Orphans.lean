import Xv6.Namespace.Lifetimes

/-!
# Inodes without a name after a crash

A crash leaves what the last commit wrote. `iput` frees an inode without links when its last
reference goes, which may be many commits after the `unlink` that took its last name.
-/

namespace Xv6.Namespace

open Xv6.Foundation

set_option autoImplicit false

instance {P : Type} (a : Act P) (w : World P) : Decidable (Guard a w) := by
  cases a <;> dsimp only [Guard] <;> infer_instance

variable {P : Type} [Fintype P] [DecidableEq P] {ninodes : Nat} {p₀ : P} {disk : Nat → DInode}

/-- Every inode of the image that is allocated has a link, and no link count is near overflow. -/
def Linked (disk : Nat → DInode) : Prop :=
  ∀ i, (disk i).nlink < 2 ^ 15 ∧ ((disk i).type ≠ none → 0 < (disk i).nlink)

/-- In every run whose actions meet `Guard`, a crash leaves every allocated inode with a link. -/
theorem no_orphans_after_crash {t : List (Label P (Call P))} {σ : System P} (hdisk : Linked disk)
    (hr : Run ((machine P ninodes).Step fun _ a w => Guard a w) (boot p₀ disk) t σ) {i : Nat}
    (hi : (σ.shared.kernel.committed i).type ≠ none) :
    1 ≤ short (σ.shared.kernel.committed i).nlink := by
  have hkept : (discipline True P ninodes).Kept σ :=
    kept_of_run (fun _ => hdisk) (hr.mono fun _ _ _ h => h.mono fun _ _ _ hg _ => hg)
  obtain ⟨⟨ls, hinv, -⟩, -⟩ := hkept
  have hinv : Inv True σ.shared ls := hinv
  obtain ⟨hpos, hlt⟩ := hinv.ops.committed trivial i hi
  rw [short, if_pos hlt]
  omega

/-- `unlink("f")` has returned. -/
def unlinked : System Unit :=
  ((machine Unit 4).runs (fun _ a w => decide (Guard a w))
    (.call () (.unlink ['f']) :: List.replicate 24 (.run ())) (boot () smallDisk)).get
      (by decide +kernel)

theorem linked_smallDisk : Linked smallDisk := by
  intro i
  unfold smallDisk
  split <;> simp

/-- The file is gone after a crash, and the root directory has a link. -/
theorem no_orphans_after_crash_unlinked :
    unlinked.Idle () ∧ (unlinked.shared.kernel.committed 2).type = none ∧
      1 ≤ short (unlinked.shared.kernel.committed 1).nlink := by
  have hr : Run ((machine Unit 4).Step fun _ a w => decide (Guard a w)) (boot () smallDisk) _ unlinked :=
    Machine.run_of_runs _ .refl (Option.some_get _).symm
  refine ⟨by decide +kernel, by decide +kernel, no_orphans_after_crash linked_smallDisk
    (hr.mono fun _ _ _ h => h.mono fun _ _ _ => of_decide_eq_true) (by decide +kernel)⟩

/-- `unlink("f")` while the file is open: both calls have returned. -/
def unlinkedOpen : System Unit :=
  ((machine Unit 4).runs (fun _ _ _ => true)
    (.call () (.open ['f'] O_RDONLY) :: (List.replicate 18 (.run ()) ++
      .call () (.unlink ['f']) :: List.replicate 20 (.run ()))) (boot () smallDisk)).get
      (by decide +kernel)

/-- A crash then leaves an inode that is allocated and has no name. -/
theorem unlink_of_open_file_leaves_orphan : Linked smallDisk ∧
    (∃ t, Run ((machine Unit 4).Step fun _ _ _ => True) (boot () smallDisk) t unlinkedOpen) ∧
    unlinkedOpen.Idle () ∧ (unlinkedOpen.shared.kernel.committed 2).type = some .file ∧
    (unlinkedOpen.shared.kernel.committed 2).nlink = 0 :=
  ⟨linked_smallDisk, ⟨_, Machine.run_of_any .refl (Option.some_get _).symm⟩, by decide +kernel,
    by decide +kernel, by decide +kernel⟩

end Xv6.Namespace
