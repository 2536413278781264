import Xv6.Cpus.Model

/-!
# What fits

How code that is nested as it should be goes on after each of its instructions.
-/

namespace Xv6.Cpus

open Xv6.Foundation
open Xv6.Procs (ProcState)

set_option autoImplicit false

variable {T C : Type} [DecidableEq T] {t : Thread T C} {x y : Point T}
  {i : Instr T} {r code : List (Instr T)}

namespace Point

theorem atSwitch_iff {p : T} : x.atSwitch p = true ↔ x.held = [.proc p] ∧ x.depth = 1 := by
  simp [atSwitch]

omit [DecidableEq T] in
theorem idle_iff : x.idle = true ↔
    x.mode = .gone ∨ x.held = [] ∧ x.depth = 0 ∧ x.mode = .run ∧ x.irq = false := by
  simp [idle, and_assoc]

theorem fits_nil : x.fits t [] = x.idle := rfl

theorem fits_cons : x.fits t (i :: r) = true ↔ ∃ y, x.after t i = some y ∧ y.fits t r = true := by
  unfold fits
  cases h : x.after t i with
  | none => simp [run, h]
  | some y => simp [run, h]

theorem run_append (r' : List (Instr T)) : x.run t (r ++ r') = (x.run t r).bind (run t r') := by
  induction r generalizing x with
  | nil => rfl
  | cons i r ih =>
    simp only [List.cons_append, run]
    cases x.after t i with
    | none => rfl
    | some y => exact ih

theorem after_of_not_gone (h : x.mode ≠ .gone) : x.after t i = x.effect t i := if_neg h

theorem after_gone (h : x.mode = .gone) : x.after t i = some x := if_pos h

theorem run_gone (h : x.mode = .gone) : x.run t r = some x := by
  induction r with
  | nil => rfl
  | cons i r ih =>
    rw [run, after_gone h]
    exact ih

theorem fits_gone (h : x.mode = .gone) : x.fits t r = true := by
  simp [fits, run_gone h, idle, h]

/-- Only `intr_on`, `intr_off` and the return from an interrupt change whether interrupts are on where
nothing is open. -/
theorem effect_keeps (h : x.effect t i = some y) (hret : i ≠ .sret) (hintr : ∀ b, i ≠ .intr b) :
    y.irq = x.irq ∧ y.en = x.en := by
  cases i with
  | sret => exact (hret rfl).elim
  | intr b => exact (hintr b rfl).elim
  | dead => cases h
  | push =>
    cases h
    exact ⟨rfl, rfl⟩
  | off | pop | take | drop | myproc | visit =>
    simp only [effect, Option.ite_none_right_eq_some, Option.some.injEq] at h
    obtain ⟨-, rfl⟩ := h
    exact ⟨rfl, rfl⟩
  | setState | restore | scan | pick | load | clear =>
    cases t with
    | proc | sched =>
      simp only [effect, Option.ite_none_right_eq_some, Option.some.injEq, reduceCtorEq] at h
      try
        obtain ⟨-, rfl⟩ := h
        exact ⟨rfl, rfl⟩
  | sched | save | jump =>
    cases t with
    | sched => cases h
    | proc =>
      cases hm : x.mode with
      | run | gone => simp [effect, hm] at h
      | left st =>
        simp only [effect, hm, Option.ite_none_right_eq_some, Option.some.injEq] at h
        obtain ⟨-, rfl⟩ := h
        exact ⟨rfl, rfl⟩

theorem run_handler (hcode : ∀ i ∈ r, i ≠ .sret) (hirq : x.irq = true) (h : x.run t r = some y) :
    y.mode = .gone ∨ y.irq = true ∧ y.en = x.en := by
  induction r generalizing x with
  | nil =>
    cases h
    exact Or.inr ⟨hirq, rfl⟩
  | cons i r ih =>
    by_cases hgone : x.mode = .gone
    · rw [run_gone hgone] at h
      cases h
      exact Or.inl hgone
    simp only [run, after_of_not_gone hgone] at h
    obtain ⟨z, hz, hrest⟩ := Option.bind_eq_some_iff.mp h
    have hkeep := effect_keeps hz (hcode i List.mem_cons_self) fun b hb => by
      subst hb
      simp [effect, hirq] at hz
    have := ih (fun j hj => hcode j (List.mem_cons_of_mem _ hj)) (hkeep.1.trans hirq) hrest
    rwa [hkeep.2] at this

/-! ## The code of the kernel fits -/

section
variable {p q : T} {l : Lock T}

theorem run_acquire (hm : x.mode = .run) (hl : l ∉ x.held) (hn : x.held.length ≤ x.depth) :
    x.run t (acquire l) = some { x with held := l :: x.held, depth := x.depth + 1 } := by
  simp [acquire, run, after, effect, hm, hl, Nat.lt_succ_of_le hn]

theorem run_release (hm : x.mode = .run ∨ x.mode ≠ .gone ∧ t.lock ≠ some l) (hl : l ∈ x.held)
    (hn : x.held.length ≤ x.depth) :
    x.run t (release l) = some { x with held := x.held.erase l, depth := x.depth - 1 } := by
  have hgone : x.mode ≠ .gone := by
    rcases hm with hm | hm
    · simp [hm]
    · exact hm.1
  have hpos := List.length_pos_of_mem hl
  have hlt : x.held.length - 1 < x.depth := by omega
  simp [release, run, after, effect, hgone, hl, hm.imp_right And.right, hlt]

theorem run_myproc (hm : x.mode ≠ .gone) (hn : x.held.length ≤ x.depth) :
    x.run (.proc p : Thread T C) myproc = some x := by
  simp [myproc, run, after, effect, hm, Thread.lock, Nat.lt_succ_of_le hn]

theorem fits_forkret (hm : x.mode = .run) (hheld : x.held = [.proc q]) (hd : x.depth = 1)
    (hirq : x.irq = false) : x.fits (.proc q : Thread T C) (forkret q) = true := by
  have hmyproc := run_myproc (C := C) (p := q) (by rw [hm]; simp) (by rw [hheld, hd]; simp)
  rw [fits, forkret, run_append, hmyproc]
  simp [release, run, after, effect, idle, hm, hheld, hd, hirq]

theorem run_setState {st : ProcState} (hm : x.mode = .run) (hl : .proc p ∈ x.held)
    (hst : st = .runnable ∨ st = .sleeping ∨ st = .zombie) :
    x.run (.proc p : Thread T C) [.setState st] = some { x with mode := .left st } := by
  simp [run, after, effect, hm, hl, hst]

theorem run_sched {st : ProcState} (hm : x.mode = .left st) (hheld : x.held = [.proc p])
    (hd : x.depth = 1) : x.run (.proc p : Thread T C) sched =
      some { x with mode := if st = .zombie then .gone else .run } := by
  have hmyproc := run_myproc (C := C) (p := p) (by rw [hm]; simp) (by rw [hheld, hd]; simp)
  rw [sched, run_append, hmyproc]
  simp [run, after, effect, atSwitch, hm, hheld, hd]

theorem run_seq {r' : List (Instr T)} (h : x.run t r = some y) :
    x.run t (r ++ r') = y.run t r' := by
  rw [run_append, h, Option.bind_some]

theorem run_yield (hm : x.mode = .run) (hheld : x.held = []) (hd : x.depth = 0) :
    x.run (.proc p : Thread T C) (yield p) = some x := by
  obtain ⟨held, depth, mode, en, irq⟩ := x
  subst hm hheld hd
  simp only [yield, List.append_assoc]
  rw [run_seq (run_myproc (by simp) (by simp)), run_seq (run_acquire rfl (by simp) (by simp)),
    run_seq (run_setState rfl (by simp) (by simp)), run_seq (run_sched rfl rfl rfl),
    run_release (Or.inl (by simp)) (by simp) (by simp)]
  simp

theorem run_sleep (hm : x.mode = .run) (hheld : x.held = [l]) (hd : x.depth = 1)
    (hl : l ≠ .proc p) : x.run (.proc p : Thread T C) (sleep p l) = some x := by
  obtain ⟨held, depth, mode, en, irq⟩ := x
  subst hm hheld hd
  have herase : [.proc p, l].erase l = [Lock.proc p] := by simp [hl.symm]
  simp only [sleep, List.append_assoc]
  rw [run_seq (run_myproc (by simp) (by simp)),
    run_seq (run_acquire rfl (by simp [hl.symm]) (by simp)),
    run_seq (run_release (Or.inl rfl) (by simp) (by simp)), herase,
    run_seq (run_setState rfl (by simp) (by simp)), run_seq (run_sched rfl rfl rfl),
    run_seq (run_release (Or.inl (by simp)) (by simp) (by simp)),
    run_acquire (by simp) (by simp) (by simp)]
  simp

theorem run_exit (hm : x.mode = .run) (hheld : x.held = [l]) (hd : x.depth = 1)
    (hl : l ≠ .proc p) : ∃ y, x.run (.proc p : Thread T C) (exit p l) = some y ∧ y.mode = .gone := by
  obtain ⟨held, depth, mode, en, irq⟩ := x
  subst hm hheld hd
  have herase : [.proc p, l].erase l = [Lock.proc p] := by simp [hl.symm]
  simp only [exit, List.append_assoc]
  rw [run_seq (run_acquire rfl (by simp [hl.symm]) (by simp)),
    run_seq (run_setState rfl (by simp) (by simp)),
    run_seq (run_release (Or.inr ⟨by simp, by simpa [Thread.lock] using hl.symm⟩) (by simp)
      (by simp)),
    herase, run_seq (run_sched rfl rfl rfl), run_gone (by simp)]
  exact ⟨_, rfl, by simp⟩

end

end Point

end Xv6.Cpus
