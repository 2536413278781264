import Xv6.Cpus.Switch
import Xv6.Foundation.Run

/-!
# Every run keeps the invariant

New kernel code and interrupt handlers are put in front of what a thread has left to do; with the
lemmas on the instructions, no step of any run panics.
-/

namespace Xv6.Cpus

open Xv6.Foundation
open Xv6.Procs (ProcState)

set_option autoImplicit false

variable {T C : Type} [DecidableEq T] {s : State T C} {c : C} {code : List (Instr T)}

/-- Code of the kernel, with no instruction that only execution makes. -/
def Written (code : List (Instr T)) : Prop := ∀ i ∈ code, i.plain = true ∧ i ≠ .sret

omit [DecidableEq T] in
theorem Written.plain (h : Written code) : ∀ i ∈ code, i.plain = true := fun i hi => (h i hi).1

omit [DecidableEq T] in
theorem written_op (t : Thread T C) (op : Op T) : Written (op.code t) := by
  cases op with
  | intr | pushOff | popOff | acquire | release | visit =>
    simp [Written, Op.code, acquire, release, Instr.plain]
  | yield | sleep | exit =>
    cases t with
    | proc p => simp [Written, Op.code, yield, sleep, exit, sched, myproc, acquire, release,
      Instr.plain]
    | sched c => simp [Written, Op.code, Instr.plain]

omit [DecidableEq T] in
theorem written_ops (t : Thread T C) (ops : List (Op T)) : Written (ops.flatMap (Op.code t)) := by
  intro i hi
  obtain ⟨op, -, hop⟩ := List.mem_flatMap.mp hi
  exact written_op t op i hop

namespace Good
variable {slot : T → Slot} {x : Cpu T} {L : Local T}

theorem mode_of_depth_zero (h : Good slot c x L) (hd : L.pt.depth = 0) : L.pt.mode = .run := by
  have hheld : L.pt.held = [] := List.eq_nil_of_length_eq_zero (by have := h.nested; omega)
  cases hr : x.running with
  | none => exact (h.sched hr).2
  | some p =>
    cases hm : L.pt.mode with
    | run => rfl
    | left st =>
      have := (h.self p hr).locked st hm
      simp [hheld] at this
    | gone => exact absurd hm h.mode_ne_gone

theorem plain_of_depth_zero (h : Good slot c x L) (hd : L.pt.depth = 0) :
    ∀ i ∈ L.code, i.plain = true := by
  obtain ⟨code, pt⟩ := L
  cases code with
  | nil => simp
  | cons i r =>
    obtain ⟨y, he, -, -⟩ := h.effect
    refine List.forall_mem_cons.mpr ⟨?_, h.tail⟩
    simp only at hd
    cases i with
    | save | jump | restore | load | clear =>
      cases hr : x.running <;> cases hm : pt.mode <;>
        simp [Point.effect, Cpu.thread, hr, hm, Point.atSwitch, hd] at he
    | _ => rfl

theorem idle_of_nil (h : Good slot c x L) (hnil : L.code = []) :
    L.pt.depth = 0 ∧ L.pt.irq = false := by
  have hfits := h.fits
  rw [hnil, Point.fits_nil, Point.idle_iff] at hfits
  rcases hfits with hgone | ⟨-, hd, -, hirq⟩
  · exact absurd hgone h.mode_ne_gone
  · exact ⟨hd, hirq⟩

end Good

variable [DecidableEq C]

theorem fine_begin (h : Inv s) (hw : Written code) : Fine (begin (s.cur c) code s) := by
  unfold begin
  split
  · rename_i hb
    simp only [Bool.and_eq_true, List.isEmpty_iff] at hb
    obtain ⟨hnil, hfits⟩ := hb
    have hg := h.good c
    have hd := (hg.idle_of_nil hnil).1
    have hm := hg.mode_of_depth_zero hd
    refine h.setCode ?_ (fun _ => by rw [hnil]; rfl) fun _ => Good.slotOf_of_plain hw.plain
    refine hg.next rfl rfl hw.plain (by rw [hnil]; rfl) rfl ?_ hg.noff hg.nodup hg.nested hg.armed
      hg.intr ?_ hfits
    · exact fun p st _ hl => by simp [hm] at hl
    · exact fun hpos => absurd hd (Nat.pos_iff_ne_zero.mp hpos)
  · exact trivial

omit [DecidableEq C] in
/-- After the handler and the return from it, the thread goes on as if nothing had been. -/
theorem fits_handler {t : Thread T C} {pt : Point T} {old : List (Instr T)} (hw : Written code)
    (hheld : pt.held = []) (hd : pt.depth = 0) (hm : pt.mode = .run) (hirq : pt.irq = false)
    (hcode : ({ pt with irq := true } : Point T).fits t (code ++ [.sret]) = true)
    (hold : pt.fits t old = true) :
    ({ pt with irq := true } : Point T).fits t (code ++ .sret :: old) = true := by
  unfold Point.fits at hcode ⊢
  rw [Point.run_append] at hcode ⊢
  cases hy : ({ pt with irq := true } : Point T).run t code with
  | none => simp [hy] at hcode
  | some y =>
    simp only [hy, Option.bind_some] at hcode ⊢
    rcases Point.run_handler (fun i hi => (hw i hi).2) rfl hy with hgone | ⟨hirq', hen⟩
    · exact Point.fits_gone hgone
    · by_cases hgone : y.mode = .gone
      · exact Point.fits_gone hgone
      have hsret : y.after t .sret = if y.depth = 0 ∧ y.mode = .run ∧ y.irq then
          some { y with irq := false } else none := Point.after_of_not_gone hgone
      simp only [Point.run, hsret] at hcode ⊢
      split at hcode
      · rename_i hret
        have hpt : ({ y with irq := false } : Point T) = pt := by
          have hidle := Point.idle_iff.mp (by simpa using hcode)
          rcases hidle with hg | ⟨hh, -, -, -⟩
          · exact absurd hg hgone
          · obtain ⟨held, depth, mode, en, irq⟩ := y
            obtain ⟨held', depth', mode', en', irq'⟩ := pt
            simp_all
        rw [if_pos hret, hpt]
        simpa [Point.fits] using hold
      · simp at hcode

theorem fine_interrupt (h : Inv s) (hw : Written code) : Fine (interrupt c (s.cur c) code s) := by
  unfold interrupt
  split
  · rename_i hb
    rw [Bool.and_eq_true] at hb
    obtain ⟨hon, hcode⟩ := hb
    have hg := h.good c
    have hintr := hg.intr
    rw [hon] at hintr
    simp only [Point.eff, eq_comm (a := true), Bool.and_eq_true, decide_eq_true_eq,
      Bool.not_eq_true'] at hintr
    obtain ⟨hd, hirq, hen⟩ := hintr
    have hheld : (s.thread (s.cur c)).pt.held = [] :=
      List.eq_nil_of_length_eq_zero (by have := hg.nested; omega)
    have hm := hg.mode_of_depth_zero hd
    have hold := hg.plain_of_depth_zero hd
    have hplain : ∀ i ∈ code ++ .sret :: (s.thread (s.cur c)).code, i.plain = true := by
      intro i hi
      rcases List.mem_append.mp hi with hi | hi
      · exact hw.plain i hi
      · rcases List.mem_cons.mp hi with rfl | hi
        · rfl
        · exact hold i hi
    refine h.focus { s.cpu c with intr := false } _ s.slot s.holder rfl ?_ (fun l => h.locks l c)
      (fun _ _ _ => Iff.rfl) (fun _ _ => rfl) (fun _ => Good.slotOf_of_plain hold)
      fun _ => Good.slotOf_of_plain hplain
    refine hg.next rfl rfl hplain (Good.slotOf_of_plain hold) rfl ?_ hg.noff hg.nodup hg.nested ?_ ?_
      ?_ (fits_handler hw hheld hd hm hirq hcode hg.fits)
    · exact fun p st _ hl => by simp [hm] at hl
    · exact fun _ => hen
    · simp [Point.eff]
    · exact fun hpos => absurd hd (Nat.pos_iff_ne_zero.mp hpos)
  · exact trivial

theorem fine_exec (h : Inv s) {i : Instr T} {r : List (Instr T)}
    (hcode : (s.thread (s.cur c)).code = i :: r) : Fine (exec c (s.cur c) r s i) := by
  have ht : s.thread (s.cur c) = ⟨i :: r, (s.thread (s.cur c)).pt⟩ := by rw [← hcode]
  cases i with
  | intr b => exact fine_intr h ht
  | sret => exact fine_sret h ht
  | push => exact fine_push h ht
  | off old => exact fine_off h ht
  | pop => exact fine_pop h ht
  | take l => exact fine_take h ht
  | drop l => exact fine_drop h ht
  | myproc => exact fine_myproc h ht
  | visit q v => exact fine_visit h ht
  | setState st => exact fine_setState h ht
  | sched => exact fine_sched h ht
  | save b => exact fine_save h ht
  | jump b => exact fine_jump h ht
  | restore b => exact fine_restore h ht
  | scan qs => exact fine_scan h ht
  | pick q qs => exact fine_pick h ht
  | load q qs => exact fine_load h ht
  | clear q qs => exact fine_clear h ht
  | dead =>
    obtain ⟨y, he, -, -⟩ := (h.good_cur ht).effect
    cases he

/-- No step panics, and every step keeps the invariant. -/
theorem fine_step (h : Inv s) (l : Label T C) : Fine (step s l) := by
  cases l with
  | code c ops =>
    cases hr : (s.cpu c).running with
    | none =>
      simp only [step, cur_of_none hr]
      exact trivial
    | some p =>
      simp only [step, cur_of_running hr]
      rw [← cur_of_running hr]
      exact fine_begin h (written_ops _ ops)
  | loop c qs =>
    cases hr : (s.cpu c).running with
    | none =>
      simp only [step, cur_of_none hr]
      rw [← cur_of_none hr]
      exact fine_begin h (by simp [Written, Instr.plain])
    | some p =>
      simp only [step, cur_of_running hr]
      exact trivial
  | irq c ops => exact fine_interrupt h (written_ops _ ops)
  | step c =>
    simp only [step]
    split
    · exact trivial
    · rename_i i r hcode
      exact fine_exec h hcode

omit [DecidableEq C] in
theorem inv_boot (ini : T) : Inv (boot ini C) := by
  refine ⟨fun c => ?_, fun l c => ?_, fun p c c' hc => ?_, fun p c hc => ?_, fun q _ hst => ?_,
    fun c q qs r _ hcode => ?_, fun c q _ hcode => ?_, fun q hst => ?_⟩
  · refine ⟨rfl, by simp [boot, State.cur], by simp [boot, State.cur], by simp [boot, State.cur],
      by simp [boot, State.cur, Point.eff], by simp [boot, State.cur], rfl, by simp [boot, State.cur],
      fun _ hp => (nomatch hp), fun _ => ⟨rfl, rfl⟩⟩
  · simp [boot, State.cur]
  · cases hc
  · cases hc
  · by_cases hq : q = ini
    · subst hq
      simpa [boot] using ready_fresh (C := C) q .runnable
    · simp [boot, hq, Choosable] at hst
  · cases hcode
  · cases hcode
  · by_cases hq : q = ini <;> simp [boot, hq] at hst

def execute (l : Label T C) (s : State T C) : Option (State T C × Option (Label T C)) :=
  match step s l with
  | .ok _ s' => some (s', some l)
  | _ => none

theorem execute_eq_some {l : Label T C} {s' : State T C} {e : Option (Label T C)}
    (h : execute l s = some (s', e)) : e = some l ∧ step s l = .ok () s' := by
  unfold execute at h
  split at h
  · rename_i hs
    cases h
    exact ⟨rfl, hs⟩
  · cases h

def Reaches (ini : T) (s : State T C) : Prop := ∃ ls, Run Step (boot ini C) ls s

theorem Inv.kept (h : Inv s) {l : Option (Label T C)} {s' : State T C} (hs : Step s l s') :
    Inv s' := by
  obtain ⟨l', -, hl⟩ := hs
  have hfine := fine_step h l'
  rwa [hl] at hfine

theorem Reaches.inv {ini : T} (h : Reaches ini s) : Inv s := by
  obtain ⟨ls, hrun⟩ := h
  exact hrun.invariant (I := fun _ => Inv) (inv_boot ini) (fun _ _ _ _ hi hs => hi.kept hs)
    fun _ _ _ _ _ hi hs => hi.kept hs

end Xv6.Cpus
