import Mathlib.Data.List.Count
import Xv6.Console.Discipline
import Xv6.Pipes.Fifo
import Xv6.Pipes.Wakeups

/-!
# What a failed delivery consumes

`consoleread` advances `cons.r`, and `piperead` advances `nread`, before the byte is copied out. Runs
here have `kill` and unmapped destinations in them. A call takes as many bytes as it returns, and the
`^D` it may have ended at, exactly when none of its copies failed; a failed copy loses one byte.
-/

namespace Xv6.Console

open Xv6.Foundation Function

set_option autoImplicit false

section
variable {P : Type}

def Event.isDeliver : Event P → Bool
  | .deliver _ _ => true
  | _ => false

def Event.isEof : Event P → Bool
  | .eof _ => true
  | _ => false

def Event.isLost : Event P → Bool
  | .lost _ _ => true
  | _ => false

def Event.takes (e : Event P) : Bool := e.isDeliver || e.isEof || e.isLost

variable [DecidableEq P] {buf : Nat → Byte}

/-- How many such events `p` has had since its last call. -/
def tally (f : Event P → Bool) (p : P) : List (Event P) → Nat
  | [] => 0
  | .call q _ :: t => if q = p then 0 else tally f p t
  | e :: t => tally f p t + if e.actor = some p ∧ f e then 1 else 0

def AnyStep (s : State P) (e : Option (Event P)) (s' : State P) : Prop :=
  ∃ l : Label P, exec l s = some (s', e)

theorem tally_of_ne {f : Event P → Bool} {q : P} {e : Event P} (he : e.actor ≠ some q)
    (t : List (Event P)) : tally f q (e :: t) = tally f q t := by
  cases e with
  | call p n => exact if_neg fun hp => he (congrArg some hp)
  | _ => simp [tally, he]

theorem killLine_r (turns : Nat) (k : Cons) : (k.killLine turns).r = k.r := by
  induction turns generalizing k with
  | zero => rfl
  | succ turns ih =>
    rw [Cons.killLine]
    split
    · rw [ih, Cons.erase_r]
    · rfl

theorem consoleintr_r (c : Byte) (k : Cons) : (consoleintr c k).1.r = k.r := by
  simp only [consoleintr]
  split_ifs
  all_goals first | rfl | exact killLine_r _ _

/-- A reader in a call has delivered `target - n` characters; a `^D` or a failed copy ends the
call. -/
def Reader.Counts (deliver eof lost : Nat) : Reader → Prop
  | .acquiring n target | .looping n target | .asleep n target =>
    deliver + n = target ∧ eof = 0 ∧ lost = 0
  | .leaving n target => deliver + n = target ∧ eof + lost ≤ 1
  | .idle | .killed => True

structure Kept (t : List (Event P)) (s : State P) (l : Line) : Prop where
  shown : Shows s.cons l
  ok : l.Ok
  index : s.cons.r = t.countP Event.takes % 2 ^ 32
  run : (∀ e ∈ t, e.isLost = false) → Run Line.Step Line.empty t l
  counts : ∀ p, (s.reader p).Counts (tally Event.isDeliver p t) (tally Event.isEof p t)
    (tally Event.isLost p t)

namespace Kept
variable {t : List (Event P)} {s : State P} {l : Line} {e : Option (Event P)} {rd : Reader} {p : P}

theorem init (buf : Nat → Byte) : Kept ([] : List (Event P)) (init P buf) Line.empty :=
  ⟨.empty buf, ⟨by decide, by simp [Line.empty], fun _ => rfl⟩, rfl, fun _ => .refl,
    fun _ => trivial⟩

theorem counts_set (h : Kept t s l) (hactor : ∀ e' ∈ e, e'.actor = some p)
    (hrd : rd.Counts (tally Event.isDeliver p (e.toList ++ t)) (tally Event.isEof p (e.toList ++ t))
      (tally Event.isLost p (e.toList ++ t))) (q : P) :
    (update s.reader p rd q).Counts (tally Event.isDeliver q (e.toList ++ t))
      (tally Event.isEof q (e.toList ++ t)) (tally Event.isLost q (e.toList ++ t)) := by
  by_cases hq : q = p
  · subst hq
    rwa [update_self]
  · rw [update_of_ne hq]
    cases e with
    | none => exact h.counts q
    | some e =>
      have hne : e.actor ≠ some q := by
        rw [hactor e rfl]
        exact fun he => hq (Option.some.inj he).symm
      simp only [Option.toList, List.singleton_append, tally_of_ne hne]
      exact h.counts q

theorem stay (h : Kept t s l) {o : Option P}
    (hactor : ∀ e' ∈ e, e'.actor = some p) (htakes : ∀ e' ∈ e, e'.takes = false)
    (hline : Line.Step l e l)
    (hrd : rd.Counts (tally Event.isDeliver p (e.toList ++ t)) (tally Event.isEof p (e.toList ++ t))
      (tally Event.isLost p (e.toList ++ t))) :
    Kept (e.toList ++ t) ⟨s.cons, o, update s.reader p rd⟩ l := by
  refine ⟨h.shown, h.ok, ?_, ?_, h.counts_set hactor hrd⟩
  · cases e with
    | none => exact h.index
    | some e =>
      rw [Option.toList, List.singleton_append, List.countP_cons, htakes e rfl]
      exact h.index
  · intro hlost
    cases e with
    | none => exact (h.run hlost).silent hline
    | some e => exact (h.run fun e' he' => hlost e' (List.mem_cons_of_mem _ he')).event hline

theorem take {c : Byte} {queue edit : List Byte} (h : Kept t s ⟨c :: queue, edit⟩) {o : Option P} {e : Event P} (hactor : e.actor = some p) (htakes : e.takes = true)
    (hline : e.isLost = false → Line.Step ⟨c :: queue, edit⟩ (some e) ⟨queue, edit⟩)
    (hrd : rd.Counts (tally Event.isDeliver p (e :: t)) (tally Event.isEof p (e :: t))
      (tally Event.isLost p (e :: t))) :
    Kept (e :: t) ⟨s.cons.take, o, update s.reader p rd⟩ ⟨queue, edit⟩ := by
  refine ⟨h.shown.take.2, h.ok.pop, ?_, ?_, h.counts_set (e := some e) (by simp [hactor]) hrd⟩
  · rw [Cons.take_r, h.index, Nat.mod_add_mod, List.countP_cons, htakes]
    rfl
  · intro hlost
    exact (h.run fun e' he' => hlost e' (List.mem_cons_of_mem _ he')).event
      (hline (hlost e List.mem_cons_self))

theorem turn (h : Kept t s l) {n target : Nat} (env : Env) (hp : s.reader p = .looping n target) :
    ∃ l', Kept ((turn env p n target s).2.toList ++ t) (turn env p n target s).1 l' := by
  obtain ⟨hsum, heof, hlost⟩ : Reader.Counts _ _ _ (.looping n target) := hp ▸ h.counts p
  have hle : tally Event.isEof p t + tally Event.isLost p t ≤ 1 := by omega
  have hnone : ∀ e' ∈ (none : Option (Event P)), e'.actor = some p := by simp
  have hplain : ∀ e' ∈ (none : Option (Event P)), e'.takes = false := by simp
  rw [Console.turn]
  by_cases hn : n = 0
  · rw [if_pos hn]
    exact ⟨l, h.stay hnone hplain (.stay l) ⟨hsum, hle⟩⟩
  rw [if_neg hn]
  by_cases hrw : s.cons.r = s.cons.w
  · rw [if_pos hrw]
    split
    · exact ⟨l, h.stay hnone hplain (.stay l) trivial⟩
    · exact ⟨l, h.stay hnone hplain (.stay l) ⟨hsum, heof, hlost⟩⟩
  rw [if_neg hrw]
  obtain ⟨queue, edit⟩ := l
  cases queue with
  | nil => exact absurd (h.shown.queue_empty_iff.mpr rfl) hrw
  | cons c queue =>
    simp only [h.shown.take.1]
    by_cases hD : c = ctrlD
    · subst hD
      rw [if_pos rfl]
      split
      · rw [h.shown.take_putBack]
        exact ⟨_, h.stay hnone hplain (.stay _) ⟨hsum, hle⟩⟩
      · exact ⟨_, h.take (e := .eof p) rfl rfl (fun _ => .eof p queue edit)
          ⟨by simpa [tally, Event.isDeliver] using hsum,
            by simp [tally, Event.actor, Event.isEof, Event.isLost, heof, hlost]⟩⟩
    rw [if_neg hD]
    split
    · exact ⟨_, h.take (e := .lost p c) rfl rfl (fun hf => absurd hf (by simp [Event.isLost]))
        ⟨by simpa [tally, Event.isDeliver] using hsum,
          by simp [tally, Event.actor, Event.isEof, Event.isLost, heof, hlost]⟩⟩
    have hstep := Line.Step.deliver p queue edit hD
    have hdel : tally Event.isDeliver p (.deliver p c :: t) = tally Event.isDeliver p t + 1 := by
      simp [tally, Event.actor, Event.isDeliver]
    have hsum' : tally Event.isDeliver p (.deliver p c :: t) + (n - 1) = target := by omega
    split
    · exact ⟨_, h.take (e := .deliver p c) rfl rfl (fun _ => hstep)
        ⟨hsum', by simp [tally, Event.isEof, Event.isLost, heof, hlost]⟩⟩
    · exact ⟨_, h.take (e := .deliver p c) rfl rfl (fun _ => hstep)
        ⟨hsum', by simp [tally, Event.isEof, heof], by simp [tally, Event.isLost, hlost]⟩⟩

theorem wakeup_counts {d e l : Nat} (h : rd.Counts d e l) : (wakeup rd).Counts d e l := by
  cases rd <;> exact h

theorem intr (h : Kept t s l) (c : Byte) : Kept (.input c :: t) (let r := consoleintr c s.cons
      let s := s.setCons r.1
      if r.2 then { s with reader := fun p => wakeup (s.reader p) } else s) (l.input c) := by
  have hr : (consoleintr c s.cons).1.r = s.cons.r := consoleintr_r c s.cons
  have hcount : ∀ (f : Event P → Bool) q, tally f q (.input c :: t) = tally f q t :=
    fun f q => tally_of_ne (by simp [Event.actor]) t
  have hrun : (∀ e ∈ (.input c : Event P) :: t, e.isLost = false) →
      Run Line.Step Line.empty (.input c :: t) (l.input c) := fun hlost =>
    (h.run fun e he => hlost e (List.mem_cons_of_mem _ he)).event (.input l c)
  dsimp only
  split
  · refine ⟨(h.shown.consoleintr h.ok c).1, h.ok.input c, hr.trans h.index, hrun, fun q => ?_⟩
    rw [hcount, hcount, hcount]
    exact wakeup_counts (h.counts q)
  · refine ⟨(h.shown.consoleintr h.ok c).1, h.ok.input c, hr.trans h.index, hrun, fun q => ?_⟩
    rw [hcount, hcount, hcount]
    exact h.counts q

theorem step (h : Kept t s l) {s' : State P} (hs : AnyStep s e s') :
    ∃ l', Kept (e.toList ++ t) s' l' := by
  obtain ⟨lab, hs⟩ := hs
  cases lab with
  | intr c =>
    rw [exec] at hs
    split at hs <;> cases hs
    exact ⟨l.input c, h.intr c⟩
  | call p n =>
    rw [exec] at hs
    split at hs <;> cases hs
    exact ⟨l, h.stay (e := some (.call p n)) (by simp [Event.actor])
      (by simp [Event.takes, Event.isDeliver, Event.isEof, Event.isLost]) (.call l p n)
      (by simp [Reader.Counts, tally])⟩
  | acquire p =>
    rw [exec] at hs
    split at hs
    · rename_i n target hp
      have hc := h.counts p
      rw [hp] at hc
      split at hs <;> cases hs
      exact ⟨l, h.stay (e := none) (by simp) (by simp) (.stay l) hc⟩
    · cases hs
  | turn p env =>
    rw [exec] at hs
    split at hs
    · have hturn := h.turn env ‹_›
      rwa [Option.some.inj hs] at hturn
    · cases hs
  | release p =>
    rw [exec] at hs
    split at hs <;> cases hs <;>
      exact ⟨l, h.stay (e := some (.ret p _)) (by simp [Event.actor])
        (by simp [Event.takes, Event.isDeliver, Event.isEof, Event.isLost]) (.ret l p _) trivial⟩

end Kept

theorem kept_of_run {t : List (Event P)} {s : State P}
    (h : Run AnyStep (init P buf) t s) : ∃ l, Kept t s l :=
  Run.invariant (I := fun t s => ∃ l, Kept t s l) ⟨_, .init buf⟩
    (fun _ _ _ _ ⟨_, hl⟩ hs => hl.step hs) (fun _ _ _ _ _ ⟨_, hl⟩ hs => hl.step hs) h

end

end Xv6.Console
