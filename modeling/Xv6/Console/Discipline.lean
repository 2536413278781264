import Xv6.Console.Line

/-!
# The console keeps its line discipline in every run

One invariant relates the ring, the line and every reader: what a reader has taken since its call, and
why it stops.
-/

namespace Xv6.Console

open Xv6.Foundation Function

set_option autoImplicit false

/-! ## The handler -/

namespace Line

theorem input_of_room {c : Byte} {l : Line} (hP : c ≠ ctrlP) (hU : c ≠ ctrlU)
    (hH : ¬ (c = ctrlH ∨ c = delete)) (hroom : c ≠ 0 ∧ l.size < INPUT_BUF) :
    l.input c = l.accept (translate c) := by
  rw [input, if_neg hP, if_neg hU, if_neg hH, if_pos hroom]

theorem Ok.accept {l : Line} (h : l.Ok) (hlt : l.size < INPUT_BUF) (c : Byte) :
    (l.accept c).Ok := by
  by_cases hc : endsLine c = true ∨ l.size + 1 = INPUT_BUF
  · rw [Line.accept, if_pos hc]
    refine ⟨?_, by simp, fun _ => rfl⟩
    simp only [size, List.length_append, List.length_singleton, List.length_nil] at hlt ⊢
    omega
  · have hne : endsLine c = false := by
      rw [← Bool.not_eq_true]
      exact fun he => hc (.inl he)
    have hsize : (⟨l.queue, l.edit ++ [c]⟩ : Line).size = l.size + 1 := by
      rw [size_mk, List.length_append, List.length_singleton, size]
      omega
    rw [Line.accept, if_neg hc]
    refine ⟨by rw [hsize]; exact hlt, ?_, fun hf => absurd (.inr (hsize ▸ hf)) hc⟩
    intro d hd
    rcases List.mem_append.mp hd with hd | hd
    · exact h.edit_plain d hd
    · rw [List.mem_singleton.mp hd]
      exact hne

theorem Ok.shrink {l : Line} (h : l.Ok) {edit : List Byte} (hsub : ∀ c ∈ edit, c ∈ l.edit)
    (hle : edit.length ≤ l.edit.length) : (⟨l.queue, edit⟩ : Line).Ok := by
  have hb := h.bound
  refine ⟨?_, fun c hc => h.edit_plain c (hsub c hc), ?_⟩
  · rw [size] at hb ⊢
    exact (Nat.add_le_add_left hle _).trans hb
  · intro hf
    rw [size] at hb
    rw [size_mk] at hf
    have hnil := h.full (by rw [size]; omega)
    rw [hnil, List.length_nil, Nat.le_zero, List.length_eq_zero_iff] at hle
    exact hle

theorem Ok.pop {c : Byte} {queue edit : List Byte} (h : (⟨c :: queue, edit⟩ : Line).Ok) :
    (⟨queue, edit⟩ : Line).Ok := by
  have hb := h.bound
  rw [size_mk, List.length_cons] at hb
  exact ⟨by rw [size_mk]; omega, h.edit_plain, fun hf => by rw [size_mk] at hf; omega⟩

theorem Ok.input {l : Line} (h : l.Ok) (c : Byte) : (l.input c).Ok := by
  rw [Line.input]
  split_ifs with _ _ _ hroom
  · exact h
  · exact h.shrink (by simp) (Nat.zero_le _)
  · exact h.shrink (fun _ hd => List.dropLast_subset _ hd) (by simp)
  · exact h.accept hroom.2 _
  · exact h

end Line

namespace Shows
variable {k : Cons} {l : Line}

theorem eraseLast (h : Shows k l) :
    Shows (if k.e ≠ k.w then k.erase else k) ⟨l.queue, l.edit.dropLast⟩ := by
  obtain ⟨queue, edit⟩ := l
  induction edit using List.reverseRecOn with
  | nil =>
    rw [if_neg (not_not.mpr (h.edit_empty_iff.mpr rfl))]
    exact h
  | append_singleton edit c =>
    have hne : k.e ≠ k.w := fun he => absurd (h.edit_empty_iff.mp he) (by simp)
    rw [if_pos hne, List.dropLast_concat]
    exact h.erase.1

theorem full_iff (h : Shows k l) (hlt : l.size < INPUT_BUF) (c : Byte) :
    (k.store c).e = ((k.store c).r + INPUT_BUF) % 2 ^ 32 ↔ l.size + 1 = INPUT_BUF := by
  have he := h.e_eq_add
  have hr := h.r_lt
  rw [Cons.store_e, Cons.store_r, he, Nat.mod_add_mod]
  rw [INPUT_BUF] at hlt ⊢
  omega

/-- The handler does to the ring what `Line.input` does to the line, and wakes the readers whenever
it adds to the queue. -/
theorem consoleintr (h : Shows k l) (hok : l.Ok) (c : Byte) :
    Shows (Console.consoleintr c k).1 (l.input c) ∧
      ((Console.consoleintr c k).2 = false → (l.input c).queue = l.queue) := by
  by_cases hP : c = ctrlP
  · rw [Console.consoleintr, if_pos hP, Line.input, if_pos hP]
    exact ⟨h, fun _ => rfl⟩
  by_cases hU : c = ctrlU
  · rw [Console.consoleintr, if_neg hP, if_pos hU, Line.input, if_neg hP, if_pos hU, h.edit_eq]
    exact ⟨h.killLine hok.edit_plain, fun _ => rfl⟩
  by_cases hH : c = ctrlH ∨ c = delete
  · rw [Console.consoleintr, if_neg hP, if_neg hU, if_pos hH, Line.input, if_neg hP, if_neg hU,
      if_pos hH]
    exact ⟨h.eraseLast, fun _ => rfl⟩
  by_cases hroom : c ≠ 0 ∧ l.size < INPUT_BUF
  · have hstore := h.store hroom.2 (translate c)
    rw [Line.input_of_room hP hU hH hroom, Console.consoleintr, if_neg hP, if_neg hU, if_neg hH,
      h.used_eq, if_pos hroom]
    simp only [h.full_iff hroom.2, Line.accept]
    split
    · exact ⟨hstore.commit, fun hw => absurd hw (by simp)⟩
    · exact ⟨hstore, fun _ => rfl⟩
  · rw [Console.consoleintr, if_neg hP, if_neg hU, if_neg hH, h.used_eq, if_neg hroom, Line.input,
      if_neg hP, if_neg hU, if_neg hH, if_neg hroom]
    exact ⟨h, fun _ => rfl⟩

end Shows

/-! ## The readers -/

section
variable {P : Type} [DecidableEq P] {xs : List Byte}

def asked (p : P) : List (Event P) → Nat
  | [] => 0
  | .call q n :: t => if q = p then n else asked p t
  | _ :: t => asked p t

def taken (p : P) : List (Event P) → List Byte
  | [] => []
  | .call q _ :: t => if q = p then [] else taken p t
  | .deliver q c :: t => if q = p then taken p t ++ [c] else taken p t
  | .eof q :: t => if q = p then taken p t ++ [ctrlD] else taken p t
  | _ :: t => taken p t

/-- Why a call for `n` characters stops, with the characters it took, the queue it leaves and the
number of characters it delivered. -/
inductive Stopped (n : Nat) : List Byte → List Byte → Nat → Prop where
  | full {xs queue : List Byte} (plain : ∀ c ∈ xs, endsLine c = false) (length : xs.length = n) :
      Stopped n xs queue n
  | newline {xs queue : List Byte} (plain : ∀ c ∈ xs, endsLine c = false) (length : xs.length < n) :
      Stopped n (xs ++ [newline]) queue (xs.length + 1)
  | beforeCtrlD {xs queue : List Byte} (plain : ∀ c ∈ xs, endsLine c = false)
      (length : xs.length < n) (nonempty : xs ≠ []) : Stopped n xs (ctrlD :: queue) xs.length
  | ctrlD {queue : List Byte} (pos : 0 < n) : Stopped n [ctrlD] queue 0

/-- A call under way has taken `target - n` characters, none of which ends a line. -/
structure Going (asked : Nat) (taken : List Byte) (n target : Nat) : Prop where
  target_eq : target = asked
  plain : ∀ c ∈ taken, endsLine c = false
  length : taken.length + n = target

def Follows (queue : List Byte) (asked : Nat) (taken : List Byte) : Reader → Prop
  | .idle => True
  | .acquiring n target => Going asked taken n target
  | .looping n target => Going asked taken n target
  | .asleep n target => Going asked taken n target ∧ queue = []
  | .leaving n target => ∃ m, m + n = target ∧ Stopped asked taken queue m
  | .killed => False

def Reader.holds : Reader → Bool
  | .looping _ _ => true
  | .leaving _ _ => true
  | .killed => true
  | _ => false

structure Inv (t : List (Event P)) (s : State P) (l : Line) : Prop where
  run : Run Line.Step Line.empty t l
  shown : Shows s.cons l
  ok : l.Ok
  lock : ∀ p, (s.reader p).holds = true → s.lock = some p
  readers : ∀ p, Follows l.queue (asked p t) (taken p t) (s.reader p)

namespace Inv
variable {t : List (Event P)} {s : State P} {l : Line}

theorem init (buf : Nat → Byte) : Inv ([] : List (Event P)) (init P buf) Line.empty :=
  ⟨.refl, .empty buf, ⟨by decide, by simp [Line.empty], fun _ => rfl⟩,
    fun _ h => absurd h Bool.false_ne_true, fun _ => trivial⟩

theorem other_not_holds (h : Inv t s l) {p q : P} (hp : (s.reader p).holds = true) (hne : q ≠ p) :
    (s.reader q).holds = false := by
  rw [← Bool.not_eq_true]
  intro hq
  exact hne (Option.some.inj ((h.lock q hq).symm.trans (h.lock p hp)))

end Inv

def Event.actor : Event P → Option P
  | .input _ => none
  | .call p _ => some p
  | .deliver p _ => some p
  | .eof p => some p
  | .lost p _ => some p
  | .ret p _ => some p

theorem history_of_ne {q : P} {e : Event P} (he : e.actor ≠ some q)
    (t : List (Event P)) : asked q (e :: t) = asked q t ∧ taken q (e :: t) = taken q t := by
  have hne : ∀ r, e.actor = some r → r ≠ q := by
    rintro r hr rfl
    exact he hr
  cases e with
  | input c => exact ⟨rfl, rfl⟩
  | call r n => exact ⟨if_neg (hne r rfl), if_neg (hne r rfl)⟩
  | deliver r c => exact ⟨rfl, if_neg (hne r rfl)⟩
  | eof r => exact ⟨rfl, if_neg (hne r rfl)⟩
  | lost r c => exact ⟨rfl, rfl⟩
  | ret r m => exact ⟨rfl, rfl⟩

theorem Follows.queue {queue queue' : List Byte} {n : Nat} {rd : Reader}
    (h : Follows queue n xs rd) (hh : rd.holds = false) (hq : queue = [] → queue' = []) :
    Follows queue' n xs rd := by
  cases rd with
  | idle => trivial
  | acquiring n target => exact h
  | looping n target => exact h
  | asleep n target => exact ⟨h.1, hq h.2⟩
  | leaving n target => cases hh
  | killed => cases hh

theorem Follows.wakeup {queue queue' : List Byte} {n : Nat} {rd : Reader}
    (h : Follows queue n xs rd) (hh : rd.holds = false) : Follows queue' n xs (wakeup rd) := by
  cases rd with
  | idle => trivial
  | acquiring n target => exact h
  | looping n target => cases hh
  | asleep n target => exact h.1
  | leaving n target => cases hh
  | killed => cases hh

theorem holds_wakeup (rd : Reader) : (wakeup rd).holds = rd.holds := by
  cases rd <;> rfl

/-! ## One step -/

namespace Inv
variable {t : List (Event P)} {s : State P} {l : Line} {p : P}

theorem move (h : Inv t s l) {rd : Reader} {k : Cons} {o : Option P}
    {e : Option (Event P)} {l' : Line} (hactor : ∀ e' ∈ e, e'.actor = some p)
    (hline : Line.Step l e l') (hshown : Shows k l') (hok : l'.Ok)
    (hqueue : l.queue = [] → l'.queue = [])
    (hothers : (∀ q, q ≠ p → (s.reader q).holds = false) ∨ o = s.lock ∧ l' = l)
    (hself : rd.holds = true → o = some p)
    (hfollows : Follows l'.queue (asked p (e.toList ++ t)) (taken p (e.toList ++ t)) rd) :
    Inv (e.toList ++ t) ⟨k, o, update s.reader p rd⟩ l' := by
  have hrun : Run Line.Step Line.empty (e.toList ++ t) l' := by
    cases e with
    | none => exact h.run.silent hline
    | some e => exact h.run.event hline
  have hhistory : ∀ q, q ≠ p →
      asked q (e.toList ++ t) = asked q t ∧ taken q (e.toList ++ t) = taken q t := by
    intro q hne
    cases e with
    | none => exact ⟨rfl, rfl⟩
    | some e =>
      apply history_of_ne
      rw [hactor e rfl]
      exact fun he => hne (Option.some.inj he).symm
  refine ⟨hrun, hshown, hok, ?_, ?_⟩
  · intro q hq
    by_cases hqp : q = p
    · subst hqp
      simp only [update_self] at hq
      exact hself hq
    · simp only [update_of_ne hqp] at hq
      rcases hothers with hn | ⟨rfl, -⟩
      · rw [hn q hqp] at hq
        cases hq
      · exact h.lock q hq
  · intro q
    by_cases hqp : q = p
    · subst hqp
      simpa only [update_self] using hfollows
    · simp only [update_of_ne hqp, (hhistory q hqp).1, (hhistory q hqp).2]
      rcases hothers with hn | ⟨-, rfl⟩
      · exact (h.readers q).queue (hn q hqp) hqueue
      · exact h.readers q

theorem intr (h : Inv t s l) (hfree : s.lock = none) (c : Byte) :
    ∃ l', Line.Step l (some (.input c : Event P)) l' ∧ Inv (.input c :: t)
      (let r := consoleintr c s.cons
        let s := s.setCons r.1
        if r.2 then { s with reader := fun p => wakeup (s.reader p) } else s) l' := by
  obtain ⟨hshown, hqueue⟩ := h.shown.consoleintr h.ok c
  have hidle : ∀ p, (s.reader p).holds = false := by
    intro p
    rw [← Bool.not_eq_true]
    intro hp
    rw [h.lock p hp] at hfree
    cases hfree
  have hstep := Line.Step.input (P := P) l c
  have hrun := h.run.event hstep
  refine ⟨l.input c, hstep, ?_⟩
  by_cases hw : (consoleintr c s.cons).2 = true
  · simp only [hw, if_true]
    refine ⟨hrun, hshown, h.ok.input c, ?_, ?_⟩
    · intro p hp
      rw [holds_wakeup] at hp
      exact h.lock p hp
    · intro p
      exact (h.readers p).wakeup (hidle p)
  · simp only [hw]
    refine ⟨hrun, hshown, h.ok.input c, h.lock, ?_⟩
    intro p
    rw [hqueue (Bool.eq_false_of_not_eq_true hw)]
    exact h.readers p

theorem call (h : Inv t s l) (n : Nat) : Inv (.call p n :: t) (s.set p (.acquiring n n)) l :=
  h.move (e := some (.call p n)) (by simp [Event.actor]) (.call l p n) h.shown h.ok id
    (.inr ⟨rfl, rfl⟩) (fun hh => by cases hh) (by
      show Going (asked p (.call p n :: t)) (taken p (.call p n :: t)) n n
      simp only [asked, taken, if_true]
      exact ⟨rfl, by simp, by simp⟩)

theorem acquire (h : Inv t s l) {n target : Nat}
    (hp : s.reader p = .acquiring n target) (hfree : s.lock = none) :
    Inv t ((s.set p (.looping n target)).setLock (some p)) l := by
  refine h.move (e := none) (by simp) (.stay l) h.shown h.ok id (.inl ?_) (fun _ => rfl) ?_
  · intro q _
    rw [← Bool.not_eq_true]
    intro hq
    rw [h.lock q hq] at hfree
    cases hfree
  · have hg := h.readers p
    rw [hp] at hg
    exact hg

theorem release (h : Inv t s l) {n target : Nat} (hp : s.reader p = .leaving n target) :
    Inv (.ret p ((target : Int) - (n : Int)) :: t) ((s.set p .idle).setLock none) l := by
  have hholds : (s.reader p).holds = true := by rw [hp]; rfl
  exact h.move (e := some (.ret p _)) (by simp [Event.actor]) (.ret l p _) h.shown h.ok id
    (.inl fun q hq => h.other_not_holds hholds hq) (fun hh => by cases hh) trivial

end Inv

theorem taken_deliver (p : P) (c : Byte) (t : List (Event P)) :
    taken p (.deliver p c :: t) = taken p t ++ [c] := if_pos rfl

theorem taken_eof (p : P) (t : List (Event P)) : taken p (.eof p :: t) = taken p t ++ [ctrlD] :=
  if_pos rfl

theorem Going.deliver {asked : Nat} {n target : Nat} {c : Byte}
    (h : Going asked xs n target) (hn : n ≠ 0) (hc : endsLine c = false) :
    Going asked (xs ++ [c]) (n - 1) target := by
  have hlen := h.length
  refine ⟨h.target_eq, ?_, ?_⟩
  · intro d hd
    rcases List.mem_append.mp hd with hd | hd
    · exact h.plain d hd
    · rw [List.mem_singleton.mp hd]
      exact hc
  · rw [List.length_append, List.length_singleton]
    omega

namespace Inv
variable {t : List (Event P)} {s : State P} {l : Line}

/-- One turn of the loop: it stops, sleeps, or takes the first character of the queue. -/
theorem turn (h : Inv t s l) {p : P} {n target : Nat} {env : Env}
    (hp : s.reader p = .looping n target) (hkill : env.killed = false) (hmap : env.mapped = true) :
    ∃ l', Line.Step l (turn env p n target s).2 l' ∧
      Inv ((turn env p n target s).2.toList ++ t) (turn env p n target s).1 l' := by
  have hg : Going (asked p t) (taken p t) n target := by
    have := h.readers p
    rwa [hp] at this
  have hholds : (s.reader p).holds = true := by rw [hp]; rfl
  have hlock := h.lock p hholds
  have hothers := fun q hq => h.other_not_holds (q := q) hholds hq
  have hlen := hg.length
  have htarget := hg.target_eq
  rw [Console.turn]
  by_cases hn : n = 0
  · rw [if_pos hn]
    refine ⟨l, .stay l, h.move (e := none) (by simp) (.stay l) h.shown h.ok id (.inl hothers)
      (fun _ => hlock) ⟨target, by omega, ?_⟩⟩
    show Stopped (asked p t) (taken p t) l.queue target
    rw [htarget]
    exact .full hg.plain (by omega)
  rw [if_neg hn]
  by_cases hrw : s.cons.r = s.cons.w
  · rw [if_pos hrw, hkill, if_neg Bool.false_ne_true]
    exact ⟨l, .stay l, h.move (e := none) (by simp) (.stay l) h.shown h.ok id (.inl hothers)
      (fun hh => by cases hh) ⟨hg, h.shown.queue_empty_iff.mp hrw⟩⟩
  rw [if_neg hrw]
  obtain ⟨queue, edit⟩ := l
  cases queue with
  | nil => exact absurd (h.shown.queue_empty_iff.mpr rfl) hrw
  | cons c queue =>
    obtain ⟨hc, htake⟩ := h.shown.take
    have hne : (⟨c :: queue, edit⟩ : Line).queue = [] → queue = [] := fun hq => by cases hq
    simp only [hc, hmap, Bool.not_true]
    by_cases hD : c = ctrlD
    · subst hD
      rw [if_pos rfl]
      by_cases hlt : n < target
      · -- the first character was another one, and `cons.r--` puts the `^D` back
        rw [if_pos hlt, h.shown.take_putBack]
        refine ⟨_, .stay _, h.move (e := none) (by simp) (.stay _) h.shown h.ok id (.inl hothers)
          (fun _ => hlock) ⟨(taken p t).length, hlen, ?_⟩⟩
        show Stopped (asked p t) (taken p t) (ctrlD :: queue) _
        exact .beforeCtrlD hg.plain (by omega) (List.ne_nil_of_length_pos (by omega))
      · rw [if_neg hlt]
        have hstep := Line.Step.eof p queue edit
        refine ⟨⟨queue, edit⟩, hstep, h.move (e := some (.eof p)) (by simp [Event.actor]) hstep
          htake h.ok.pop hne (.inl hothers) (fun _ => hlock) ⟨0, by omega, ?_⟩⟩
        show Stopped (asked p t) (taken p (.eof p :: t)) queue 0
        rw [taken_eof, List.length_eq_zero_iff.mp (show (taken p t).length = 0 by omega)]
        exact .ctrlD (by omega)
    · rw [if_neg hD, if_neg Bool.false_ne_true]
      have hstep := Line.Step.deliver p queue edit hD
      by_cases hnl : c = newline
      · subst hnl
        rw [if_pos rfl]
        refine ⟨⟨queue, edit⟩, hstep, h.move (e := some (.deliver p newline))
          (by simp [Event.actor]) hstep htake h.ok.pop hne (.inl hothers) (fun _ => hlock)
          ⟨(taken p t).length + 1, by omega, ?_⟩⟩
        show Stopped (asked p t) (taken p (.deliver p newline :: t)) queue _
        rw [taken_deliver]
        exact .newline hg.plain (by omega)
      · rw [if_neg hnl]
        refine ⟨⟨queue, edit⟩, hstep, h.move (e := some (.deliver p c)) (by simp [Event.actor])
          hstep htake h.ok.pop hne (.inl hothers) (fun _ => hlock) ?_⟩
        show Going (asked p t) (taken p (.deliver p c :: t)) (n - 1) target
        rw [taken_deliver]
        exact hg.deliver hn (by simp [endsLine, hD, hnl])

theorem step (h : Inv t s l) {e : Option (Event P)} {s' : State P} (hs : Step s e s') :
    ∃ l', Line.Step l e l' ∧ Inv (e.toList ++ t) s' l' := by
  obtain ⟨lab, hquiet, hs⟩ := hs
  cases lab with
  | intr c =>
    rw [exec] at hs
    split at hs
    · cases hs
      exact h.intr ‹_› c
    · cases hs
  | call p n =>
    rw [exec] at hs
    split at hs <;> cases hs
    exact ⟨l, .call l p n, h.call n⟩
  | acquire p =>
    rw [exec] at hs
    split at hs
    · split at hs <;> cases hs
      exact ⟨l, .stay l, h.acquire ‹_› ‹_›⟩
    · cases hs
  | turn p env =>
    rw [exec] at hs
    split at hs
    · have hturn := h.turn ‹_› hquiet.1 hquiet.2
      rwa [Option.some.inj hs] at hturn
    · cases hs
  | release p =>
    rw [exec] at hs
    split at hs <;> cases hs
    · exact ⟨l, .ret l p _, h.release ‹_›⟩
    · have := h.readers p
      simp_all [Follows]

end Inv

theorem turn_ne_ret (env : Env) (p q : P) (n target : Nat) (s : State P) (r : Int) :
    (turn env p n target s).2 ≠ some (.ret q r) := by
  simp only [turn]
  split_ifs <;> simp

theorem Inv.stopped {t : List (Event P)} {s s' : State P} {l : Line} (h : Inv t s l) {p : P}
    {r : Int} (hs : Step s (some (.ret p r)) s') :
    ∃ m : Nat, r = m ∧ Stopped (asked p t) (taken p t) l.queue m := by
  obtain ⟨lab, -, hs⟩ := hs
  cases lab with
  | intr c =>
    rw [exec] at hs
    split at hs <;> cases hs
  | call q n =>
    rw [exec] at hs
    split at hs <;> cases hs
  | acquire q =>
    rw [exec] at hs
    split at hs
    · split at hs <;> cases hs
    · cases hs
  | turn q env =>
    rw [exec] at hs
    split at hs
    · exact absurd (congrArg Prod.snd (Option.some.inj hs)) (turn_ne_ret _ _ _ _ _ _ _)
    · cases hs
  | release q =>
    have hq := h.readers q
    rw [exec] at hs
    split at hs
    · rename_i n target hrd
      cases hs
      rw [hrd] at hq
      obtain ⟨m, hm, hstop⟩ := hq
      exact ⟨m, by omega, hstop⟩
    · rename_i hrd
      rw [hrd] at hq
      exact hq.elim
    · cases hs

theorem line_of_run {buf : Nat → Byte} {t : List (Event P)} {s : State P}
    (h : Run Step (init P buf) t s) : ∃ l, Inv t s l ∧ ∀ p r t', t = .ret p r :: t' →
      ∃ m : Nat, r = m ∧ Stopped (asked p t') (taken p t') l.queue m := by
  induction h with
  | refl => exact ⟨_, .init buf, fun _ _ _ ht => by cases ht⟩
  | silent _ hs ih =>
    obtain ⟨l, hl, hret⟩ := ih
    obtain ⟨l', hstep, hl'⟩ := hl.step hs
    cases hstep
    exact ⟨l, hl', hret⟩
  | event _ hs ih =>
    obtain ⟨l, hl, -⟩ := ih
    obtain ⟨l', hstep, hl'⟩ := hl.step hs
    refine ⟨l', hl', ?_⟩
    intro p r t' ht
    cases ht
    cases hstep
    exact hl.stopped hs

/-- In every run the ring shows a line that the same history leads to, a full ring has nothing to edit
and no sleeping reader, and a call that returns took the next committed characters. -/
theorem console_line_discipline {buf : Nat → Byte} {t : List (Event P)} {s : State P}
    (h : Run Step (init P buf) t s) :
    ∃ l, Run Line.Step Line.empty t l ∧ Shows s.cons l ∧ l.size ≤ INPUT_BUF ∧
      newline ∉ l.edit ∧ ctrlD ∉ l.edit ∧
      (l.size = INPUT_BUF → l.edit = [] ∧ ∀ p n target, s.reader p ≠ .asleep n target) ∧
      ∀ p r t', t = .ret p r :: t' →
        ∃ m : Nat, r = m ∧ Stopped (asked p t') (taken p t') l.queue m := by
  obtain ⟨l, hl, hret⟩ := line_of_run h
  refine ⟨l, hl.run, hl.shown, hl.ok.bound, ?_, ?_, ?_, hret⟩
  · exact fun hm => absurd (hl.ok.edit_plain _ hm) (by decide)
  · exact fun hm => absurd (hl.ok.edit_plain _ hm) (by decide)
  · intro hfull
    refine ⟨hl.ok.full hfull, ?_⟩
    intro p n target hp
    have hsleep := hl.readers p
    rw [hp] at hsleep
    rw [Line.size, hl.ok.full hfull, hsleep.2] at hfull
    exact absurd hfull (by decide)

end

/-- A reader asks for two characters, and `a` and a newline are typed. -/
def typed : List {l : Label (Fin 1) // l.Quiet} :=
  [⟨.call 0 2, trivial⟩, ⟨.intr 0x61, trivial⟩, ⟨.acquire 0, trivial⟩,
    ⟨.turn 0 ⟨false, true⟩, rfl, rfl⟩, ⟨.intr carriageReturn, trivial⟩, ⟨.acquire 0, trivial⟩,
    ⟨.turn 0 ⟨false, true⟩, rfl, rfl⟩, ⟨.turn 0 ⟨false, true⟩, rfl, rfl⟩, ⟨.release 0, trivial⟩]

theorem console_line_discipline_typed :
    ∃ (t : List (Event (Fin 1))) (s : State (Fin 1)) (l : Line),
      Run Step (init (Fin 1) fun _ => 0) (.ret 0 2 :: t) s ∧ Shows s.cons l ∧
      ∃ m : Nat, (2 : Int) = m ∧ Stopped (asked 0 t) (taken 0 t) l.queue m := by
  have hsome : (trace (fun l => exec l.1) typed (init (Fin 1) fun _ => 0, [])).map Prod.snd =
      some [.ret 0 2, .deliver 0 newline, .deliver 0 0x61, .input carriageReturn, .input 0x61,
        .call 0 2] := by decide
  obtain ⟨⟨s, t⟩, hs, ht⟩ := Option.map_eq_some_iff.mp hsome
  have hrun : Run Step (init (Fin 1) fun _ => 0) t s :=
    .trace (fun l _ _ _ he => ⟨l.1, l.2, he⟩) .refl hs
  obtain rfl : t = _ := ht
  obtain ⟨l, -, hshown, -, -, -, -, hret⟩ := console_line_discipline hrun
  exact ⟨_, s, l, hrun, hshown, hret _ _ _ rfl⟩

end Xv6.Console
