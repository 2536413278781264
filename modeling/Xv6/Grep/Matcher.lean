import Mathlib.Computability.Language
import Xv6.Foundation.Fuel
import Xv6.Grep.Model

/-!
# What the matcher decides

A pattern denotes a language: it is read from left to right as a list of characters and starred
characters, with an anchor at either end. `match` finds a substring of the text in that language, or
tells that there is none.
-/

namespace Xv6.Grep

open Xv6.Foundation Computability

set_option autoImplicit false

/-! ## Patterns -/

inductive Item where
  | one (c : Byte)
  | star (c : Byte)
  deriving DecidableEq

/-- What follows the `^` of a pattern, if there is one. -/
structure Body where
  items : List Item
  toEnd : Bool
  deriving DecidableEq

def Body.push (i : Item) (b : Body) : Body := ⟨i :: b.items, b.toEnd⟩

def readBody : List Byte → Body
  | [] => ⟨[], false⟩
  | [c] => if c = DOLLAR then ⟨[], true⟩ else ⟨[.one c], false⟩
  | c :: d :: re =>
    if d = STAR then (readBody re).push (.star c) else (readBody (d :: re)).push (.one c)

def Stands (c t : Byte) : Prop := c = DOT ∨ c = t

instance (c t : Byte) : Decidable (Stands c t) := inferInstanceAs (Decidable (_ ∨ _))

def charLang (c : Byte) : Language Byte := {w | ∃ t, w = [t] ∧ Stands c t}

def Item.lang : Item → Language Byte
  | .one c => charLang c
  | .star c => (charLang c)∗

def Body.lang (b : Body) : Language Byte := (b.items.map Item.lang).prod

/-- The body matches a prefix of the text, and all of it if it ends with `$`. -/
def Body.Here (b : Body) (text : List Byte) : Prop :=
  ∃ w rest, text = w ++ rest ∧ w ∈ b.lang ∧ (b.toEnd → rest = [])

/-- Some substring of the text, a prefix after `^`, is in the language of the pattern. -/
def Matches (re text : List Byte) : Prop :=
  if re.head? = some CARET then (readBody re.tail).Here text
  else ∃ before after, text = before ++ after ∧ (readBody re).Here after

theorem mem_charLang_mul {c : Byte} {L : Language Byte} {w : List Byte} :
    w ∈ charLang c * L ↔ ∃ t v, w = t :: v ∧ Stands c t ∧ v ∈ L := by
  rw [Language.mem_mul]
  constructor
  · rintro ⟨_, ⟨t, rfl, ht⟩, v, hv, rfl⟩
    exact ⟨t, v, rfl, ht, hv⟩
  · rintro ⟨t, v, rfl, ht, hv⟩
    exact ⟨[t], ⟨t, rfl, ht⟩, v, hv, rfl⟩

theorem kstar_mul_eq (A L : Language Byte) : A∗ * L = L + A * (A∗ * L) := by
  conv_lhs => rw [← Language.one_add_self_mul_kstar_eq_kstar]
  rw [add_mul, one_mul, mul_assoc]

namespace Body
variable {b : Body} {c : Byte} {text : List Byte}

theorem here_nil : (⟨[], false⟩ : Body).Here text :=
  ⟨[], text, rfl, Language.nil_mem_one, nofun⟩

theorem here_end : (⟨[], true⟩ : Body).Here text ↔ text = [] := by
  constructor
  · rintro ⟨w, rest, rfl, hw, hrest⟩
    rw [(Language.mem_one w).mp hw, hrest rfl]
    rfl
  · rintro rfl
    exact ⟨[], [], rfl, Language.nil_mem_one, fun _ => rfl⟩

theorem here_one : (b.push (.one c)).Here text ↔
    ∃ t rest, text = t :: rest ∧ Stands c t ∧ b.Here rest := by
  have hlang : (b.push (.one c)).lang = charLang c * b.lang := List.prod_cons
  unfold Here
  simp only [hlang, mem_charLang_mul]
  constructor
  · rintro ⟨_, rest, rfl, ⟨t, v, rfl, ht, hv⟩, hend⟩
    exact ⟨t, v ++ rest, rfl, ht, v, rest, rfl, hv, hend⟩
  · rintro ⟨t, _, rfl, ht, v, rest, rfl, hv, hend⟩
    exact ⟨t :: v, rest, rfl, ⟨t, v, rfl, ht, hv⟩, hend⟩

theorem here_star : (b.push (.star c)).Here text ↔
    b.Here text ∨ ∃ t rest, text = t :: rest ∧ Stands c t ∧ (b.push (.star c)).Here rest := by
  have hlang : (b.push (.star c)).lang = (charLang c)∗ * b.lang := List.prod_cons
  unfold Here
  simp only [hlang]
  constructor
  · rintro ⟨w, rest, rfl, hw, hend⟩
    rw [kstar_mul_eq, Language.mem_add, mem_charLang_mul] at hw
    rcases hw with hw | ⟨t, v, rfl, ht, hv⟩
    · exact .inl ⟨w, rest, rfl, hw, hend⟩
    · exact .inr ⟨t, v ++ rest, rfl, ht, v, rest, rfl, hv, hend⟩
  · rintro (⟨w, rest, rfl, hw, hend⟩ | ⟨t, _, rfl, ht, v, rest, rfl, hv, hend⟩)
    · refine ⟨w, rest, rfl, ?_, hend⟩
      rw [kstar_mul_eq, Language.mem_add]
      exact .inl hw
    · refine ⟨t :: v, rest, rfl, ?_, hend⟩
      rw [kstar_mul_eq, Language.mem_add, mem_charLang_mul]
      exact .inr ⟨t, v, rfl, ht, hv⟩

end Body

/-! ## The matcher on strings in memory -/

def StrAt (m : Bytes) : Nat → List Byte → Prop
  | a, [] => m a = 0
  | a, c :: s => m a = c ∧ c ≠ 0 ∧ StrAt m (a + 1) s

variable {m : Bytes} {a : Nat}

theorem StrAt.head_eq_zero {s : List Byte} (h : StrAt m a s) : m a = 0 ↔ s = [] := by
  cases s with
  | nil => simpa [StrAt] using h
  | cons c s => simpa [h.1] using h.2.1

theorem StrAt.tail {c : Byte} {s : List Byte} (h : StrAt m a (c :: s)) : StrAt m (a + 1) s := h.2.2

theorem decides_char {b : Body} {c : Byte} {text : List Byte} {f : Nat → Option Bool}
    (ht : StrAt m a text) (hf : ∀ t rest, text = t :: rest → Stands c t → Decides f (b.Here rest)) :
    Decides (fun k => if m a ≠ 0 ∧ Stands c (m a) then f k else some false)
      (∃ t rest, text = t :: rest ∧ Stands c t ∧ b.Here rest) := by
  cases text with
  | nil =>
    have h0 : m a = 0 := ht
    exact .of_eq (r := false) (fun k => by simp [h0]) (by simp)
  | cons t rest =>
    have hne : m a ≠ 0 := by simpa [ht.1] using ht.2.1
    by_cases hs : Stands c t
    · have hthen : ∀ k, (if m a ≠ 0 ∧ Stands c (m a) then f k else some false) = f k :=
        fun k => if_pos ⟨hne, by rwa [ht.1]⟩
      simp only [hthen]
      exact (hf t rest rfl hs).congr (by simp [hs])
    · exact .of_eq (r := false) (fun k => if_neg fun h => hs (by rw [← ht.1]; exact h.2))
        (by simp [hs])

theorem matchstar_succ (fuel : Nat) (c : Byte) (re text : Nat) :
    matchstar m (fuel + 1) c re text = (matchhere m fuel re text).bind fun found =>
      if found then some true
      else if m text ≠ 0 ∧ Stands c (m text) then matchstar m fuel c re (text + 1)
      else some false := by
  have hcond : (m text = c ∨ c = DOT) ↔ Stands c (m text) := by
    rw [Stands, or_comm, eq_comm (a := m text)]
  simp only [matchstar, hcond]

theorem matchstar_decides {b : Body} {re : Nat} (c : Byte)
    (hb : ∀ a text, StrAt m a text → Decides (matchhere m · re a) (b.Here text)) {text : List Byte} (ht : StrAt m a text) :
    Decides (matchstar m · c re a) ((b.push (.star c)).Here text) := by
  induction text generalizing a with
  | nil =>
    refine .congr (.call ((hb a [] ht).or_else fun _ => decides_char (b := b.push (.star c)) ht
      fun t rest h => nomatch h) fun k => matchstar_succ k c re a) Body.here_star.symm
  | cons t text ih =>
    refine .congr (.call ((hb a _ ht).or_else fun _ => decides_char ht ?_)
      fun k => matchstar_succ k c re a) Body.here_star.symm
    rintro t rest h -
    obtain ⟨rfl, rfl⟩ := List.cons.inj h
    exact ih ht.tail

theorem matchhere_nil {r a : Nat} (h0 : m r = 0) (text : List Byte) :
    Decides (matchhere m · r a) ((⟨[], false⟩ : Body).Here text) := by
  refine .call (g := fun _ => some true) (.of_eq (fun _ => rfl) ?_) fun k => ?_
  · simp [Body.here_nil]
  · rw [matchhere, if_pos h0]

theorem matchhere_end {r a : Nat} {text : List Byte} (hr : StrAt m r [DOLLAR])
    (ht : StrAt m a text) : Decides (matchhere m · r a) ((⟨[], true⟩ : Body).Here text) := by
  obtain ⟨hr, hne, hz⟩ := hr
  replace hz : m (r + 1) = 0 := hz
  refine .call (g := fun _ => some (decide (m a = 0))) (.of_eq (fun _ => rfl) ?_) fun k => ?_
  · rw [decide_eq_true_iff, ht.head_eq_zero, Body.here_end]
  · have hnot : (0 : Byte) ≠ STAR := by decide
    rw [matchhere, if_neg (by rwa [hr]), if_neg (by rwa [hz]), if_pos ⟨hr, hz⟩]

theorem matchhere_one {b : Body} {r a : Nat} {text : List Byte} (h0 : m r ≠ 0)
    (hstar : m (r + 1) ≠ STAR) (hend : ¬ (m r = DOLLAR ∧ m (r + 1) = 0))
    (hb : ∀ a text, StrAt m a text → Decides (matchhere m · (r + 1) a) (b.Here text))
    (ht : StrAt m a text) : Decides (matchhere m · r a) ((b.push (.one (m r))).Here text) := by
  have hchar := decides_char (c := m r) (f := (matchhere m · (r + 1) (a + 1))) ht
    fun t rest h _ => hb (a + 1) rest (StrAt.tail (h ▸ ht))
  refine .congr (.call hchar fun k => ?_) Body.here_one.symm
  rw [matchhere, if_neg h0, if_neg hstar, if_neg hend]
  rfl

theorem matchhere_star {b : Body} {r a : Nat} {text : List Byte} (h0 : m r ≠ 0)
    (hstar : m (r + 1) = STAR)
    (hb : ∀ a text, StrAt m a text → Decides (matchhere m · (r + 2) a) (b.Here text))
    (ht : StrAt m a text) : Decides (matchhere m · r a) ((b.push (.star (m r))).Here text) := by
  refine .call (matchstar_decides (m r) hb ht) fun k => ?_
  rw [matchhere, if_neg h0, if_pos hstar]

/-- `matchhere` ends, and tells whether a prefix of the text is in the language. -/
theorem matchhere_decides {re : List Byte} {r : Nat} (hr : StrAt m r re)
    {text : List Byte} (ht : StrAt m a text) :
    Decides (matchhere m · r a) ((readBody re).Here text) := by
  induction re using readBody.induct generalizing r a text with
  | case1 => exact matchhere_nil hr text
  | case2 => exact matchhere_end hr ht
  | case3 c hc =>
    obtain ⟨rfl, hne, hz⟩ := hr
    replace hz : m (r + 1) = 0 := hz
    have hbody : readBody [m r] = Body.push (.one (m r)) ⟨[], false⟩ := by
      rw [readBody, if_neg hc]
      rfl
    rw [hbody]
    exact matchhere_one hne (by rw [hz]; decide) (fun h => hc h.1)
      (fun _ text _ => matchhere_nil hz text) ht
  | case4 c re ih =>
    obtain ⟨rfl, hne, hstar, -, hrest⟩ := hr
    have hbody : readBody (m r :: STAR :: re) = (readBody re).push (.star (m r)) := by
      rw [readBody, if_pos rfl]
    rw [hbody]
    exact matchhere_star hne hstar (fun _ _ => ih hrest) ht
  | case5 c d re hd ih =>
    obtain ⟨rfl, hne, hrest⟩ := hr
    have hbody : readBody (m r :: d :: re) = (readBody (d :: re)).push (.one (m r)) := by
      rw [readBody, if_neg hd]
    have hnext : m (r + 1) = d := hrest.1
    rw [hbody]
    exact matchhere_one hne (by rwa [hnext]) (fun h => hrest.2.1 (hnext.symm.trans h.2))
      (fun _ _ => ih hrest) ht

theorem matchFrom_decides {b : Body} {re : Nat}
    (hb : ∀ a text, StrAt m a text → Decides (matchhere m · re a) (b.Here text)) {text : List Byte} (ht : StrAt m a text) :
    Decides (matchFrom m · re a) (∃ before after, text = before ++ after ∧ b.Here after) := by
  induction text generalizing a with
  | nil =>
    have h0 : m a = 0 := ht
    have hno : Decides (fun _ => some false) False := .of_eq (fun _ => rfl) (by simp)
    refine .congr (.call ((hb a [] ht).or_else fun _ => hno) fun k => ?_) ?_
    · simp [matchFrom, h0]
    · simp
  | cons t text ih =>
    have hne : m a ≠ 0 := by simpa [ht.1] using ht.2.1
    refine .congr (.call ((hb a _ ht).or_else fun _ => ih ht.tail) fun k => ?_) ?_
    · rw [matchFrom]
      simp only [hne, ne_eq, not_false_eq_true, if_true]
    · constructor
      · rintro (h | ⟨before, after, rfl, h⟩)
        · exact ⟨[], _, rfl, h⟩
        · exact ⟨t :: before, after, rfl, h⟩
      · rintro ⟨before, after, htext, h⟩
        cases before with
        | nil =>
          rw [List.nil_append] at htext
          exact .inl (htext ▸ h)
        | cons u before =>
          obtain ⟨rfl, rfl⟩ := List.cons.inj htext
          exact .inr ⟨before, after, rfl, h⟩

theorem matchRe_decides {re text : List Byte} {r a : Nat} (hr : StrAt m r re)
    (ht : StrAt m a text) : Decides (fun fuel => matchRe m fuel r a) (Matches re text) := by
  unfold matchRe Matches
  cases re with
  | nil =>
    have h0 : m r = 0 := hr
    simp only [h0, if_neg (show (0 : Byte) ≠ CARET by decide)]
    exact matchFrom_decides (fun _ _ => matchhere_decides hr) ht
  | cons c re =>
    rw [hr.1]
    by_cases hc : c = CARET
    · simp only [hc, if_true, List.head?_cons, List.tail_cons]
      exact matchhere_decides hr.tail ht
    · simp only [hc, if_false, List.head?_cons, Option.some.injEq]
      exact matchFrom_decides (fun _ _ => matchhere_decides hr) ht

/-- The matcher ends on every pattern and text, and decides whether a substring of the text is in
the language of the pattern. -/
theorem match_decides_language (m : Bytes) (re text : List Byte) (r a : Nat) (hr : StrAt m r re)
    (ht : StrAt m a text) :
    Decides (fun fuel => matchRe m fuel r a) (Matches re text) ∧
    (∃ x, Settles (matchhere m · r a) x) ∧ ∀ c, ∃ x, Settles (matchstar m · c r a) x := by
  refine ⟨matchRe_decides hr ht, ?_, fun c => ?_⟩
  · obtain ⟨x, hx, -⟩ := matchhere_decides hr ht
    exact ⟨x, hx⟩
  · obtain ⟨x, hx, -⟩ := matchstar_decides c (fun _ _ => matchhere_decides hr) ht
    exact ⟨x, hx⟩

/-- The pattern `^a*$` at address 10 and the text `aa` at address 20. -/
def smallStrings : Bytes := fun i =>
  if i < 20 then [CARET, 97, STAR, DOLLAR].getD (i - 10) 0 else [97, 97].getD (i - 20) 0

theorem match_decides_language_small :
    (StrAt smallStrings 10 [CARET, 97, STAR, DOLLAR] ∧ StrAt smallStrings 20 [97, 97]) ∧
    matchRe smallStrings 6 10 20 = some true ∧
    Decides (fun fuel => matchRe smallStrings fuel 10 20)
      (Matches [CARET, 97, STAR, DOLLAR] [97, 97]) := by
  have hr : StrAt smallStrings 10 [CARET, 97, STAR, DOLLAR] := by simp [StrAt]; decide
  have ht : StrAt smallStrings 20 [97, 97] := by simp [StrAt]; decide
  exact ⟨⟨hr, ht⟩, by decide, (match_decides_language _ _ _ 10 20 hr ht).1⟩

end Xv6.Grep
