import Mathlib.Data.List.GetD
import Mathlib.Data.List.TakeWhile
import Xv6.Grep.Matcher
import Xv6.Library.Memmove

/-!
# What grep prints

`grep` carries the unfinished line at the end of its buffer over to the next `read`. It prints the
matching lines among those that end with a newline, up to the first one that does not fit into the
buffer; where the input is split makes no difference.
-/

namespace Xv6.Grep

open Xv6.Foundation Function

set_option autoImplicit false

/-! ## Lines -/

def terminated : List Byte → List (List Byte)
  | [] => []
  | c :: s =>
    if c = NL then [NL] :: terminated s
    else
      match terminated s with
      | [] => []
      | l :: ls => (c :: l) :: ls

def lastPart : List Byte → List Byte
  | [] => []
  | c :: s => if c = NL ∨ NL ∈ s then lastPart s else c :: s

/-- The lines of a text, each with its newline. -/
def lines (s : List Byte) : List (List Byte) :=
  terminated s ++ if lastPart s = [] then [] else [lastPart s]

variable {s : List Byte} {w : World} {a : Nat} {split : Nat → Nat} {buf pattern : Nat} {c : Byte}
  {mem : Bytes} {ls : List (List Byte)} {carry : List Byte}

theorem terminated_of_not_mem (h : NL ∉ s) : terminated s = [] := by
  induction s with
  | nil => rfl
  | cons c s ih =>
    obtain ⟨hc, hs⟩ := List.ne_and_not_mem_of_not_mem_cons h
    simp [terminated, hc.symm, ih hs]

theorem terminated_line {l s : List Byte} (h : NL ∉ l) :
    terminated (l ++ NL :: s) = (l ++ [NL]) :: terminated s := by
  induction l with
  | nil => simp [terminated]
  | cons c l ih =>
    obtain ⟨hc, hl⟩ := List.ne_and_not_mem_of_not_mem_cons h
    simp [terminated, hc.symm, ih hl]

theorem lastPart_of_not_mem (h : NL ∉ s) : lastPart s = s := by
  cases s with
  | nil => rfl
  | cons c s =>
    obtain ⟨hc, hs⟩ := List.ne_and_not_mem_of_not_mem_cons h
    rw [lastPart, if_neg (by simp [hc.symm, hs])]

theorem lastPart_line (l s : List Byte) : lastPart (l ++ NL :: s) = lastPart s := by
  induction l with
  | nil => simp [lastPart]
  | cons c l ih => simp [lastPart, ih]

theorem line_cases (s : List Byte) : NL ∉ s ∨ ∃ l s', s = l ++ NL :: s' ∧ NL ∉ l := by
  by_cases h : NL ∈ s
  · obtain ⟨l, s', rfl, hl⟩ := List.eq_append_cons_of_mem h
    exact .inr ⟨l, s', rfl, hl⟩
  · exact .inl h

theorem line_induction {motive : List Byte → Prop} (last : ∀ s, NL ∉ s → motive s)
    (line : ∀ l s, NL ∉ l → motive s → motive (l ++ NL :: s)) (s : List Byte) : motive s := by
  generalize hn : s.length = n
  induction n using Nat.strong_induction_on generalizing s with
  | h n ih =>
    rcases line_cases s with h | ⟨l, s', rfl, hl⟩
    · exact last s h
    · exact line l s' hl (ih s'.length (by simp at hn; omega) s' rfl)

theorem terminated_append (s t : List Byte) :
    terminated (s ++ t) = terminated s ++ terminated (lastPart s ++ t) := by
  induction s using line_induction with
  | last s h => rw [terminated_of_not_mem h, lastPart_of_not_mem h, List.nil_append]
  | line l s hl ih =>
    rw [List.append_assoc, List.cons_append, terminated_line hl, terminated_line hl, lastPart_line,
      ih, List.cons_append]

theorem flatten_terminated (s : List Byte) : (terminated s).flatten ++ lastPart s = s := by
  induction s using line_induction with
  | last s h => simp [terminated_of_not_mem h, lastPart_of_not_mem h]
  | line l s hl ih => simp [terminated_line hl, lastPart_line, ih]

theorem not_mem_lastPart (s : List Byte) : NL ∉ lastPart s := by
  induction s using line_induction with
  | last s h => rwa [lastPart_of_not_mem h]
  | line l s _ ih => rwa [lastPart_line]

theorem length_lastPart_le (s : List Byte) : (lastPart s).length ≤ s.length := by
  have h := congrArg List.length (flatten_terminated s)
  rw [List.length_append] at h
  omega

theorem length_le_of_mem_terminated {l s : List Byte} (h : l ∈ terminated s) :
    l.length ≤ s.length := by
  have hle := (List.sublist_flatten_of_mem h).length_le
  rw [← flatten_terminated s, List.length_append]
  omega

theorem nl_mem_of_mem_terminated {l s : List Byte} (h : l ∈ terminated s) : NL ∈ l := by
  induction s using line_induction with
  | last s hs =>
    rw [terminated_of_not_mem hs] at h
    cases h
  | line l' s hl ih =>
    rw [terminated_line hl] at h
    rcases List.mem_cons.mp h with rfl | h
    · simp
    · exact ih h

/-- The lines before the first one that does not fit into the buffer together with a NUL. -/
def reached (s : List Byte) : List (List Byte) := (terminated s).takeWhile (·.length < BUFSIZE)

/-- The other lines: from the first one that does not fit on, and one without a newline at the end. -/
def missed (s : List Byte) : List (List Byte) :=
  (terminated s).dropWhile (·.length < BUFSIZE) ++ if lastPart s = [] then [] else [lastPart s]

theorem lines_eq (s : List Byte) : lines s = reached s ++ missed s := by
  rw [lines, reached, missed, ← List.append_assoc, List.takeWhile_append_dropWhile]

theorem ne_nil_of_mem_missed {l s : List Byte} (h : l ∈ missed s) : l ≠ [] := by
  rcases List.mem_append.mp h with h | h
  · exact List.ne_nil_of_mem (nl_mem_of_mem_terminated ((List.dropWhile_sublist _).subset h))
  · split at h
    · cases h
    · rwa [List.mem_singleton.mp h]

theorem reached_append {s t : List Byte} (h : s.length < BUFSIZE) :
    reached (s ++ t) = terminated s ++ reached (lastPart s ++ t) := by
  rw [reached, terminated_append, List.takeWhile_append_of_pos fun l hl => ?_]
  · rfl
  · exact decide_eq_true ((length_le_of_mem_terminated hl).trans_lt h)

theorem reached_full {s t : List Byte} (hs : NL ∉ s) (h : BUFSIZE ≤ s.length + 1) :
    reached (s ++ t) = [] := by
  rcases line_cases t with ht | ⟨l, t, rfl, hl⟩
  · rw [reached, terminated_of_not_mem (by simp [hs, ht])]
    rfl
  · rw [reached, ← List.append_assoc, terminated_line (by simp [hs, hl]), List.takeWhile_cons_of_neg]
    simp
    omega

def content (l : List Byte) : List Byte := l.takeWhile (· ≠ NL)

theorem ne_of_not_mem {l : List Byte} (h : NL ∉ l) : ∀ c ∈ l, decide (c ≠ NL) = true := by
  intro c hc
  simpa using fun he : c = NL => h (he ▸ hc)

theorem content_line {l : List Byte} (h : NL ∉ l) : content (l ++ [NL]) = l := by
  rw [content, List.takeWhile_append_of_pos (ne_of_not_mem h)]
  simp

open Classical in
/-- The lines that match a pattern, one after the other. -/
noncomputable def selected (re : List Byte) (ls : List (List Byte)) : List Byte :=
  (ls.filter fun l => Matches re (content l)).flatten

theorem selected_nil (re : List Byte) : selected re [] = [] := rfl

theorem selected_cons_of_matches {re l : List Byte}
    (h : Matches re (content l)) : selected re (l :: ls) = l ++ selected re ls := by
  simp [selected, h]

theorem selected_cons_of_not {re l : List Byte}
    (h : ¬ Matches re (content l)) : selected re (l :: ls) = selected re ls := by
  simp [selected, h]

theorem selected_append (re : List Byte) (ls ls' : List (List Byte)) :
    selected re (ls ++ ls') = selected re ls ++ selected re ls' := by
  simp [selected]

theorem selected_eq_nil {re : List Byte} (hls : ∀ l ∈ ls, l ≠ []) :
    selected re ls = [] ↔ ∀ l ∈ ls, ¬ Matches re (content l) := by
  rw [selected, List.flatten_eq_nil_iff]
  constructor
  · intro h l hl hm
    exact hls l hl (h l (List.mem_filter.mpr ⟨hl, by simpa using hm⟩))
  · intro h l hl
    obtain ⟨hl, hm⟩ := List.mem_filter.mp hl
    exact absurd (by simpa using hm) (h l hl)

/-! ## Strings in memory -/

variable {m : Bytes}

theorem strAt_iff : StrAt m a s ↔ 0 ∉ s ∧ ∀ i ≤ s.length, m (a + i) = s.getD i 0 := by
  induction s generalizing a with
  | nil => simp [StrAt]
  | cons c s ih =>
    rw [StrAt, ih]
    constructor
    · rintro ⟨hc, hne, hnot, hs⟩
      refine ⟨List.not_mem_cons_of_ne_of_not_mem hne.symm hnot, fun i hi => ?_⟩
      cases i with
      | zero => simpa using hc
      | succ i =>
        rw [show a + (i + 1) = a + 1 + i by omega]
        exact hs i (by simpa using hi)
    · rintro ⟨hnot, hs⟩
      obtain ⟨hne, hnot⟩ := List.ne_and_not_mem_of_not_mem_cons hnot
      refine ⟨hs 0 (Nat.zero_le _), hne.symm, hnot, fun i hi => ?_⟩
      rw [show a + 1 + i = a + (i + 1) by omega]
      exact hs (i + 1) (by simpa using hi)

theorem StrAt.congr {m' : Bytes} (h : StrAt m a s)
    (heq : ∀ i, a ≤ i → i ≤ a + s.length → m' i = m i) : StrAt m' a s := by
  rw [strAt_iff] at h ⊢
  refine ⟨h.1, fun i hi => ?_⟩
  rw [heq (a + i) (by omega) (by omega)]
  exact h.2 i hi

theorem StrAt.right {s t : List Byte} (h : StrAt m a (s ++ t)) : StrAt m (a + s.length) t := by
  induction s generalizing a with
  | nil => exact h
  | cons c s ih =>
    have := ih h.tail
    rwa [List.length_cons, show a + (s.length + 1) = a + 1 + s.length by omega]

theorem StrAt.left {s t : List Byte} (h : StrAt m a (s ++ c :: t)) :
    StrAt (store m (a + s.length) 0) a s := by
  rw [strAt_iff] at h ⊢
  refine ⟨fun h0 => h.1 (List.mem_append_left _ h0), fun i hi => ?_⟩
  rcases Nat.lt_or_eq_of_le hi with hi | rfl
  · rw [store, update_of_ne (by omega), h.2 i (by simp; omega), List.getD_append _ _ _ _ hi]
  · simp [store]

theorem strchr_succ {k a : Nat} (h0 : m a ≠ 0) (hc : m a ≠ c) :
    strchr m c (k + 1) a = strchr m c k (a + 1) := by
  rw [strchr, if_neg h0, if_neg hc]

theorem strchr_none (h : StrAt m a s) (hs : NL ∉ s) : Settles (strchr m NL · a) none := by
  induction s generalizing a with
  | nil =>
    have h0 : m a = 0 := h
    exact .call (g := fun _ => some none) (.of_eq fun _ => rfl) fun k => by rw [strchr, if_pos h0]
  | cons c s ih =>
    obtain ⟨hc, hs⟩ := List.ne_and_not_mem_of_not_mem_cons hs
    exact .call (ih h.tail hs) fun k => strchr_succ (by rw [h.1]; exact h.2.1) (by rw [h.1]; exact hc.symm)

theorem strchr_some {l s : List Byte} (h : StrAt m a (l ++ NL :: s)) (hl : NL ∉ l) :
    Settles (strchr m NL · a) (some (a + l.length)) := by
  induction l generalizing a with
  | nil =>
    have hc : m a = NL := h.1
    have h0 : m a ≠ 0 := by rw [hc]; decide
    exact .call (g := fun _ => some (some a)) (.of_eq fun _ => rfl)
      fun k => by rw [strchr, if_neg h0, if_pos hc]
  | cons c l ih =>
    obtain ⟨hc, hl⟩ := List.ne_and_not_mem_of_not_mem_cons hl
    have hrec := ih h.tail hl
    rw [show a + 1 + l.length = a + (c :: l).length by simp; omega] at hrec
    exact .call hrec fun k => strchr_succ (by rw [h.1]; exact h.2.1) (by rw [h.1]; exact hc.symm)

theorem bytesAt_eq (h : ∀ i < s.length, m (a + i) = s.getD i 0) : bytesAt m a s.length = s := by
  induction s generalizing a with
  | nil => rfl
  | cons c s ih =>
    rw [List.length_cons, bytesAt, ih fun i hi => ?_]
    · rw [show m a = c from h 0 (by simp)]
    · rw [show a + 1 + i = a + (i + 1) by omega]
      exact h (i + 1) (by simpa using hi)

/-! ## The lines in the buffer -/

/-- No address from `lo` up to `hi` belongs to the pattern. -/
def Apart (pattern : Nat) (re : List Byte) (lo hi : Nat) : Prop :=
  ∀ i, lo ≤ i → i < hi → i < pattern ∨ pattern + re.length < i

/-- What a line leaves in memory and in the output: `*q` is a newline again only after a match. -/
def World.line (w : World) (p q : Nat) (found : Bool) : World :=
  let mem := store w.mem q 0
  if found then
    let mem := store mem q NL
    { w with mem := mem, out := w.out ++ bytesAt mem p (q + 1 - p) }
  else { w with mem := mem }

theorem scan_succ (pattern fuel : Nat) (w : World) (p : Nat) :
    scan pattern (fuel + 1) w p = (strchr w.mem NL fuel p).bind fun
      | none => some (w, p)
      | some q => (matchRe (store w.mem q 0) fuel pattern p).bind fun found =>
          scan pattern fuel (w.line p q found) (q + 1) := by
  rw [scan]
  congr 1
  funext o
  cases o with
  | none => rfl
  | some q =>
    simp only
    congr 1
    funext found
    cases found <;> rfl

theorem World.line_mem {p q i : Nat} {found : Bool} (hi : i ≠ q) :
    (w.line p q found).mem i = w.mem i := by
  cases found <;> simp [World.line, store, hi]

theorem World.line_out {p : Nat} {l s re : List Byte} {found : Bool}
    (hs : StrAt w.mem p (l ++ NL :: s)) (hl : NL ∉ l) (hfound : found = true ↔ Matches re l) :
    (w.line p (p + l.length) found).out = w.out ++ selected re [l ++ [NL]] := by
  have hc := content_line hl
  cases found with
  | false =>
    have hno : ¬ Matches re (content (l ++ [NL])) := by
      rw [hc]
      exact fun h => nomatch hfound.mpr h
    rw [selected_cons_of_not hno, selected_nil, List.append_nil]
    rfl
  | true =>
    have hyes : Matches re (content (l ++ [NL])) := by
      rw [hc]
      exact hfound.mp rfl
    have hlen : p + l.length + 1 - p = (l ++ [NL]).length := by
      rw [List.length_append, List.length_singleton]
      omega
    rw [selected_cons_of_matches hyes, selected_nil, List.append_nil]
    show w.out ++ bytesAt _ p (p + l.length + 1 - p) = _
    rw [hlen, bytesAt_eq fun i hi => ?_]
    rw [List.length_append, List.length_singleton] at hi
    rcases Nat.lt_or_eq_of_le (Nat.le_of_lt_succ hi) with hi | rfl
    · rw [store, update_of_ne (by omega), store, update_of_ne (by omega),
        (strAt_iff.mp hs).2 i (by simp; omega), List.getD_append _ _ _ _ hi,
        List.getD_append _ _ _ _ hi]
    · simp [store]

/-- The loop over the lines ends at the unfinished one, with the others printed if they match. -/
theorem scan_settles {pattern : Nat} {re : List Byte} (s : List Byte) {p : Nat}
    (hs : StrAt w.mem p s) (hre : StrAt w.mem pattern re)
    (hap : Apart pattern re p (p + s.length)) : ∃ mem q, Settles (scan pattern · w p)
        (⟨mem, w.input, w.out ++ selected re (terminated s)⟩, q) ∧
      q + (lastPart s).length = p + s.length ∧ StrAt mem q (lastPart s) ∧
      ∀ i, i < p ∨ p + s.length ≤ i → mem i = w.mem i := by
  induction s using line_induction generalizing w p with
  | last s h =>
    refine ⟨w.mem, p, ?_, ?_, ?_, fun _ _ => rfl⟩
    · refine .call (.bind (strchr_none hs h) ?_) fun k => scan_succ pattern k w p
      rw [terminated_of_not_mem h, selected_nil, List.append_nil]
      exact .of_eq fun _ => rfl
    · rw [lastPart_of_not_mem h]
    · rwa [lastPart_of_not_mem h]
  | line l s hl ih =>
    have hlen : (l ++ NL :: s).length = l.length + (s.length + 1) := by simp
    rw [hlen] at hap ⊢
    have hq := hap (p + l.length) (by omega) (by omega)
    -- the matcher reads the line with its newline patched out
    obtain ⟨found, hmatch, hfound⟩ := matchRe_decides
      (hre.congr fun i h1 h2 => update_of_ne (by omega) _ _) hs.left
    set w' := w.line p (p + l.length) found with hw'
    have hsame : ∀ i, i ≠ p + l.length → w'.mem i = w.mem i := fun i hi => World.line_mem hi
    have hrest : StrAt w'.mem (p + l.length + 1) s :=
      (StrAt.tail hs.right).congr fun i h1 h2 => hsame i (by omega)
    obtain ⟨mem, q, hscan, hend, hlast, hmem⟩ := ih hrest
      (hre.congr fun i h1 h2 => hsame i (by omega)) fun i h1 h2 => hap i (by omega) (by omega)
    refine ⟨mem, q, ?_, ?_, ?_, fun i hi => ?_⟩
    · refine .call (.bind (strchr_some hs hl) (.bind hmatch ?_)) fun k => scan_succ pattern k w p
      rw [terminated_line hl, ← List.singleton_append, selected_append, ← List.append_assoc,
        ← World.line_out hs hl hfound, ← hw']
      have hin : w'.input = w.input := by cases found <;> rfl
      rwa [hin] at hscan
    · rw [lastPart_line]
      omega
    · rwa [lastPart_line]
    · rw [hmem i (by omega), hsame i (by omega)]

/-! ## The unfinished line -/

theorem moveUp_spec {dst src : Nat} (h : dst < src) (n : Nat) (m : Bytes) (i : Nat) :
    moveUp m dst src n i = if dst ≤ i ∧ i < dst + n then m (src + (i - dst)) else m i := by
  induction n generalizing m dst src with
  | zero => rw [moveUp, if_neg (by omega)]
  | succ n ih =>
    rw [moveUp, ih (by omega)]
    by_cases hi : i = dst
    · subst hi
      rw [if_neg (by omega), if_pos (by omega), store, update_self, Nat.sub_self,
        Nat.add_zero]
    · by_cases hin : dst + 1 ≤ i ∧ i < dst + 1 + n
      · rw [if_pos hin, if_pos (by omega), store, update_of_ne (by omega)]
        congr 1
        omega
      · rw [if_neg hin, if_neg (by omega), store, update_of_ne hi]

theorem moveDown_spec {dst src : Nat} (h : src ≤ dst) (n : Nat) (m : Bytes) (i : Nat) :
    moveDown m dst src n i = if dst ≤ i ∧ i < dst + n then m (src + (i - dst)) else m i := by
  induction n generalizing m with
  | zero => rw [moveDown, if_neg (by omega)]
  | succ n ih =>
    rw [moveDown, ih]
    by_cases hi : i = dst + n
    · subst hi
      rw [if_neg (by omega), if_pos (by omega), store, update_self, Nat.add_sub_cancel_left]
    · by_cases hin : dst ≤ i ∧ i < dst + n
      · rw [if_pos hin, if_pos (by omega), store, update_of_ne (by omega)]
      · rw [if_neg hin, if_neg (by omega), store, update_of_ne hi]

theorem memmove_apply (m : Bytes) (dst src n i : Nat) :
    memmove m dst src n i = if dst ≤ i ∧ i < dst + n then m (src + (i - dst)) else m i := by
  unfold memmove
  split
  · exact moveUp_spec ‹_› n m i
  · exact moveDown_spec (by omega) n m i

/-- `memmove` is that of `ulib.c`, with addresses that do not wrap. -/
theorem user_memmove_refines (m : Bytes) {dst src : Library.Addr} {n : BitVec 32} (hn : 0 ≤ n.toInt)
    (hsrc : src.toNat + n.toNat ≤ 2 ^ 64) (hdst : dst.toNat + n.toNat ≤ 2 ^ 64) (a : Library.Addr) :
    (Library.User.memmove (fun a => m a.toNat) dst src n).2 a =
      memmove m dst.toNat src.toNat n.toNat a.toNat := by
  rw [Library.user_memmove_eq hn hsrc hdst, memmove_apply]
  simp only [Library.moved]
  by_cases hin : dst.toNat ≤ a.toNat ∧ a.toNat < dst.toNat + n.toNat
  · have hoff : (a - dst).toNat = a.toNat - dst.toNat := BitVec.toNat_sub_of_le hin.1
    have hread : (src + (a - dst)).toNat = src.toNat + (a.toNat - dst.toNat) := by
      rw [BitVec.toNat_add, hoff, Nat.mod_eq_of_lt (by omega)]
    rw [if_pos hin, if_pos (by omega), hread]
  · rw [if_neg hin, if_neg (by bv_omega)]

/-- The buffer begins with an unfinished line. -/
structure Carries (w : World) (buf : Nat) (carry : List Byte) : Prop where
  bytes : ∀ i < carry.length, w.mem (buf + i) = carry.getD i 0
  nul : 0 ∉ carry
  nl : NL ∉ carry
  lt : carry.length < BUFSIZE

/-- `read` of `n` bytes after the `m` that are there, and a NUL after them. -/
def World.refill (w : World) (buf m n : Nat) : World :=
  { w.read (buf + m) n with mem := store (w.read (buf + m) n).mem (buf + (m + n)) 0 }

theorem World.refill_mem {buf m n i : Nat} (hroom : m + n < BUFSIZE)
    (hi : i < buf ∨ buf + BUFSIZE ≤ i) : (w.refill buf m n).mem i = w.mem i := by
  have hread : (w.read (buf + m) n).mem i = w.mem i := if_neg (by omega)
  rw [← hread]
  exact update_of_ne (by omega) _ _

theorem Carries.refill {buf n : Nat} (h : Carries w buf carry)
    (hin : 0 ∉ w.input) (hn : n ≤ w.input.length) :
    StrAt (w.refill buf carry.length n).mem buf (carry ++ w.input.take n) := by
  rw [strAt_iff]
  refine ⟨fun h0 => ?_, fun i hi => ?_⟩
  · rcases List.mem_append.mp h0 with h0 | h0
    · exact h.nul h0
    · exact hin (List.mem_of_mem_take h0)
  · rw [List.length_append, List.length_take, Nat.min_eq_left hn] at hi
    show store _ _ _ _ = _
    rcases Nat.lt_or_eq_of_le hi with hlt | rfl
    · rw [store, update_of_ne (by omega)]
      show (if _ then _ else _) = _
      by_cases hc : i < carry.length
      · rw [if_neg (by omega), List.getD_append _ _ _ _ hc]
        exact h.bytes i hc
      · rw [if_pos (by omega), List.getD_append_right _ _ _ _ (by omega)]
        rw [show buf + i - (buf + carry.length) = i - carry.length by omega]
        rw [List.getD_eq_getElem?_getD, List.getD_eq_getElem?_getD,
          List.getElem?_take_of_lt (by omega)]
    · rw [store, update_self, List.getD_eq_default]
      simp [Nat.min_eq_left hn]

theorem Carries.move (input out : List Byte) {buf q : Nat}
    (h : StrAt mem q (lastPart s)) (hlt : (lastPart s).length < BUFSIZE) :
    Carries ⟨memmove mem buf q (lastPart s).length, input, out⟩ buf (lastPart s) := by
  obtain ⟨hnul, hbytes⟩ := strAt_iff.mp h
  refine ⟨fun i hi => ?_, hnul, not_mem_lastPart s, hlt⟩
  show memmove _ _ _ _ _ = _
  rw [memmove_apply, if_pos (by omega), Nat.add_sub_cancel_left]
  exact hbytes i hi.le

theorem readCount_eq_zero {want n : Nat} {input : List Byte} :
    readCount want n input = 0 ↔ n = 0 ∨ input = [] := by
  rw [readCount, ← List.length_eq_zero_iff]
  omega

theorem readCount_le (want n : Nat) (input : List Byte) :
    readCount want n input ≤ n ∧ readCount want n input ≤ input.length := by
  rw [readCount]
  omega

theorem grepLoop_end {buf pattern k i m : Nat}
    (hn : readCount (split i) (BUFSIZE - m - 1) w.input = 0) :
    grepLoop split buf pattern (k + 1) i w m = some w := by
  rw [grepLoop]
  exact if_pos hn

theorem grepLoop_succ {buf pattern k i m n : Nat}
    (hn : readCount (split i) (BUFSIZE - m - 1) w.input = n) (hpos : n ≠ 0) :
    grepLoop split buf pattern (k + 1) i w m =
      (scan pattern k (w.refill buf m n) buf).bind fun (w, p) =>
        grepLoop split buf pattern k (i + 1)
          { w with mem := memmove w.mem buf p (m + n - (p - buf)) } (m + n - (p - buf)) := by
  subst hn
  rw [grepLoop]
  simp only [if_neg hpos, if_pos (show 0 < m + readCount (split i) (BUFSIZE - m - 1) w.input by omega)]
  rfl

theorem grepLoop_settles (split : Nat → Nat) {re : List Byte}
    (hap : Apart pattern re buf (buf + BUFSIZE)) {i : Nat}
    (hcarry : Carries w buf carry) (hre : StrAt w.mem pattern re) (hin : 0 ∉ w.input) :
    ∃ mem rest, Settles (grepLoop split buf pattern · i w carry.length)
      ⟨mem, rest, w.out ++ selected re (reached (carry ++ w.input))⟩ := by
  generalize hlen : w.input.length = len
  induction len using Nat.strong_induction_on generalizing i w carry with
  | h len ih =>
    have hlt := hcarry.lt
    set n := readCount (split i) (BUFSIZE - carry.length - 1) w.input with hn
    obtain ⟨hroom, hnle⟩ := readCount_le (split i) (BUFSIZE - carry.length - 1) w.input
    rw [← hn] at hroom hnle
    by_cases hz : n = 0
    · have hnone : reached (carry ++ w.input) = [] := by
        rcases readCount_eq_zero.mp hz with hfull | hempty
        · exact reached_full hcarry.nl (by omega)
        · rw [hempty, List.append_nil, reached, terminated_of_not_mem hcarry.nl]
          rfl
      refine ⟨w.mem, w.input, .call (g := fun _ => some w) (.of_eq fun _ => ?_) fun k => ?_⟩
      · rw [hnone, selected_nil, List.append_nil]
      · exact grepLoop_end hz
    · set data := carry ++ w.input.take n with hdata
      have hdlen : data.length = carry.length + n := by simp [hdata, hnle]
      have hdlt : data.length < BUFSIZE := by omega
      have hsame : ∀ j, pattern ≤ j → j ≤ pattern + re.length → j < buf ∨ buf + BUFSIZE ≤ j := by
        intro j h1 h2
        by_contra hcon
        have := hap j (by omega) (by omega)
        omega
      obtain ⟨mem, q, hscan, hend, hlast, hmem⟩ := scan_settles data (hcarry.refill hin hnle)
        (hre.congr fun j h1 h2 => World.refill_mem (by omega) (hsame j h1 h2))
        fun j h1 h2 => hap j h1 (by omega)
      have hle := length_lastPart_le data
      have hqlen : carry.length + n - (q - buf) = (lastPart data).length := by omega
      have hmove : ∀ j, pattern ≤ j → j ≤ pattern + re.length →
          memmove mem buf q (lastPart data).length j = w.mem j := by
        intro j h1 h2
        have hj := hsame j h1 h2
        rw [memmove_apply, if_neg (by omega), hmem j (by omega), World.refill_mem (by omega) hj]
      obtain ⟨mem', rest, hloop⟩ := ih (w.input.drop n).length (by simp; omega) (i := i + 1)
        (Carries.move (w.input.drop n) (w.out ++ selected re (terminated data)) hlast (by omega))
        (hre.congr hmove) (fun h0 => hin (List.mem_of_mem_drop h0)) rfl
      refine ⟨mem', rest, .call (.bind hscan ?_) fun k => grepLoop_succ hn.symm hz⟩
      simp only [hqlen]
      have hsplit : carry ++ w.input = data ++ w.input.drop n := by simp [hdata]
      rw [hsplit, reached_append hdlt, selected_append, ← List.append_assoc]
      exact hloop

/-- The exact output of `grep` on any input. -/
theorem grep_settles (split : Nat → Nat) {re input : List Byte}
    (hap : Apart pattern re buf (buf + BUFSIZE)) (hre : StrAt mem pattern re) (hin : 0 ∉ input) :
    ∃ mem' rest, Settles (fun fuel => grep split buf pattern fuel ⟨mem, input, []⟩)
      ⟨mem', rest, selected re (reached input)⟩ := by
  have hcarry : Carries ⟨mem, input, []⟩ buf [] := ⟨nofun, nofun, nofun, by decide⟩
  exact grepLoop_settles split hap hcarry hre hin

/-- What `grep` prints: the output with enough fuel. -/
def Prints (split : Nat → Nat) (mem : Bytes) (buf pattern : Nat) (input out : List Byte) : Prop :=
  ∃ w : World, Settles (fun fuel => grep split buf pattern fuel ⟨mem, input, []⟩) w ∧ w.out = out

theorem Prints.unique {input out out' : List Byte} (h : Prints split mem buf pattern input out)
    (h' : Prints split mem buf pattern input out') : out = out' := by
  obtain ⟨w, hw, rfl⟩ := h
  obtain ⟨w', hw', rfl⟩ := h'
  rw [hw.unique hw']

/-- `grep` prints exactly the matching lines if and only if no line that it misses matches: none from
the first one on that fills the buffer, and not the last one if it has no newline. -/
theorem grep_prints_matching_lines (split : Nat → Nat) (mem : Bytes) (buf pattern : Nat)
    (re input : List Byte) (hap : Apart pattern re buf (buf + BUFSIZE))
    (hre : StrAt mem pattern re) (hin : 0 ∉ input) :
    Prints split mem buf pattern input (selected re (lines input)) ↔
      ∀ l ∈ missed input, ¬ Matches re (content l) := by
  obtain ⟨mem', rest, hs⟩ := grep_settles split hap hre hin
  have hprints : Prints split mem buf pattern input (selected re (reached input)) := ⟨_, hs, rfl⟩
  have hsplit : selected re (lines input) =
      selected re (reached input) ++ selected re (missed input) := by
    rw [lines_eq, selected_append]
  rw [← selected_eq_nil fun l hl => ne_nil_of_mem_missed hl]
  constructor
  · intro h
    have heq := h.unique hprints
    rw [hsplit] at heq
    exact List.append_right_eq_self.mp heq
  · intro hnil
    rw [hsplit, hnil, List.append_nil]
    exact hprints

def letterAt (c : Byte) : Bytes := fun i => if i = 0 then c else 0

theorem letterAt_strAt (hc : c ≠ 0) : StrAt (letterAt c) 0 [c] := ⟨rfl, hc, rfl⟩

theorem matches_letter_iff {l : List Byte} (hc : c ≠ CARET ∧ c ≠ DOLLAR ∧ c ≠ DOT) :
    Matches [c] l ↔ c ∈ l := by
  obtain ⟨hcaret, hdollar, hdot⟩ := hc
  have hbody : readBody [c] = Body.push (.one c) ⟨[], false⟩ := by
    rw [readBody, if_neg hdollar]
    rfl
  rw [Matches, if_neg (by simpa using hcaret), hbody]
  constructor
  · rintro ⟨before, after, rfl, h⟩
    obtain ⟨t, rest, rfl, hdot' | rfl, -⟩ := Body.here_one.mp h
    · exact absurd hdot' hdot
    · simp
  · intro h
    obtain ⟨before, rest, rfl⟩ := List.append_of_mem h
    exact ⟨before, c :: rest, rfl, Body.here_one.mpr ⟨c, rest, rfl, .inr rfl, Body.here_nil⟩⟩

theorem letter_apart (c : Byte) : Apart 0 [c] 16 (16 + BUFSIZE) :=
  fun i h _ => .inr (by simp; omega)

/-- The lines `a` and `b`, read one byte at a time, and a last line `a` that has no newline. -/
theorem grep_prints_matching_lines_small :
    Prints (fun _ => 1) (letterAt 98) 16 0 [97, NL, 98, NL, 97]
      (selected [98] (lines [97, NL, 98, NL, 97])) := by
  refine (grep_prints_matching_lines _ _ _ _ _ _ (letter_apart 98) (letterAt_strAt (by decide))
    (by decide)).mpr ?_
  have hm : missed [97, NL, 98, NL, 97] = [[97]] := by decide
  rw [hm]
  rintro l hl hmatch
  rw [matches_letter_iff (by decide), List.mem_singleton.mp hl] at hmatch
  exact absurd hmatch (by decide)

/-- A line at the end of the input without a newline is not printed, and nothing is printed after a
line that fills the buffer. -/
theorem grep_skips_lines :
    ¬ Prints (fun _ => 1) (letterAt 98) 16 0 [98] (selected [98] (lines [98])) ∧
    ¬ Prints (fun _ => 1023) (letterAt 98) 16 0 (List.replicate 1023 97 ++ [NL, 98, NL])
      (selected [98] (lines (List.replicate 1023 97 ++ [NL, 98, NL]))) := by
  have hstr : StrAt (letterAt 98) 0 [98] := letterAt_strAt (by decide)
  have hm : ∀ l, content l = [98] → Matches [98] (content l) := by
    rintro l hl
    rw [hl, matches_letter_iff (by decide)]
    exact List.mem_singleton.mpr rfl
  constructor
  · intro h
    obtain ⟨mem, rest, hs⟩ := grep_settles _ (letter_apart 98) hstr (by decide : (0 : Byte) ∉ [98])
    have heq := h.unique ⟨_, hs, rfl⟩
    have hl : lines [98] = [[98]] := by decide
    have hr : reached [98] = [] := by decide
    rw [hl, selected_cons_of_matches (hm _ (by decide)), hr, selected_nil] at heq
    cases heq
  · intro h
    have hno : NL ∉ List.replicate 1023 (97 : Byte) := by
      rw [List.mem_replicate]
      decide
    have hnul : 0 ∉ List.replicate 1023 (97 : Byte) ++ [NL, 98, NL] := by
      rw [List.mem_append, List.mem_replicate]
      decide
    obtain ⟨mem, rest, hs⟩ := grep_settles _ (letter_apart 98) hstr hnul
    have heq := h.unique ⟨_, hs, rfl⟩
    have hl : lines (List.replicate 1023 97 ++ [NL, 98, NL]) =
        [List.replicate 1023 97 ++ [NL]] ++ [[98, NL]] := by
      rw [lines, terminated_line hno, lastPart_line]
      have hlast : lastPart [98, NL] = [] ∧ terminated [98, NL] = [[98, NL]] := by decide
      rw [hlast.1, hlast.2, if_pos rfl]
      rfl
    rw [reached_full hno (by rw [List.length_replicate]; decide), selected_nil, hl,
      selected_append, selected_cons_of_matches (l := [98, NL]) (hm _ (by decide))] at heq
    exact nomatch (List.append_eq_nil_iff.mp heq).2

end Xv6.Grep
