import Mathlib.Tactic.Common
import Mathlib.Logic.Function.Basic
import Xv6.Foundation.Bytes
import Xv6.Foundation.Numerals

/-!
# `vprintf` of the user library

`putc` writes one byte to the file descriptor of the call; what is modelled of it is the text of the
bytes in the order they are written. Every array access is checked, so that an access outside
`buf`, outside `digits`, or to an argument the caller did not pass is a fault and not a value.
-/

namespace Xv6.Library

open Xv6.Foundation Function

set_option autoImplicit false

def chr (c : Char) : Byte := BitVec.ofNat 8 c.toNat

inductive Fault where
  | buf
  | digits
  | argument
  /-- `%s` has read as many bytes as it has fuel and found no end of the string. -/
  | unterminated
deriving DecidableEq, Repr

/-- The array has a last entry for the end of the string. -/
def digits : List Byte :=
  ['0', '1', '2', '3', '4', '5', '6', '7', '8', '9', 'A', 'B', 'C', 'D', 'E', 'F'].map chr ++ [0]

def digit (i : Nat) : Except Fault Byte :=
  match digits[i]? with
  | some c => .ok c
  | none => .error .digits

/-! ## Numbers -/

def BUFSIZE : Nat := 16

def store (buf : Bytes) (i : Nat) (c : Byte) : Except Fault Bytes :=
  if i < BUFSIZE then .ok (Function.update buf i c) else .error .buf

/-- The `do` loop of `printint`. It stores a byte in every turn, so a turn for each byte of `buf`
and one more are enough. -/
def printDigits (base : BitVec 32) : Nat → Bytes → Nat → BitVec 32 → Except Fault (Bytes × Nat)
  | 0, _, _, _ => .error .buf
  | fuel + 1, buf, i, x => do
    let c ← digit (x % base).toNat
    let buf ← store buf i c
    let x := x / base
    if x ≠ 0 then printDigits base fuel buf (i + 1) x else return (buf, i + 1)

/-- `while(--i >= 0) putc(fd, buf[i])` -/
def putBack (buf : Bytes) : Nat → List Byte
  | 0 => []
  | i + 1 => buf i :: putBack buf i

/-- What `buf` holds at the start is never read. -/
def printint (xx base : BitVec 32) (sgn : Bool) : Except Fault (List Byte) := do
  let neg := sgn && xx.slt 0
  let x := if neg then -xx else xx
  let (buf, i) ← printDigits base (BUFSIZE + 1) (fun _ => 0) 0 x
  if neg then
    let buf ← store buf i (chr '-')
    return putBack buf (i + 1)
  else
    return putBack buf i

/-- The loop of `printptr`, with `n` turns left. -/
def printNibbles : Nat → BitVec 64 → Except Fault (List Byte)
  | 0, _ => .ok []
  | n + 1, x => do
    let c ← digit (x >>> 60).toNat
    let s ← printNibbles n (x <<< 4)
    return c :: s

def printptr (x : BitVec 64) : Except Fault (List Byte) := do
  let s ← printNibbles 16 x
  return chr '0' :: chr 'x' :: s

/-! ## The format -/

/-- `while(*s != 0) putc(fd, *s++)` -/
def putString (mem : BitVec 64 → Byte) : Nat → BitVec 64 → Except Fault (List Byte)
  | 0, _ => .error .unterminated
  | fuel + 1, s =>
    if mem s ≠ 0 then do
      let t ← putString mem fuel (s + 1)
      return mem s :: t
    else .ok []

/-- The values of `state`: `0` and `'%'`. -/
inductive State where
  | text
  | percent
deriving DecidableEq, Repr

/-- Every argument takes a slot of 64 bits. -/
structure Printer where
  state : State
  ap : List (BitVec 64)
  out : List Byte
deriving DecidableEq, Repr

def vaArg : List (BitVec 64) → Except Fault (BitVec 64 × List (BitVec 64))
  | [] => .error .argument
  | a :: ap => .ok (a, ap)

def null : List Byte := ['(', 'n', 'u', 'l', 'l', ')'].map chr

/-- The text that `%c` prints, and the arguments that are left. -/
def convert (mem : BitVec 64 → Byte) (fuel : Nat) (c : Byte) (ap : List (BitVec 64)) :
    Except Fault (List Byte × List (BitVec 64)) :=
  if c = chr 'd' then do
    let (a, ap) ← vaArg ap
    return (← printint (a.setWidth 32) 10 true, ap)
  else if c = chr 'l' then do
    let (a, ap) ← vaArg ap
    -- The parameter `xx` of `printint` is an `int`.
    return (← printint (a.setWidth 32) 10 false, ap)
  else if c = chr 'x' then do
    let (a, ap) ← vaArg ap
    return (← printint (a.setWidth 32) 16 false, ap)
  else if c = chr 'p' then do
    let (a, ap) ← vaArg ap
    return (← printptr a, ap)
  else if c = chr 's' then do
    let (a, ap) ← vaArg ap
    if a = 0 then return (null, ap) else return (← putString mem fuel a, ap)
  else if c = chr 'c' then do
    let (a, ap) ← vaArg ap
    return ([a.setWidth 8], ap)
  else if c = chr '%' then
    return ([c], ap)
  else
    return ([chr '%', c], ap)

/-- One turn of the loop of `vprintf`. -/
def Printer.turn (mem : BitVec 64 → Byte) (fuel : Nat) (c : Byte) (p : Printer) :
    Except Fault Printer :=
  match p.state with
  | .text =>
    if c = chr '%' then .ok { p with state := .percent } else .ok { p with out := p.out ++ [c] }
  | .percent => do
    let (s, ap) ← convert mem fuel c p.ap
    return ⟨.text, ap, p.out ++ s⟩

/-- The loop of `vprintf` from some place in the format on; it ends with the format's text or at a
byte that is zero. -/
def vprintfFrom (mem : BitVec 64 → Byte) (fuel : Nat) : List Byte → Printer → Except Fault Printer
  | [], p => .ok p
  | c :: fmt, p => if c = 0 then .ok p else do
    let p ← p.turn mem fuel c
    vprintfFrom mem fuel fmt p

def vprintf (mem : BitVec 64 → Byte) (fuel : Nat) (fmt : List Byte) (ap : List (BitVec 64)) :
    Except Fault Printer :=
  vprintfFrom mem fuel fmt ⟨.text, ap, []⟩

/-! ## Reading numbers back -/

inductive Conv where
  | d
  | l
  | x
  | p
deriving DecidableEq, Repr

def Conv.char : Conv → Byte
  | .d => chr 'd'
  | .l => chr 'l'
  | .x => chr 'x'
  | .p => chr 'p'

/-- The value of the argument: `%d` takes an `int`, `%x` an `int` that it reads as unsigned, `%l`
and `%p` a `uint64`. -/
def Conv.value : Conv → BitVec 64 → Int
  | .d, a => (a.setWidth 32).toInt
  | .l, a => a.toNat
  | .x, a => (a.setWidth 32).toNat
  | .p, a => a.toNat

def digitValue (base : Nat) (c : Byte) : Option Nat :=
  if digits.idxOf c < base then some (digits.idxOf c) else none

def readUnsigned (base : Nat) (s : List Byte) : Option Int :=
  if s = [] then none else (ofNumeral (digitValue base) base s).map Int.ofNat

def readSigned (base : Nat) : List Byte → Option Int
  | [] => none
  | c :: s => if c = chr '-' then (readUnsigned base s).map (- ·) else readUnsigned base (c :: s)

/-- The number that a text stands for, in the base of the conversion. -/
def Conv.read : Conv → List Byte → Option Int
  | .d, s => readSigned 10 s
  | .l, s => readUnsigned 10 s
  | .x, s => readUnsigned 16 s
  | .p, c :: c' :: s => if c = chr '0' ∧ c' = chr 'x' then readUnsigned 16 s else none
  | .p, _ => none

theorem digit_spec {base i : Nat} (hi : i < base) (hb : base ≤ 16) :
    ∃ c, digit i = .ok c ∧ digitValue base c = some i := by
  have table : ∀ i < 16, digit i = .ok (digits.getD i 0) ∧ digits.idxOf (digits.getD i 0) = i := by
    decide
  obtain ⟨hd, hv⟩ := table i (by omega)
  exact ⟨_, hd, by rw [digitValue, hv, if_pos hi]⟩

theorem digitValue_minus {base : Nat} (hb : base ≤ 16) : digitValue base (chr '-') = none :=
  if_neg (by
    have : digits.idxOf (chr '-') = 17 := by decide
    omega)

/-! ## `printint` -/

variable {buf : Bytes}

theorem putBack_update {i n : Nat} (c : Byte) (h : n ≤ i) :
    putBack (update buf i c) n = putBack buf n := by
  induction n with
  | zero => rfl
  | succ n ih =>
    rw [putBack, putBack, update_of_ne (by omega), ih (by omega)]

theorem putBack_store {i : Nat} (c : Byte) :
    putBack (update buf i c) (i + 1) = c :: putBack buf i := by
  rw [putBack, update_self, putBack_update c (Nat.le_refl i)]

theorem store_ok {i : Nat} {c : Byte} (h : i < BUFSIZE) :
    store buf i c = .ok (update buf i c) := if_pos h

theorem printDigits_turn {base : BitVec 32} {fuel i : Nat} {x : BitVec 32} {c : Byte}
    (hc : digit (x % base).toNat = .ok c) (hi : i < BUFSIZE) : printDigits base (fuel + 1) buf i x =
      if x / base ≠ 0 then printDigits base fuel (update buf i c) (i + 1) (x / base)
      else .ok (update buf i c, i + 1) := by
  rw [printDigits, hc]
  show (store buf i c >>= fun _ => _) = _
  rw [store_ok hi]
  rfl

theorem printDigits_spec {base : BitVec 32} (hb : 2 ≤ base.toNat) (hb' : base.toNat ≤ 16)
    {k fuel i : Nat} (buf : Bytes) {x : BitVec 32} (hx : x.toNat < base.toNat ^ (k + 1))
    (hi : i + k < BUFSIZE) (hf : k < fuel) :
    ∃ buf' s, printDigits base fuel buf i x = .ok (buf', i + s.length) ∧
      putBack buf' (i + s.length) = s ++ putBack buf i ∧ s ≠ [] ∧ s.length ≤ k + 1 ∧
      ofNumeral (digitValue base.toNat) base.toNat s = some x.toNat := by
  induction fuel generalizing k i buf x with
  | zero => omega
  | succ fuel ih =>
    obtain ⟨c, hc, hv⟩ := digit_spec (Nat.mod_lt x.toNat (by omega)) hb'
    rw [← BitVec.toNat_umod] at hc
    rw [printDigits_turn hc (by omega)]
    have hdiv : (x / base).toNat = x.toNat / base.toNat := BitVec.toNat_udiv
    by_cases h0 : x / base = 0
    · -- The last turn: the digit is the number.
      have hx0 : x.toNat / base.toNat = 0 := by rw [← hdiv, h0]; rfl
      refine ⟨update buf i c, [c], if_neg (not_not.mpr h0), putBack_store c, by simp,
        by simp, ?_⟩
      exact ofNumeral_div_mod (s := []) (by rw [hx0]; rfl) hv
    · rw [if_pos h0]
      have hk : x.toNat / base.toNat < base.toNat ^ k :=
        Nat.div_lt_of_lt_mul (by rwa [← Nat.pow_succ'])
      obtain _ | k := k
      · refine absurd (BitVec.eq_of_toNat_eq ?_) h0
        rw [hdiv]
        exact Nat.lt_one_iff.mp hk
      obtain ⟨buf', s, hs, hput, -, hlen, hread⟩ :=
        ih (update buf i c) (i := i + 1) (x := x / base) (k := k)
          (by rwa [hdiv]) (by omega) (by omega)
      have hlen' : i + (s ++ [c]).length = i + 1 + s.length := by
        rw [List.length_append, List.length_singleton]
        omega
      refine ⟨buf', s ++ [c], by rw [hs, hlen'], ?_, by simp, by simpa using hlen, ?_⟩
      · rw [hlen', hput, putBack_store, List.append_assoc, List.singleton_append]
      · exact ofNumeral_div_mod (by rw [hread, hdiv]) hv

/-- The bases `printint` is called with; ten digits are enough for each. -/
structure Base (base : BitVec 32) : Prop where
  two_le : 2 ≤ base.toNat
  le_sixteen : base.toNat ≤ 16
  enough : 2 ^ 32 ≤ base.toNat ^ 10

theorem base_ten : Base 10 := ⟨by decide, by decide, by decide⟩

theorem base_sixteen : Base 16 := ⟨by decide, by decide, by decide⟩

theorem readUnsigned_of {base x : Nat} {s : List Byte} (hs : s ≠ [])
    (h : ofNumeral (digitValue base) base s = some x) : readUnsigned base s = some (x : Int) := by
  rw [readUnsigned, if_neg hs, h]
  rfl

theorem readSigned_of {base x : Nat} {s : List Byte} (hb : base ≤ 16) (hs : s ≠ [])
    (h : ofNumeral (digitValue base) base s = some x) : readSigned base s = some (x : Int) := by
  cases s with
  | nil => exact absurd rfl hs
  | cons c s =>
    have hc : c ≠ chr '-' := by
      rintro rfl
      exact ofNumeral_head h (digitValue_minus hb)
    rw [readSigned, if_neg hc]
    exact readUnsigned_of hs h

section Printint
variable {base : BitVec 32} (hb : Base base)
include hb

theorem printint_digits (xx : BitVec 32) (sgn : Bool) : ∃ s, s ≠ [] ∧
      ofNumeral (digitValue base.toNat) base.toNat s =
        some (if sgn && xx.slt 0 then -xx else xx).toNat ∧
      printint xx base sgn = .ok (if sgn && xx.slt 0 then chr '-' :: s else s) := by
  unfold printint
  dsimp only
  generalize (sgn && xx.slt 0) = neg
  generalize (if neg then -xx else xx) = x
  obtain ⟨buf, s, hs, hput, hne, hlen, hread⟩ :=
    printDigits_spec hb.two_le hb.le_sixteen (k := 9) (i := 0) (fun _ => 0) (x := x)
      (Nat.lt_of_lt_of_le x.isLt hb.enough) (by decide) (show 9 < BUFSIZE + 1 by decide)
  refine ⟨s, hne, hread, ?_⟩
  rw [Nat.zero_add] at hs hput
  have hput : putBack buf s.length = s := by rw [hput, putBack, List.append_nil]
  show (printDigits base (BUFSIZE + 1) (fun _ => 0) 0 x >>= fun _ => _) = _
  rw [hs]
  cases neg with
  | false => exact congrArg Except.ok hput
  | true =>
    show (store buf s.length (chr '-') >>= fun _ => _) = _
    rw [store_ok (by unfold BUFSIZE; omega)]
    refine congrArg Except.ok ?_
    rw [putBack_store, hput]
    rfl

theorem printint_inside (xx : BitVec 32) (sgn : Bool) : printint xx base sgn ≠ .error .buf := by
  obtain ⟨s, -, -, hs⟩ := printint_digits hb xx sgn
  rw [hs]
  exact nofun

theorem printint_unsigned (xx : BitVec 32) :
    ∃ s, printint xx base false = .ok s ∧ readUnsigned base.toNat s = some (xx.toNat : Int) := by
  obtain ⟨s, hne, hread, hs⟩ := printint_digits hb xx false
  exact ⟨s, hs, readUnsigned_of hne hread⟩

theorem printint_signed (xx : BitVec 32) :
    ∃ s, printint xx base true = .ok s ∧ readSigned base.toNat s = some xx.toInt := by
  obtain ⟨s, hne, hread, hs⟩ := printint_digits hb xx true
  rw [Bool.true_and] at hread hs
  refine ⟨_, hs, ?_⟩
  by_cases hneg : xx.slt 0
  · rw [if_pos hneg] at hread ⊢
    -- `-xx` is the unsigned absolute value, also of the least `int`.
    have habs : xx.toInt = -((-xx).toNat : Int) := by
      have hlt : xx.toInt < 0 := by simpa [BitVec.slt] using hneg
      have hx := xx.isLt
      rw [BitVec.toNat_neg]
      rw [BitVec.toInt_eq_toNat_cond] at hlt ⊢
      split <;> omega
    rw [readSigned, if_pos rfl, readUnsigned_of hne hread, habs]
    rfl
  · rw [if_neg hneg] at hread ⊢
    have hpos : xx.toInt = xx.toNat := by
      have hle : 0 ≤ xx.toInt := by simpa [BitVec.slt] using hneg
      rw [BitVec.toInt_eq_toNat_cond] at hle ⊢
      split <;> omega
    rw [hpos]
    exact readSigned_of hb.le_sixteen hne hread

end Printint

/-! ## `printptr` -/

theorem nibble_add {n m x : Nat} (h : n + m = 15) :
    x / 16 ^ 15 * 16 ^ n + x * 16 % 16 ^ 16 / 16 ^ (m + 1) = x / 16 ^ m := by
  have hmod : x * 16 % 16 ^ 16 = 16 * (x % 16 ^ 15) := by
    rw [Nat.mul_comm, show (16 : Nat) ^ 16 = 16 * 16 ^ 15 by decide, Nat.mul_mod_mul_left]
  have hsplit : x = 16 ^ m * (16 ^ n * (x / 16 ^ 15)) + x % 16 ^ 15 := by
    rw [← Nat.mul_assoc, ← Nat.pow_add, Nat.add_comm m n, h, Nat.div_add_mod]
  rw [hmod, Nat.pow_succ' (n := m), Nat.mul_div_mul_left _ _ (by decide),
    Nat.mul_comm (x / 16 ^ 15)]
  conv => rhs; rw [hsplit]
  rw [Nat.mul_add_div (Nat.pow_pos (by decide))]

theorem printNibbles_spec {n : Nat} (hn : n ≤ 16) (v : Nat) (x : BitVec 64) :
    ∃ s, printNibbles n x = .ok s ∧ s.length = n ∧
      ofNumeralFrom (digitValue 16) 16 v s = some (v * 16 ^ n + x.toNat / 16 ^ (16 - n)) := by
  induction n generalizing v x with
  | zero =>
    refine ⟨[], rfl, rfl, ?_⟩
    rw [ofNumeralFrom, Nat.div_eq_of_lt (Nat.lt_of_lt_of_eq x.isLt (by decide))]
    simp
  | succ n ih =>
    obtain ⟨m, hm⟩ : ∃ m, n + m = 15 := ⟨15 - n, by omega⟩
    have htop : (x >>> 60).toNat = x.toNat / 16 ^ 15 := by
      rw [BitVec.toNat_ushiftRight, Nat.shiftRight_eq_div_pow, show 2 ^ 60 = 16 ^ 15 by decide]
    have hrest : (x <<< 4).toNat = x.toNat * 16 % 16 ^ 16 := by
      rw [BitVec.toNat_shiftLeft, Nat.shiftLeft_eq, show 2 ^ 64 = 16 ^ 16 by decide]
    have hlt : (x >>> 60).toNat < 16 := by
      have := x.isLt
      omega
    obtain ⟨c, hc, hv⟩ := digit_spec hlt (Nat.le_refl 16)
    obtain ⟨s, hs, hlen, hread⟩ := ih (by omega) (16 * v + (x >>> 60).toNat) (x <<< 4)
    refine ⟨c :: s, ?_, by rw [List.length_cons, hlen], ?_⟩
    · rw [printNibbles, hc]
      show (printNibbles n (x <<< 4) >>= fun _ => _) = _
      rw [hs]
      rfl
    · rw [ofNumeralFrom, hv, Option.bind_some, hread, hrest, htop,
        show 16 - n = m + 1 by omega, show 16 - (n + 1) = m by omega, ← nibble_add hm]
      ring_nf

theorem printptr_spec (x : BitVec 64) :
    ∃ s, printptr x = .ok (chr '0' :: chr 'x' :: s) ∧ readUnsigned 16 s = some (x.toNat : Int) := by
  obtain ⟨s, hs, hlen, hread⟩ := printNibbles_spec (Nat.le_refl 16) 0 x
  refine ⟨s, by rw [printptr, hs]; rfl, readUnsigned_of ?_ ?_⟩
  · rintro rfl
    exact nomatch hlen
  · rw [ofNumeral, hread]
    simp

/-! ## `vprintf` -/

theorem vprintfFrom_append {mem : BitVec 64 → Byte} {fuel : Nat} {fmt : List Byte}
    (post : List Byte) (p : Printer) (h0 : 0 ∉ fmt) : vprintfFrom mem fuel (fmt ++ post) p =
      vprintfFrom mem fuel fmt p >>= vprintfFrom mem fuel post := by
  induction fmt generalizing p with
  | nil => rfl
  | cons c fmt ih =>
    have hc : c ≠ 0 := fun h => h0 (by simp [h])
    rw [List.cons_append, vprintfFrom, vprintfFrom, if_neg hc, if_neg hc, bind_assoc]
    exact congrArg _ (funext fun p => ih p (fun h => h0 (List.mem_cons_of_mem _ h)))

section Numbers
variable (mem : BitVec 64 → Byte) (fuel : Nat)

/-- The text of a number, and what it says: for `%l`, the low 32 bits of the argument. -/
theorem convert_number (conv : Conv) (a : BitVec 64) (ap : List (BitVec 64)) :
    ∃ s, convert mem fuel conv.char (a :: ap) = .ok (s, ap) ∧
      conv.read s = some (if conv = .l then ((a.setWidth 32).toNat : Int) else conv.value a) := by
  cases conv with
  | d =>
    obtain ⟨s, hs, hr⟩ := printint_signed base_ten (a.setWidth 32)
    refine ⟨s, ?_, hr⟩
    rw [Conv.char, convert, if_pos rfl]
    show (printint (a.setWidth 32) 10 true >>= fun _ => _) = _
    rw [hs]
    rfl
  | l =>
    obtain ⟨s, hs, hr⟩ := printint_unsigned base_ten (a.setWidth 32)
    refine ⟨s, ?_, hr⟩
    rw [Conv.char, convert, if_neg (by decide), if_pos rfl]
    show (printint (a.setWidth 32) 10 false >>= fun _ => _) = _
    rw [hs]
    rfl
  | x =>
    obtain ⟨s, hs, hr⟩ := printint_unsigned base_sixteen (a.setWidth 32)
    refine ⟨s, ?_, hr⟩
    rw [Conv.char, convert, if_neg (by decide), if_neg (by decide), if_pos rfl]
    show (printint (a.setWidth 32) 16 false >>= fun _ => _) = _
    rw [hs]
    rfl
  | p =>
    obtain ⟨s, hs, hr⟩ := printptr_spec a
    refine ⟨chr '0' :: chr 'x' :: s, ?_, ?_⟩
    · rw [Conv.char, convert, if_neg (by decide), if_neg (by decide), if_neg (by decide),
        if_pos rfl]
      show (printptr a >>= fun _ => _) = _
      rw [hs]
      rfl
    · rw [Conv.read, if_pos ⟨rfl, rfl⟩]
      exact hr

theorem vprintfFrom_number (conv : Conv) {a : BitVec 64} {ap : List (BitVec 64)} {s : List Byte}
    (hs : convert mem fuel conv.char (a :: ap) = .ok (s, ap)) (out post : List Byte) :
    vprintfFrom mem fuel (chr '%' :: conv.char :: post) ⟨.text, a :: ap, out⟩ =
      vprintfFrom mem fuel post ⟨.text, ap, out ++ s⟩ := by
  have hchar : conv.char ≠ 0 := by cases conv <;> decide
  rw [vprintfFrom, if_neg (by decide)]
  show vprintfFrom mem fuel (conv.char :: post) ⟨.percent, a :: ap, out⟩ = _
  rw [vprintfFrom, if_neg hchar]
  show ((convert mem fuel conv.char (a :: ap) >>= fun _ => _) >>= fun _ => _) = _
  rw [hs]
  rfl

end Numbers

/-- Wherever a format asks for a number, after any text and any other conversions, the next argument
is printed, and the text reads back as its value; for `%l` it does exactly when the argument is
below `2 ^ 32`. `printint` stays inside `buf` for every number. -/
theorem vprintf_number (mem : BitVec 64 → Byte) (fuel : Nat) (pre post : List Byte) (conv : Conv)
    (args : List (BitVec 64)) (a : BitVec 64) (ap : List (BitVec 64)) (out : List Byte)
    (hpre : 0 ∉ pre) (hrun : vprintf mem fuel pre args = .ok ⟨.text, a :: ap, out⟩) :
    (∀ xx sgn, printint xx 10 sgn ≠ .error .buf ∧ printint xx 16 sgn ≠ .error .buf) ∧
    ∃ s, vprintf mem fuel (pre ++ chr '%' :: conv.char :: post) args =
        vprintfFrom mem fuel post ⟨.text, ap, out ++ s⟩ ∧
      (conv.read s = some (conv.value a) ↔ (conv = .l → a.toNat < 2 ^ 32)) := by
  refine ⟨fun xx sgn => ⟨printint_inside base_ten xx sgn, printint_inside base_sixteen xx sgn⟩, ?_⟩
  obtain ⟨s, hs, hread⟩ := convert_number mem fuel conv a ap
  refine ⟨s, ?_, ?_⟩
  · rw [vprintf, vprintfFrom_append _ _ hpre, ← vprintf, hrun]
    exact vprintfFrom_number mem fuel conv hs out post
  rw [hread]
  split
  · subst conv
    -- the low 32 bits are the argument if and only if nothing was cut off
    rw [Conv.value, BitVec.toNat_setWidth, Option.some_inj, Nat.cast_inj]
    constructor
    · intro hlow _
      rw [← hlow]
      exact Nat.mod_lt _ (by decide)
    · intro hlt
      exact Nat.mod_eq_of_lt (hlt rfl)
  · exact iff_of_true rfl fun hl => absurd hl ‹_›

/-- The second number of a format: `INT_MIN`, after a pointer. -/
theorem vprintf_number_least :
    ∃ s, vprintf (fun _ => 0) 1 ([chr '%', chr 'p', chr ' '] ++ [chr '%', chr 'd']) [10, 0x80000000] =
        .ok ⟨.text, [], ("0x000000000000000A ".toList.map chr) ++ s⟩ ∧
      readSigned 10 s = some (-2147483648) := by
  obtain ⟨-, s, hs, hr⟩ := vprintf_number (fun _ => 0) 1 [chr '%', chr 'p', chr ' '] [] .d
    [10, 0x80000000] 0x80000000 [] ("0x000000000000000A ".toList.map chr) (by decide) (by decide)
  exact ⟨s, hs, hr.mpr (fun h => nomatch h)⟩

/-- `%l` prints `2 ^ 32` as `0`. -/
theorem vprintf_long_narrowed :
    vprintf (fun _ => 0) 1 [chr '%', chr 'l'] [0x100000000] = .ok ⟨.text, [], [chr '0']⟩ ∧
      Conv.l.read [chr '0'] = some 0 ∧ Conv.l.value 0x100000000 = 0x100000000 := by
  decide

end Xv6.Library
