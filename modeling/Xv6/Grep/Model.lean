import Xv6.Foundation.Bytes

/-!
# grep

The matcher of `grep.c` and the loop that feeds it, over the memory of the process. Pointers are
addresses, `char` is unsigned, and a loop or a recursion takes fuel and answers `none` when it runs
out.
-/

namespace Xv6.Grep

open Xv6.Foundation

set_option autoImplicit false

def NL : Byte := 10
def DOLLAR : Byte := 36
def STAR : Byte := 42
def DOT : Byte := 46
def CARET : Byte := 94

/-! ## The matcher -/

mutual

/-- Search for `re` at the beginning of `text`. -/
def matchhere (m : Bytes) : Nat → Nat → Nat → Option Bool
  | 0, _, _ => none
  | fuel + 1, re, text =>
    if m re = 0 then some true
    else if m (re + 1) = STAR then matchstar m fuel (m re) (re + 2) text
    else if m re = DOLLAR ∧ m (re + 1) = 0 then some (decide (m text = 0))
    else if m text ≠ 0 ∧ (m re = DOT ∨ m re = m text) then matchhere m fuel (re + 1) (text + 1)
    else some false

/-- Search for `c*re` at the beginning of `text`; one turn of the loop. -/
def matchstar (m : Bytes) : Nat → Byte → Nat → Nat → Option Bool
  | 0, _, _, _ => none
  | fuel + 1, c, re, text =>
    (matchhere m fuel re text).bind fun found =>
      if found then some true
      else if m text ≠ 0 ∧ (m text = c ∨ c = DOT) then matchstar m fuel c re (text + 1)
      else some false

end

/-- One turn of the loop of `match`. -/
def matchFrom (m : Bytes) : Nat → Nat → Nat → Option Bool
  | 0, _, _ => none
  | fuel + 1, re, text =>
    (matchhere m fuel re text).bind fun found =>
      if found then some true
      else if m text ≠ 0 then matchFrom m fuel re (text + 1)
      else some false

/-- `match`; the answers 1 and 0 are `true` and `false`. -/
def matchRe (m : Bytes) (fuel re text : Nat) : Option Bool :=
  if m re = CARET then matchhere m fuel (re + 1) text else matchFrom m fuel re text

/-! ## The loop over the input -/

def BUFSIZE : Nat := 1024

def store (m : Bytes) (a : Nat) (c : Byte) : Bytes := Function.update m a c

/-- `strchr`; a null pointer is `some none`. -/
def strchr (m : Bytes) (c : Byte) : Nat → Nat → Option (Option Nat)
  | 0, _ => none
  | fuel + 1, s =>
    if m s = 0 then some none
    else if m s = c then some (some s)
    else strchr m c fuel (s + 1)

/-- `while(n-- > 0) *dst++ = *src++` -/
def moveUp (m : Bytes) (dst src : Nat) : Nat → Bytes
  | 0 => m
  | n + 1 => moveUp (store m dst (m src)) (dst + 1) (src + 1) n

/-- `while(n-- > 0) *--dst = *--src`, with both pointers `n` bytes after `dst` and `src`. -/
def moveDown (m : Bytes) (dst src : Nat) : Nat → Bytes
  | 0 => m
  | n + 1 => moveDown (store m (dst + n) (m (src + n))) dst src n

def memmove (m : Bytes) (dst src n : Nat) : Bytes :=
  if src > dst then moveUp m dst src n else moveDown m dst src n

/-- The `n` bytes at `p`, which `write(1, p, n)` prints. -/
def bytesAt (m : Bytes) (p : Nat) : Nat → List Byte
  | 0 => []
  | n + 1 => m p :: bytesAt m (p + 1) n

/-- The memory, what is left of the input, and what has been printed. -/
structure World where
  mem : Bytes
  input : List Byte
  out : List Byte

/-- What `read` of at most `n` bytes returns: at least one byte if there is one, and no more than
`want`, which is up to the file. -/
def readCount (want n : Nat) (input : List Byte) : Nat := min (max 1 want) (min n input.length)

/-- `read(fd, p, n)` of `k` bytes. -/
def World.read (w : World) (p k : Nat) : World :=
  { w with
    mem := fun i => if p ≤ i ∧ i < p + k then w.input.getD (i - p) 0 else w.mem i
    input := w.input.drop k }

/-- The loop over the lines in the buffer; the answer has the final `p`. -/
def scan (pattern : Nat) : Nat → World → Nat → Option (World × Nat)
  | 0, _, _ => none
  | fuel + 1, w, p =>
    (strchr w.mem NL fuel p).bind fun
      | none => some (w, p)
      | some q =>
        let mem := store w.mem q 0
        (matchRe mem fuel pattern p).bind fun found =>
          if found then
            let mem := store mem q NL
            scan pattern fuel { w with mem := mem, out := w.out ++ bytesAt mem p (q + 1 - p) } (q + 1)
          else scan pattern fuel { w with mem := mem } (q + 1)

/-- The loop of `grep` with `m` bytes carried over; `split` says how the file splits its contents,
from the `i`-th `read` on. -/
def grepLoop (split : Nat → Nat) (buf pattern : Nat) : Nat → Nat → World → Nat → Option World
  | 0, _, _, _ => none
  | fuel + 1, i, w, m =>
    let n := readCount (split i) (BUFSIZE - m - 1) w.input
    if n = 0 then some w
    else
      let w := w.read (buf + m) n
      let m := m + n
      let w := { w with mem := store w.mem (buf + m) 0 }
      (scan pattern fuel w buf).bind fun (w, p) =>
        if 0 < m then
          let m := m - (p - buf)
          grepLoop split buf pattern fuel (i + 1) { w with mem := memmove w.mem buf p m } m
        else grepLoop split buf pattern fuel (i + 1) w m

def grep (split : Nat → Nat) (buf pattern fuel : Nat) (w : World) : Option World :=
  grepLoop split buf pattern fuel 0 w 0

end Xv6.Grep
