import Mathlib.Algebra.Group.Nat.Defs
import Mathlib.Algebra.Ring.Int.Defs
import Mathlib.Logic.Function.Basic
import Mathlib.Tactic.Common

/-!
# The memory allocator of user programs

`free`, `morecore` and `malloc` of `umalloc.c`. Pointers are byte addresses and a header takes 16
bytes; memory is the header that a program finds at each address. That an access to a page which is
not mapped kills the process is not modelled: the results below are about heaps whose headers are in
memory that `sbrk` has given. The loops take fuel and answer `none` when it runs out. What `sbrk` does
is a parameter; `sysSbrk` is the one of this kernel.
-/

namespace Xv6.Malloc

set_option autoImplicit false

def UNIT : Nat := 16

/-- `size` is a `uint`. -/
structure Header where
  ptr : Nat
  size : Nat

/-- `freep` is 0 until the first call of `malloc`. -/
@[ext] structure Heap where
  hdr : Nat → Header
  freep : Nat

namespace Heap
variable (h : Heap)

def setPtr (a p : Nat) : Heap :=
  { h with hdr := Function.update h.hdr a { h.hdr a with ptr := p } }

def setSize (a n : Nat) : Heap :=
  { h with hdr := Function.update h.hdr a { h.hdr a with size := n % 2 ^ 32 } }

def setFreep (p : Nat) : Heap := { h with freep := p }

def next (a : Nat) : Nat := (h.hdr a).ptr

/-- `a + a->s.size` -/
def stop (a : Nat) : Nat := a + UNIT * (h.hdr a).size

end Heap

/-- The loop of `free` stops at `p`. -/
def Stops (h : Heap) (bp p : Nat) : Prop :=
  (p < bp ∧ bp < h.next p) ∨ (h.next p ≤ p ∧ (p < bp ∨ bp < h.next p))

instance (h : Heap) (bp p : Nat) : Decidable (Stops h bp p) := inferInstanceAs (Decidable (_ ∨ _))

/-- `for(p = freep; ...; p = p->s.ptr)` in `free`. -/
def search (h : Heap) (bp : Nat) : Nat → Nat → Option Nat
  | 0, _ => none
  | fuel + 1, p => if Stops h bp p then some p else search h bp fuel (h.next p)

/-- Join `bp` with the block after it, or link it there. -/
def joinNext (h : Heap) (bp p : Nat) : Heap :=
  if h.stop bp = h.next p then
    let h := h.setSize bp ((h.hdr bp).size + (h.hdr (h.next p)).size)
    h.setPtr bp (h.next (h.next p))
  else h.setPtr bp (h.next p)

/-- Join `bp` with the block before it, or link it there. -/
def joinPrev (h : Heap) (bp p : Nat) : Heap :=
  if h.stop p = bp then
    let h := h.setSize p ((h.hdr p).size + (h.hdr bp).size)
    h.setPtr p (h.next bp)
  else h.setPtr p bp

def free (h : Heap) (ap fuel : Nat) : Option Heap :=
  let bp := ap - UNIT
  (search h bp fuel h.freep).map fun p => (joinPrev (joinNext h bp p) bp p).setFreep p

/-! ## Allocation -/

/-- The value of a `uint64` as an `int`. -/
def toInt (n : Nat) : Int :=
  if n % 2 ^ 32 < 2 ^ 31 then (n % 2 ^ 32 : Nat) else (n % 2 ^ 32 : Nat) - 2 ^ 32

section
variable {S : Type} (sbrk : Int → S → Option Nat × S)

/-- `morecore`; a null pointer is `none`. -/
def morecore (h : Heap) (s : S) (nu fuel : Nat) : Option (Option Nat × Heap × S) :=
  let nu := if nu < 4096 then 4096 else nu
  match sbrk (toInt (nu * UNIT)) s with
  | (none, s) => some (none, h, s)
  | (some hp, s) => (free (h.setSize hp nu) (hp + UNIT) fuel).map fun h => (some h.freep, h, s)

/-- The block at `p` is large enough: unlink it, or cut off its tail. -/
def take (h : Heap) (nunits prevp p : Nat) : Nat × Heap :=
  if (h.hdr p).size = nunits then (p + UNIT, (h.setPtr prevp (h.next p)).setFreep prevp)
  else
    let h := h.setSize p ((h.hdr p).size - nunits)
    let p := h.stop p
    (p + UNIT, (h.setSize p nunits).setFreep prevp)

def mallocLoop (nunits : Nat) : Nat → Heap → S → Nat → Nat → Option (Nat × Heap × S)
  | 0, _, _, _, _ => none
  | fuel + 1, h, s, prevp, p =>
    if nunits ≤ (h.hdr p).size then
      let r := take h nunits prevp p
      some (r.1, r.2, s)
    else if p = h.freep then
      (morecore sbrk h s nunits fuel).bind fun
        | (none, h, s) => some (0, h, s)
        | (some p, h, s) => mallocLoop nunits fuel h s p (h.next p)
    else mallocLoop nunits fuel h s p (h.next p)

/-- Headers and payload, in units. -/
def nunits (nbytes : Nat) : Nat := ((nbytes + UNIT - 1) / UNIT + 1) % 2 ^ 32

/-- `if((prevp = freep) == 0)`: the list of `base` alone. -/
def init (base : Nat) (h : Heap) : Heap :=
  if h.freep = 0 then ((h.setPtr base base).setFreep base).setSize base 0 else h

def malloc (base nbytes fuel : Nat) (h : Heap) (s : S) : Option (Nat × Heap × S) :=
  let h := init base h
  mallocLoop sbrk (nunits nbytes) fuel h s h.freep (h.next h.freep)

end

/-! ## `sbrk` of this kernel -/

def PHYSMEM : Nat := 128 * 1024 * 1024

def PGROUNDUP (sz : Nat) : Nat := (sz + 4096 - 1) / 4096 * 4096

/-- `uvmalloc(pagetable, oldsz, newsz)`; 0 if a page is missing. No process has more pages than the
machine; `enough` says whether `kalloc` still has those needed now. -/
def uvmalloc (enough : Bool) (oldsz newsz : Nat) : Nat :=
  if newsz < oldsz then oldsz
  else if enough ∧ newsz ≤ PHYSMEM then newsz
  else 0

def uvmdealloc (oldsz newsz : Nat) : Nat := if oldsz ≤ newsz then oldsz else newsz

/-- `growproc(n)`, with `p->sz` before and after; `sz + n` is computed in a `uint`. -/
def growproc (enough : Bool) (n : Int) (sz : Nat) : Option Nat :=
  let newsz := (((sz : Int) + n) % 2 ^ 32).toNat
  if 0 < n then
    let sz := uvmalloc enough (sz % 2 ^ 32) newsz
    if sz = 0 then none else some sz
  else if n < 0 then some (uvmdealloc (sz % 2 ^ 32) newsz)
  else some (sz % 2 ^ 32)

/-- The system call: the old `p->sz` as an `int`, widened to the `char*` of the caller. -/
def sysSbrk (enough : Bool) (n : Int) (sz : Nat) : Option Nat × Nat :=
  match growproc enough n sz with
  | none => (none, sz)
  | some sz' =>
    let addr := ((toInt sz) % 2 ^ 64).toNat
    (if addr = 2 ^ 64 - 1 then none else some addr, sz')

end Xv6.Malloc
