import Xv6.Foundation.Bytes
import Xv6.Foundation.Threads

/-!
# Physical memory

The pages that `kalloc.c` hands out and what the kernel does to them. A page is named by its
address; `kmem.freelist` and the link in the first word of every free page make up the free list.
`kend` is the symbol `end` of the linker script, the first address after the kernel.
-/

namespace Xv6.Memory

open Xv6.Foundation

set_option autoImplicit false

def PGSIZE : Nat := 4096
def KERNBASE : Nat := 0x80000000
def PHYSTOP : Nat := KERNBASE + 128 * 1024 * 1024
def MAXVA : Nat := 2 ^ (9 + 9 + 9 + 12 - 1)
def PGROUNDDOWN (a : Nat) : Nat := a / PGSIZE * PGSIZE

/-! ## Page-table entries -/

def PTE_V : Nat := 1
def PTE_R : Nat := 2
def PTE_W : Nat := 4
def PTE_X : Nat := 8
def PTE_U : Nat := 16

/-- `(pa >> 12) << 10` -/
def PA2PTE (pa : Nat) : Nat := pa / 2 ^ 12 * 2 ^ 10

/-- `(pte >> 10) << 12` -/
def PTE2PA (pte : Nat) : Nat := pte / 2 ^ 10 * 2 ^ 12 % 2 ^ 64

def PTE_FLAGS (pte : Nat) : Nat := pte &&& 0x3FF

/-- `pte & flags` -/
def has (pte flags : Nat) : Bool := decide (pte &&& flags ≠ 0)

/-- The index of level `level` in a virtual address. -/
def PX (level va : Nat) : Nat := va / 2 ^ (12 + 9 * level) % 512

/-! ## Pages -/

abbrev Page := Bytes

/-- One of the 512 words of a page. -/
def word (c : Page) (i : Nat) : Nat := getLE c (8 * i) 8

def setWord (c : Page) (i w : Nat) : Page := putLE c (8 * i) 8 w

theorem word_setWord_self {c : Page} {i w : Nat} (hw : w < 2 ^ 64) : word (setWord c i w) i = w :=
  getLE_putLE_self c (8 * i) 8 w (by simpa using hw)

theorem word_setWord_of_ne {c : Page} {i j w : Nat} (h : j ≠ i) :
    word (setWord c i w) j = word c j :=
  getLE_putLE_of_disjoint c (by omega)

theorem word_zero (i : Nat) : word (fun _ => 0) i = 0 := by
  simp [word, getLE]

structure Mem where
  page : Nat → Page
  freelist : Nat

def Mem.setPage (m : Mem) (pa : Nat) (c : Page) : Mem :=
  { m with page := Function.update m.page pa c }

@[simp]
theorem Mem.setPage_page (m : Mem) (pa : Nat) (c : Page) :
    (m.setPage pa c).page = Function.update m.page pa c := rfl

/-- `&pagetable[index]` -/
structure PtePtr where
  pagetable : Nat
  index : Nat

inductive Panic where
  | kfree
  | walk
  | remap
  | uvmunmapNotAligned
  | uvmunmapWalk
  | uvmunmapNotMapped
  | uvmunmapNotLeaf
  deriving DecidableEq

/-- What other processes see as one step. `kalloc` and `kfree` fill pages outside their locked
section, but nobody else uses a page that is about to be freed or was just allocated. -/
inductive MemAct where
  | panic (e : Panic)
  | kalloc
  | kfree (pa : Nat)
  | load (pte : PtePtr)
  | store (pte : PtePtr) (w : Nat)
  | memset (pa : Nat) (b : Byte)
  | read (pa : Nat)
  | write (pa off : Nat) (src : Bytes) (n : Nat)

def MemAct.Resp : MemAct → Type
  | .panic _ => Empty
  | .kalloc => Option Nat
  | .load _ => Nat
  | .read _ => Page
  | _ => Unit

def Mem.exec (kend : Nat) : (a : MemAct) → Mem → Outcome Mem Panic a.Resp
  | .panic e, _ => .panic e
  | .kalloc, m =>
    if m.freelist = 0 then .ok none m
    else
      .ok (some m.freelist)
        ⟨Function.update m.page m.freelist fun _ => 5, word (m.page m.freelist) 0⟩
  | .kfree pa, m =>
    if pa % PGSIZE ≠ 0 ∨ pa < kend ∨ PHYSTOP ≤ pa then .panic .kfree
    else .ok () ⟨Function.update m.page pa (setWord (fun _ => 1) 0 m.freelist), pa⟩
  | .load pte, m => .ok (word (m.page pte.pagetable) pte.index) m
  | .store pte w, m => .ok () (m.setPage pte.pagetable (setWord (m.page pte.pagetable) pte.index w))
  | .memset pa b, m => .ok () (m.setPage pa fun _ => b)
  | .read pa, m => .ok (m.page pa) m
  | .write pa off src n, m => .ok () (m.setPage pa (blit (m.page pa) off src n))

abbrev VM := Prog MemAct MemAct.Resp

/-! ## `kinit` -/

def freerange (m : Mem) : List Nat → Mem
  | [] => m
  | pa :: rest =>
    freerange ⟨Function.update m.page pa (setWord (fun _ => 1) 0 m.freelist), pa⟩ rest

end Xv6.Memory
