import Xv6.Memory.Model

/-!
# Page tables and address spaces

The functions of `vm.c` on user page tables. A loop over pages recurses on the number of pages it
has still to visit. Sums of 64-bit numbers wrap, except where an address that `walk` has accepted
goes up by a page.
-/

namespace Xv6.Memory

open Xv6.Foundation

set_option autoImplicit false

def act (a : MemAct) : VM a.Resp := .lift a

def panicWith {α : Type} (e : Panic) : VM α := .act (.panic e) Empty.elim
def kalloc : VM (Option Nat) := act .kalloc
def kfree (pa : Nat) : VM Unit := act (.kfree pa)
def load (pte : PtePtr) : VM Nat := act (.load pte)
def store (pte : PtePtr) (w : Nat) : VM Unit := act (.store pte w)
def memset (pa : Nat) (b : Byte) : VM Unit := act (.memset pa b)
def readPage (pa : Nat) : VM Page := act (.read pa)
def writePage (pa off : Nat) (src : Bytes) (n : Nat) : VM Unit := act (.write pa off src n)

/-! ## Walking -/

/-- The loop of `walk`, from `level` down. -/
def walkFrom (alloc : Bool) (va : Nat) : Nat → Nat → VM (Option PtePtr)
  | 0, pagetable => pure (some ⟨pagetable, PX 0 va⟩)
  | level + 1, pagetable => do
    let pte ← load ⟨pagetable, PX (level + 1) va⟩
    if has pte PTE_V then walkFrom alloc va level (PTE2PA pte)
    else if alloc = false then pure none
    else do
      match ← kalloc with
      | none => pure none
      | some new => do
        memset new 0
        store ⟨pagetable, PX (level + 1) va⟩ (PA2PTE new ||| PTE_V)
        walkFrom alloc va level new

def walk (pagetable va : Nat) (alloc : Bool) : VM (Option PtePtr) :=
  if MAXVA ≤ va then panicWith .walk else walkFrom alloc va 2 pagetable

/-- Returns 0 if there is no user page at `va`. -/
def walkaddr (pagetable va : Nat) : VM Nat :=
  if MAXVA ≤ va then pure 0
  else do
    match ← walk pagetable va false with
    | none => pure 0
    | some ptr => do
      let pte ← load ptr
      if has pte PTE_V = false then pure 0
      else if has pte PTE_U = false then pure 0
      else pure (PTE2PA pte)

/-- The loop of `mappages`; `n` pages follow the one at `a`. -/
def mappagesFrom (pagetable perm : Nat) : Nat → Nat → Nat → VM Bool
  | n, a, pa => do
    match ← walk pagetable a true with
    | none => pure false
    | some ptr => do
      let pte ← load ptr
      if has pte PTE_V then panicWith .remap
      else do
        store ptr (PA2PTE pa ||| perm ||| PTE_V)
        match n with
        | 0 => pure true
        | n + 1 => mappagesFrom pagetable perm n (a + PGSIZE) ((pa + PGSIZE) % 2 ^ 64)

/-- The loop ends when `a` is `last`, wherever that is. -/
def mappages (pagetable va size pa perm : Nat) : VM Bool :=
  let a := PGROUNDDOWN va
  let last := PGROUNDDOWN ((va + size + (2 ^ 64 - 1)) % 2 ^ 64)
  mappagesFrom pagetable perm ((last + 2 ^ 64 - a) % 2 ^ 64 / PGSIZE) a pa

def uvmunmapFrom (pagetable : Nat) (doFree : Bool) : Nat → Nat → VM Unit
  | 0, _ => pure ()
  | n + 1, a => do
    match ← walk pagetable a false with
    | none => panicWith .uvmunmapWalk
    | some ptr => do
      let pte ← load ptr
      if has pte PTE_V = false then panicWith .uvmunmapNotMapped
      else if PTE_FLAGS pte = PTE_V then panicWith .uvmunmapNotLeaf
      else do
        .when doFree (kfree (PTE2PA pte))
        store ptr 0
        uvmunmapFrom pagetable doFree n (a + PGSIZE)

def uvmunmap (pagetable va npages : Nat) (doFree : Bool) : VM Unit :=
  if va % PGSIZE ≠ 0 then panicWith .uvmunmapNotAligned
  else uvmunmapFrom pagetable doFree (((va + npages * PGSIZE) % 2 ^ 64 - va) / PGSIZE) va

/-! ## Copies between the kernel and user memory

Every round copies at least one byte, so as many rounds as there are bytes are enough. What is stored
in a buffer of the kernel is returned, also by a call that fails. -/

def copyoutFrom (pagetable : Nat) : Nat → Nat → Bytes → Nat → VM Bool
  | 0, _, _, _ => pure true
  | rounds + 1, dstva, src, len =>
    if len = 0 then pure true
    else do
      let va0 := PGROUNDDOWN dstva
      let pa0 ← walkaddr pagetable va0
      if pa0 = 0 then pure false
      else do
        let n := min (PGSIZE - (dstva - va0)) len
        writePage pa0 (dstva - va0) src n
        copyoutFrom pagetable rounds (va0 + PGSIZE) (fun i => src (n + i)) (len - n)

def copyout (pagetable dstva : Nat) (src : Bytes) (len : Nat) : VM Bool :=
  copyoutFrom pagetable len dstva src len

/-- `n` bytes, from `off` on. -/
def bytesFrom (c : Bytes) (off n : Nat) : List Byte := (List.range n).map fun i => c (off + i)

/-- `copyin`, with the bytes that are already in `dst`. -/
def copyinFrom (pagetable : Nat) : Nat → List Byte → Nat → Nat → VM (Bool × List Byte)
  | 0, dst, _, _ => pure (true, dst)
  | rounds + 1, dst, srcva, len =>
    if len = 0 then pure (true, dst)
    else do
      let va0 := PGROUNDDOWN srcva
      let pa0 ← walkaddr pagetable va0
      if pa0 = 0 then pure (false, dst)
      else do
        let n := min (PGSIZE - (srcva - va0)) len
        let c ← readPage pa0
        copyinFrom pagetable rounds (dst ++ bytesFrom c (srcva - va0) n) (va0 + PGSIZE) (len - n)

def copyin (pagetable srcva len : Nat) : VM (Bool × List Byte) :=
  copyinFrom pagetable len [] srcva len

/-- The first of the `n` bytes from `off` on that is 0. -/
def findNull (c : Page) (off n : Nat) : Option Nat :=
  (List.range n).find? fun i => decide (c (off + i) = 0)

/-- `copyinstr`, with the bytes that are already in `dst`. -/
def copyinstrFrom (pagetable : Nat) : Nat → List Byte → Nat → Nat → VM (Bool × List Byte)
  | 0, dst, _, _ => pure (false, dst)
  | rounds + 1, dst, srcva, max =>
    if max = 0 then pure (false, dst)
    else do
      let va0 := PGROUNDDOWN srcva
      let pa0 ← walkaddr pagetable va0
      if pa0 = 0 then pure (false, dst)
      else do
        let n := min (PGSIZE - (srcva - va0)) max
        let c ← readPage pa0
        match findNull c (srcva - va0) n with
        | some i => pure (true, dst ++ bytesFrom c (srcva - va0) (i + 1))
        | none =>
          copyinstrFrom pagetable rounds (dst ++ bytesFrom c (srcva - va0) n) (va0 + PGSIZE) (max - n)

def copyinstr (pagetable srcva max : Nat) : VM (Bool × List Byte) :=
  copyinstrFrom pagetable max [] srcva max

end Xv6.Memory
