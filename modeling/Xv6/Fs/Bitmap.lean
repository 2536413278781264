import Xv6.Fs.Unwritten

/-!
# The bitmap in machine integers

`balloc` and `bfree` once more, with their indices as the `int`s and `uint`s of the source: a sum of
`int`s wraps, a comparison with `sb.size` is unsigned. They are right for every bitmap of a file
system of less than `2 ^ 31` blocks. Nothing else of the file system is assumed, only the buffer
cache.
-/

namespace Xv6.Fs.Bitmap

open Xv6.Foundation Xv6.Disk Function

set_option autoImplicit false

abbrev Word := BitVec 32

def wordBPB : Word := BitVec.ofNat 32 BPB

/-- `sb.size` -/
def sizeWord (sb : Superblock) : Word := BitVec.ofNat 32 sb.size

/-- `BBLOCK(b, sb)` for a `uint b`. -/
def bblock (sb : Superblock) (b : Word) : Word := b / wordBPB + BitVec.ofNat 32 sb.bmapstart

/-- `BBLOCK(b, sb)` for an `int b`: the division is signed. -/
def bblockInt (sb : Superblock) (b : Word) : Word :=
  b.sdiv wordBPB + BitVec.ofNat 32 sb.bmapstart

def byteOf (bi : Word) : Nat := (bi.sdiv 8).toNat

/-- `m = 1 << (bi % 8)` -/
def maskOf (bi : Word) : Word := 1#32 <<< (bi.srem 8).toNat

/-- `(bp->data[bi/8] & m) == 0` -/
def isClear (d : Block) (bi : Word) : Bool := (d (byteOf bi)).setWidth 32 &&& maskOf bi == 0

/-- `bp->data[bi/8] |= m` -/
def mark (d : Block) (bi : Word) : Block :=
  Function.update d (byteOf bi) (((d (byteOf bi)).setWidth 32 ||| maskOf bi).setWidth 8)

/-- `bp->data[bi/8] &= ~m` -/
def unmark (d : Block) (bi : Word) : Block :=
  Function.update d (byteOf bi) (((d (byteOf bi)).setWidth 32 &&& ~~~maskOf bi).setWidth 8)

/-- The inner loop of `balloc` from `bi` on, in the block of the bitmap that starts with `b`. -/
def scan (d : Block) (size b : Word) : Nat → Word → Option Word
  | 0, _ => none
  | fuel + 1, bi =>
    if bi.slt wordBPB ∧ b + bi < size then
      if isClear d bi then some bi else scan d size b fuel (bi + 1)
    else none

/-- The outer loop of `balloc` from `b` on. -/
def ballocFrom (dev : Nat) : Nat → Word → K Word
  | 0, _ => throw .ballocOutOfBlocks
  | fuel + 1, b => do
    let k ← get
    if b < sizeWord k.sb then do
      let bp ← bread dev (bblockInt k.sb b).toNat
      let d ← bufData bp
      match scan d (sizeWord k.sb) b (BPB + 1) 0 with
      | some bi => do
        setBufData bp (mark d bi)
        logWrite bp
        brelse bp
        bzero dev (b + bi).toNat
        pure (b + bi)
      | none => do
        brelse bp
        ballocFrom dev fuel (b + wordBPB)
    else throw .ballocOutOfBlocks

def balloc (dev : Nat) : K Word := do
  let k ← get
  ballocFrom dev (k.sb.size / BPB + 1) 0

def bfree (dev : Nat) (b : Word) : K Unit := do
  let k ← get
  let bp ← bread dev (bblock k.sb b).toNat
  let d ← bufData bp
  let bi := b % wordBPB
  check (isClear d bi) .freeingFreeBlock
  setBufData bp (unmark d bi)
  logWrite bp
  brelse bp

/-! ## Indices and bits -/

section Index
variable {b bi : Word} {m : Nat}

theorem msb_ofNat (hm : m < 2 ^ 31) : (BitVec.ofNat 32 m).msb = false := by
  rw [BitVec.msb_eq_false_iff_two_mul_lt, BitVec.toNat_ofNat]
  omega

theorem toNat_ofNat_word (hm : m < 2 ^ 32) : (BitVec.ofNat 32 m).toNat = m := by
  rw [BitVec.toNat_ofNat, Nat.mod_eq_of_lt hm]

theorem sdiv_eq (hb : b.toNat < 2 ^ 31) (hm : m < 2 ^ 31) :
    b.sdiv (BitVec.ofNat 32 m) = b / BitVec.ofNat 32 m := by
  have hmsb : b.msb = false := by
    rw [BitVec.msb_eq_false_iff_two_mul_lt]
    omega
  rw [BitVec.sdiv_eq, hmsb, msb_ofNat hm]
  rfl

theorem srem_eq (hb : b.toNat < 2 ^ 31) (hm : m < 2 ^ 31) :
    b.srem (BitVec.ofNat 32 m) = b % BitVec.ofNat 32 m := by
  have hmsb : b.msb = false := by
    rw [BitVec.msb_eq_false_iff_two_mul_lt]
    omega
  rw [BitVec.srem_eq, hmsb, msb_ofNat hm]

theorem bblockInt_eq {sb : Superblock} (hb : b.toNat < 2 ^ 31) : bblockInt sb b = bblock sb b := by
  rw [bblockInt, wordBPB, sdiv_eq hb (by decide), bblock, wordBPB]

theorem byteOf_eq (hb : bi.toNat < 2 ^ 31) : byteOf bi = bi.toNat / 8 := by
  rw [byteOf, show (8 : Word) = BitVec.ofNat 32 8 from rfl, sdiv_eq hb (by decide),
    BitVec.toNat_udiv, toNat_ofNat_word (by decide)]

theorem toNat_srem_eight (hb : bi.toNat < 2 ^ 31) : (bi.srem 8).toNat = bi.toNat % 8 := by
  rw [show (8 : Word) = BitVec.ofNat 32 8 from rfl, srem_eq hb (by decide), BitVec.toNat_umod,
    toNat_ofNat_word (by decide)]

theorem maskOf_eq (hb : bi.toNat < 2 ^ 31) : maskOf bi = 1#32 <<< (bi.toNat % 8) := by
  rw [maskOf, toNat_srem_eight hb]

theorem and_mask_eq_zero (x : Byte) {i : Nat} (hi : i < 8) :
    x.setWidth 32 &&& 1#32 <<< i = 0 ↔ x.getLsbD i = false := by
  constructor
  · intro h
    have hbit := congrArg (·.getLsbD i) h
    simpa [getLsbD_mask (show i < 32 by omega), hi, show i < 32 by omega] using hbit
  · intro h
    apply BitVec.eq_of_getLsbD_eq
    intro j hj
    rw [BitVec.getLsbD_and, getLsbD_mask hj]
    by_cases he : i = j
    · subst he
      simp [BitVec.getLsbD_setWidth, h]
    · simp [he]

theorem or_mask (x : Byte) (i : Nat) :
    (x.setWidth 32 ||| 1#32 <<< i).setWidth 8 = x ||| 1#8 <<< i := by
  apply BitVec.eq_of_getLsbD_eq
  intro j hj
  simp [hj]

theorem and_not_mask (x : Byte) (i : Nat) :
    (x.setWidth 32 &&& ~~~(1#32 <<< i)).setWidth 8 = x &&& ~~~(1#8 <<< i) := by
  apply BitVec.eq_of_getLsbD_eq
  intro j hj
  simp [hj]

variable (d : Block)

theorem isClear_eq (hb : bi.toNat < 2 ^ 31) : isClear d bi = !getBit d bi.toNat := by
  rw [isClear, byteOf_eq hb, maskOf_eq hb, getBit, Bool.eq_iff_iff, beq_iff_eq,
    and_mask_eq_zero _ (Nat.mod_lt _ (by decide)), Bool.not_eq_true']

theorem mark_eq (hb : bi.toNat < 2 ^ 31) : mark d bi = setBit d bi.toNat := by
  rw [mark, byteOf_eq hb, maskOf_eq hb, or_mask, setBit]

theorem unmark_eq (hb : bi.toNat < 2 ^ 31) : unmark d bi = clearBit d bi.toNat := by
  rw [unmark, byteOf_eq hb, maskOf_eq hb, and_not_mask, clearBit]

end Index

def position (sb : Superblock) (b : Word) : Word × Nat × Nat :=
  (bblock sb b, byteOf (b % wordBPB), ((b % wordBPB).srem 8).toNat)

theorem toNat_mod_BPB (b : Word) : (b % wordBPB).toNat = b.toNat % BPB := by
  rw [BitVec.toNat_umod, wordBPB, toNat_ofNat_word (by decide)]

theorem mod_BPB_lt (b : Word) : (b % wordBPB).toNat < 2 ^ 31 := by
  rw [toNat_mod_BPB]
  exact (Nat.mod_lt _ (by decide)).trans (by decide)

theorem eq_of_bblock_eq {sb : Superblock} {b c : Word} (h : bblock sb b = bblock sb c)
    (hm : b.toNat % BPB = c.toNat % BPB) : b = c := by
  have hdiv : (b / wordBPB).toNat = (c / wordBPB).toNat := by
    rw [bblock, bblock, BitVec.add_left_inj] at h
    rw [h]
  rw [BitVec.toNat_udiv, BitVec.toNat_udiv, wordBPB, toNat_ofNat_word (by decide)] at hdiv
  apply BitVec.eq_of_toNat_eq
  rw [← Nat.div_add_mod b.toNat BPB, ← Nat.div_add_mod c.toNat BPB, hdiv, hm]

theorem position_injective (sb : Superblock) : Function.Injective (position sb) := by
  intro b c h
  simp only [position, Prod.mk.injEq] at h
  obtain ⟨hblock, hbyte, hbit⟩ := h
  rw [byteOf_eq (mod_BPB_lt b), byteOf_eq (mod_BPB_lt c)] at hbyte
  rw [toNat_srem_eight (mod_BPB_lt b), toNat_srem_eight (mod_BPB_lt c)] at hbit
  refine eq_of_bblock_eq hblock ?_
  rw [← toNat_mod_BPB, ← toNat_mod_BPB]
  omega

/-! ## The loops of `balloc` -/

/-- The result of a search for the first clear bit from `i` on and below `n`. -/
def Finds (d : Block) (i n : Nat) : Option Word → Prop
  | some r => r.toNat < n ∧ getBit d r.toNat = false ∧
      ∀ j, i ≤ j → j < r.toNat → getBit d j = true
  | none => ∀ j, i ≤ j → j < n → getBit d j = true

theorem Finds.step {d : Block} {i n : Nat} {o : Option Word} (hbit : getBit d i = true)
    (h : Finds d (i + 1) n o) : Finds d i n o := by
  have first : ∀ j, i ≤ j → (i + 1 ≤ j → getBit d j = true) → getBit d j = true := by
    intro j hj hrest
    rcases hj.eq_or_lt with rfl | hlt
    · exact hbit
    · exact hrest hlt
  cases o with
  | none => exact fun j h1 h2 => first j h1 fun h3 => h j h3 h2
  | some r => exact ⟨h.1, h.2.1, fun j h1 h2 => first j h1 fun h3 => h.2.2 j h3 h2⟩

theorem scan_spec (d : Block) (size b : Word) (fuel : Nat) (bi : Word) {n : Nat}
    (hb : b.toNat < 2 ^ 31) (hsize : size.toNat < 2 ^ 31)
    (hn : n = min BPB (size.toNat - b.toNat)) (hbi : bi.toNat ≤ n) (hfuel : n < fuel + bi.toNat) :
    Finds d bi.toNat n (scan d size b fuel bi) := by
  induction fuel generalizing bi with
  | zero => omega
  | succ fuel ih =>
    have hBPB : BPB = 8192 := rfl
    have hslt : bi.slt wordBPB ↔ bi.toNat < BPB := by
      rw [wordBPB, BitVec.slt_iff_toInt_lt, BitVec.toInt_eq_toNat_of_lt (by omega),
        BitVec.toInt_eq_toNat_of_lt (by rw [toNat_ofNat_word (by decide)]; decide),
        toNat_ofNat_word (by decide)]
      omega
    have hadd : b + bi < size ↔ b.toNat + bi.toNat < size.toNat := by bv_omega
    rw [scan]
    by_cases hin : bi.slt wordBPB ∧ b + bi < size
    · rw [if_pos hin, isClear_eq d (by omega)]
      rw [hslt, hadd] at hin
      cases hbit : getBit d bi.toNat with
      | false => exact ⟨by omega, hbit, fun j h1 h2 => by omega⟩
      | true =>
        have hsucc : (bi + 1).toNat = bi.toNat + 1 := by bv_omega
        have hrest := ih (bi + 1) (by omega) (by omega)
        rw [hsucc] at hrest
        exact hrest.step hbit
    · rw [if_neg hin]
      rw [hslt, hadd] at hin
      intro j h1 h2
      omega

def bit (k : Kernel) (c : Word) : Bool :=
  getBit (k.view (bblock k.sb c).toNat) (c.toNat % BPB)

/-- The blocks of the bitmap are neither locked nor changed outside the log, and a block that is
locked is in use. -/
structure Ready (k : Kernel) (dirty : Set Nat) (held : List (Nat × Nat)) : Prop where
  cache : CacheInv k dirty k.log.lh held
  small : k.sb.size < 2 ^ 31
  one : held.length ≤ 1
  clean : ∀ c : Word, c.toNat < k.sb.size → (bblock k.sb c).toNat ∉ dirty
  unlocked : ∀ c : Word, c.toNat < k.sb.size → (bblock k.sb c).toNat ∉ held.map Prod.snd
  used : ∀ c : Word, c.toNat < k.sb.size → c.toNat ∈ held.map Prod.snd → bit k c = true

structure Allocated (k k' : Kernel) (dirty : Set Nat) (held : List (Nat × Nat)) (b : Word) :
    Prop where
  lt : b.toNat < k.sb.size
  free : bit k b = false
  least : ∀ c : Word, c.toNat < b.toNat → bit k c = true
  marks : bblock k.sb b ≠ b →
    k'.view (bblock k.sb b).toNat = setBit (k.view (bblock k.sb b).toNat) (b.toNat % BPB)
  zero : k'.view b.toNat = fun _ => 0
  kept : ∀ c, c ∉ dirty → c ≠ b.toNat → c ≠ (bblock k.sb b).toNat → k'.view c = k.view c
  cache : CacheInv k' ((dirty \ {(bblock k.sb b).toNat}) \ {b.toNat}) k'.log.lh held
  lh : k'.log.lh = addBlock (addBlock k.log.lh (bblock k.sb b).toNat) b.toNat
  rest : SameRest k k'

section Spec
variable {k k' : Kernel} {dirty : Set Nat} {held : List (Nat × Nat)} {α : Type}
  {Q : α → Kernel → Prop} {E : Panic → Kernel → Prop}

theorem wp_bread {b : Nat} {g : Nat → K α} (h : CacheInv k dirty k.log.lh held)
    (hb : b ∉ held.map Prod.snd) (hroom : held.length + k.log.lh.length < NBUF)
    (hg : ∀ i k', CacheInv k' dirty k'.log.lh ((i, b) :: held) → Quiet k k' →
      ViewKept k k' dirty k.log.lh held → wp (g i) Q E k') : wp (bread ROOTDEV b >>= g) Q E k := by
  refine wp_seq (bread_spec h b) ?_ ?_
  · rintro i k1 ⟨h1, q1, v1, -⟩
    rw [← q1.log] at h1
    exact hg i k1 h1 q1 v1
  · rintro e k1 ⟨-, ⟨-, -, hlen⟩ | ⟨-, hm⟩⟩
    · omega
    · exact absurd hm hb

theorem wp_store {i b : Nat} {d : Block} {g : Unit → K α}
    (h : CacheInv k dirty k.log.lh ((i, b) :: held)) (hroom : LogRoom True k 0)
    (hg : ∀ k', Stored k k' b d dirty held → wp (g ()) Q E k') :
    wp (setBufData i d >>= fun _ => logWrite i >>= fun _ => brelse i >>= g) Q E k := by
  have hs : wp (setBufData i d >>= fun _ => logWrite i >>= fun _ => brelse i)
      (fun _ k' => wp (g ()) Q E k') E k :=
    wp_mono (store_spec h d hroom) (fun _ k' hk => hg k' hk) fun _ _ he => absurd trivial he.1
  simpa only [wp_bind] using hs

theorem logRoom_stored {n b : Nat} {d : Block} (h : LogRoom True k (n + 1))
    (hs : Stored k k' b d dirty held) : LogRoom True k' n := by
  have hle := length_addBlock_le k.log.lh b
  refine h.mono hs.steady ?_
  rw [hs.lh]
  omega

theorem bzero_spec {b : Nat} (h : CacheInv k dirty k.log.lh held) (hb : b ∉ held.map Prod.snd)
    (hlen : held.length ≤ 1) (hroom : LogRoom True k 0) :
    wp (bzero ROOTDEV b) (fun _ k' => CacheInv k' (dirty \ {b}) k'.log.lh held ∧ SameRest k k' ∧
      k'.log.lh = addBlock k.log.lh b ∧ k'.view b = (fun _ => 0) ∧
      ∀ c ∉ dirty, c ≠ b → k'.view c = k.view c) E k := by
  refine wp_bread h hb (hroom.cache (fun _ => hlen) trivial) ?_
  intro i k1 h1 q1 v1
  refine wp_mono (store_spec h1 _ (hroom.quiet q1)) ?_ fun _ _ he => absurd trivial he.1
  intro _ k2 hs
  refine ⟨hs.cache, q1.sameRest.trans hs.rest, by rw [hs.lh, q1.log], ?_, fun c hc hne => ?_⟩
  · rw [hs.view, update_self]
  · rw [hs.view, update_of_ne hne, v1 c (Or.inl hc)]

theorem balloc_found {i : Nat} {b bi : Word} (h : Ready k dirty held)
    (h1 : CacheInv k' dirty k'.log.lh ((i, (bblock k.sb b).toNat) :: held)) (q1 : Quiet k k')
    (v1 : ViewKept k k' dirty k.log.lh held) (hroom : LogRoom True k 2)
    (hlt : b.toNat < k.sb.size) (hfree : bit k b = false)
    (hleast : ∀ c : Word, c.toNat < b.toNat → bit k c = true) (hbi : bi.toNat = b.toNat % BPB) :
    wp (do
        setBufData i (mark (k'.view (bblock k.sb b).toNat) bi)
        logWrite i
        brelse i
        bzero ROOTDEV b.toNat
        pure b)
      (fun a k' => Allocated k k' dirty held a) E k' := by
  have hclean := h.clean b hlt
  have hview := v1 _ (Or.inl hclean)
  have hb31 : bi.toNat < 2 ^ 31 := by
    have := h.small
    have := Nat.mod_le b.toNat BPB
    omega
  have hunlocked : b.toNat ∉ held.map Prod.snd := by
    intro hm
    rw [h.used b hlt hm] at hfree
    cases hfree
  rw [mark_eq _ hb31, hbi, hview]
  refine wp_store h1 ((hroom.quiet q1).mono (Steady.refl _) (by omega)) ?_
  intro k2 hs
  refine wp_then (bzero_spec hs.cache hunlocked h.one
    ((logRoom_stored (hroom.quiet q1) hs).mono (Steady.refl _) (by omega))) ?_
  rintro _ k3 ⟨h3, r3, l3, z3, v3⟩
  refine ⟨hlt, hfree, hleast, fun hne => ?_, z3, fun c hc hcb hcm => ?_, h3, ?_, ?_⟩
  · rw [v3 _ (fun hm => hclean hm.1) (fun he => hne (BitVec.eq_of_toNat_eq he)), hs.view,
      update_self]
  · rw [v3 c (fun hm => hc hm.1) hcb, hs.view, update_of_ne hcm, v1 c (Or.inl hc)]
  · rw [l3, hs.lh, q1.log]
  · exact q1.sameRest.trans (hs.rest.trans r3)

theorem bblock_add (sb : Superblock) {b : Word} (bi : Word) (hmul : b.toNat % BPB = 0)
    (hb : b.toNat < 2 ^ 31) (hbi : bi.toNat < BPB) :
    bblock sb (b + bi) = bblock sb b ∧ (b + bi).toNat % BPB = bi.toNat := by
  have hadd : (b + bi).toNat = b.toNat + bi.toNat := by
    unfold BPB BSIZE at hbi
    bv_omega
  constructor
  · rw [bblock, bblock, BitVec.add_left_inj]
    apply BitVec.eq_of_toNat_eq
    rw [BitVec.toNat_udiv, BitVec.toNat_udiv, wordBPB, toNat_ofNat_word (by decide), hadd]
    unfold BPB BSIZE at *
    omega
  · rw [hadd]
    unfold BPB BSIZE at *
    omega

theorem bit_of_range {b c : Word} (hmul : b.toNat % BPB = 0) (hb : b.toNat < 2 ^ 31)
    (hbc : b.toNat ≤ c.toNat) (hc : c.toNat < b.toNat + BPB) :
    bit k c = getBit (k.view (bblock k.sb b).toNat) (c.toNat - b.toNat) := by
  have hsub : (c - b).toNat = c.toNat - b.toNat := by bv_omega
  have hadd : b + (c - b) = c := by bv_omega
  obtain ⟨heq, hmod⟩ := bblock_add k.sb (c - b) hmul hb (by omega)
  rw [hadd] at heq hmod
  rw [bit, heq, hmod, hsub]

theorem sizeWord_toNat (h : Ready k dirty held) : (sizeWord k.sb).toNat = k.sb.size := by
  have := h.small
  exact toNat_ofNat_word (by omega)

theorem Ready.quiet (h : Ready k dirty held) (hc : CacheInv k' dirty k'.log.lh held)
    (hq : Quiet k k') (hv : ∀ c ∉ dirty, k'.view c = k.view c) :
    Ready k' dirty held ∧ ∀ c : Word, c.toNat < k.sb.size → bit k' c = bit k c := by
  have hbit : ∀ c : Word, c.toNat < k.sb.size → bit k' c = bit k c := by
    intro c hlt
    rw [bit, bit, hq.sb, hv _ (h.clean c hlt)]
  refine ⟨⟨hc, ?_, h.one, ?_, ?_, ?_⟩, hbit⟩ <;> rw [hq.sb]
  · exact h.small
  · exact h.clean
  · exact h.unlocked
  · intro c hlt hm
    rw [hbit c hlt]
    exact h.used c hlt hm

theorem Allocated.of_quiet {k₀ : Kernel} {b : Word} (h : Allocated k k' dirty held b)
    (hq : Quiet k₀ k) (hv : ∀ c ∉ dirty, k.view c = k₀.view c)
    (hclean : ∀ c : Word, c.toNat < k₀.sb.size → (bblock k₀.sb c).toNat ∉ dirty) :
    Allocated k₀ k' dirty held b := by
  have hlt : b.toNat < k₀.sb.size := by
    rw [← hq.sb]
    exact h.lt
  have hbit : ∀ c : Word, c.toNat < k₀.sb.size → bit k c = bit k₀ c := by
    intro c hc
    rw [bit, bit, hq.sb, hv _ (hclean c hc)]
  have hmarks := h.marks
  have hkept := h.kept
  have hcache := h.cache
  have hlh := h.lh
  rw [hq.sb] at hmarks hkept hcache hlh
  refine ⟨hlt, ?_, fun c hc => ?_, fun hne => ?_, h.zero, fun c hc hcb hcm => ?_, hcache, ?_, ?_⟩
  · rw [← hbit b hlt]
    exact h.free
  · rw [← hbit c (by omega)]
    exact h.least c hc
  · rw [hmarks hne, hv _ (hclean b hlt)]
  · rw [hkept c hc hcb hcm, hv c hc]
  · rw [hlh, hq.log]
  · exact hq.sameRest.trans h.rest

theorem ballocFrom_spec (fuel : Nat) (b : Word) (h : Ready k dirty held) (hroom : LogRoom True k 2)
    (hmul : b.toNat % BPB = 0) (hfuel : k.sb.size < b.toNat + fuel * BPB)
    (hprev : ∀ c : Word, c.toNat < b.toNat → c.toNat < k.sb.size → bit k c = true) :
    wp (ballocFrom ROOTDEV fuel b) (fun a k' => Allocated k k' dirty held a)
      (fun e _ => e = .ballocOutOfBlocks ∧ ∀ c : Word, c.toNat < k.sb.size → bit k c = true) k := by
  induction fuel generalizing k b with
  | zero => exact ⟨rfl, fun c hc => hprev c (by omega) hc⟩
  | succ fuel ih =>
    have hsize := sizeWord_toNat h
    have hsmall := h.small
    rw [ballocFrom, wp_bind, wp_get]
    refine wp_ite (fun hb => ?_) (fun hb => ?_)
    swap
    · rw [BitVec.lt_def, hsize] at hb
      exact ⟨rfl, fun c hc => hprev c (by omega) hc⟩
    rw [BitVec.lt_def, hsize] at hb
    rw [bblockInt_eq (by omega)]
    refine wp_bread h.cache (h.unlocked b hb) (hroom.cache (fun _ => h.one) trivial) ?_
    intro i k1 h1 q1 v1
    have hbb := v1 _ (Or.inl (h.clean b hb))
    rw [wp_bind, bufData_spec h1 List.mem_cons_self]
    have hscan := scan_spec (k1.view (bblock k.sb b).toNat) (sizeWord k.sb) b (BPB + 1) 0
      (n := min BPB (k.sb.size - b.toNat)) (by omega) (by omega) (by rw [hsize])
      (Nat.zero_le _) (show _ < BPB + 1 + 0 by omega)
    -- What the loop has seen of this block of the bitmap.
    have seen : ∀ c : Word, b.toNat ≤ c.toNat → c.toNat < b.toNat + BPB →
        bit k c = getBit (k1.view (bblock k.sb b).toNat) (c.toNat - b.toNat) := by
      intro c hbc hc
      rw [bit_of_range hmul (by omega) hbc hc, hbb]
    split
    · rename_i bi hbi
      rw [hbi] at hscan
      obtain ⟨hlt, hclear, hset⟩ := hscan
      have hadd : (b + bi).toNat = b.toNat + bi.toNat := by bv_omega
      obtain ⟨heq, hmod⟩ := bblock_add k.sb bi hmul (by omega) (by omega)
      have hfound := balloc_found (b := b + bi) (i := i)
        (E := fun e _ => e = .ballocOutOfBlocks ∧ ∀ c : Word, c.toNat < k.sb.size → bit k c = true)
        h (by rw [heq]; exact h1) q1 v1 hroom (by omega) ?_ ?_ hmod.symm
      · rw [heq] at hfound
        exact hfound
      · rw [seen _ (by omega) (by omega), hadd, Nat.add_sub_cancel_left]
        exact hclear
      · intro c hc
        by_cases hcb : c.toNat < b.toNat
        · exact hprev c hcb (by omega)
        · rw [seen c (by omega) (by omega)]
          exact hset _ (Nat.zero_le _) (by omega)
    · rename_i hnone
      rw [hnone] at hscan
      refine wp_sure (brelse_spec h1 List.mem_cons_self) ?_
      rintro _ k2 ⟨h2, q2, v2⟩
      rw [List.erase_cons_head, ← q2.log] at h2
      have hq := q1.trans q2
      have hv : ∀ c ∉ dirty, k2.view c = k.view c := fun c hc => by rw [v2, v1 c (Or.inl hc)]
      obtain ⟨hready, hbit⟩ := h.quiet h2 hq hv
      have hnext : (b + wordBPB).toNat = b.toNat + BPB := by
        have hw : wordBPB.toNat = BPB := toNat_ofNat_word (by decide)
        have : BPB = 8192 := rfl
        bv_omega
      refine wp_mono (ih (b + wordBPB) hready (hroom.quiet hq) ?_ ?_ ?_) ?_ ?_
      · rw [hnext, Nat.add_mod_right]
        exact hmul
      · rw [hq.sb, hnext]
        rw [Nat.succ_mul] at hfuel
        omega
      · intro c hc hcs
        rw [hq.sb] at hcs
        rw [hnext] at hc
        rw [hbit c hcs]
        by_cases hcb : c.toNat < b.toNat
        · exact hprev c hcb hcs
        · rw [seen c (by omega) hc]
          exact hscan _ (Nat.zero_le _) (by omega)
      · exact fun a k3 ha => ha.of_quiet hq hv h.clean
      · rintro e k3 ⟨rfl, hall⟩
        refine ⟨rfl, fun c hc => ?_⟩
        rw [← hbit c hc]
        exact hall c (by rw [hq.sb]; exact hc)

theorem balloc_spec (h : Ready k dirty held) (hroom : LogRoom True k 2) :
    wp (balloc ROOTDEV) (fun a k' => Allocated k k' dirty held a)
      (fun e _ => e = .ballocOutOfBlocks ∧ ∀ c : Word, c.toNat < k.sb.size → bit k c = true) k := by
  rw [balloc, wp_bind, wp_get]
  refine ballocFrom_spec _ 0 h hroom rfl ?_ fun c hc => absurd hc (Nat.not_lt_zero _)
  have := Nat.lt_div_mul_add (a := k.sb.size) (show 0 < BPB by decide)
  rw [Nat.succ_mul]
  show _ < 0 + _
  omega

structure Freed (k k' : Kernel) (dirty : Set Nat) (b : Word) : Prop where
  marks : k'.view (bblock k.sb b).toNat =
    clearBit (k.view (bblock k.sb b).toNat) (b.toNat % BPB)
  kept : ∀ c, c ∉ dirty → c ≠ (bblock k.sb b).toNat → k'.view c = k.view c
  rest : SameRest k k'

theorem bfree_spec {b : Word} (h : CacheInv k dirty k.log.lh held) (hlen : held.length ≤ 1)
    (hclean : (bblock k.sb b).toNat ∉ dirty) (hunlocked : (bblock k.sb b).toNat ∉ held.map Prod.snd)
    (hroom : LogRoom True k 0) (hb : bit k b = true) :
    wp (bfree ROOTDEV b) (fun _ k' => Freed k k' dirty b) E k := by
  rw [bfree, wp_bind, wp_get]
  refine wp_bread h hunlocked (hroom.cache (fun _ => hlen) trivial) ?_
  intro i k1 h1 q1 v1
  have hview := v1 _ (Or.inl hclean)
  rw [wp_bind, bufData_spec h1 List.mem_cons_self]
  dsimp only
  rw [wp_bind, wp_check, hview, isClear_eq _ (mod_BPB_lt b), unmark_eq _ (mod_BPB_lt b),
    toNat_mod_BPB]
  refine ⟨fun hc => ?_, fun _ => ?_⟩
  · rw [bit] at hb
    rw [hb] at hc
    cases hc
  refine wp_mono (store_spec h1 _ (hroom.quiet q1)) ?_ fun _ _ he => absurd trivial he.1
  intro _ k2 hs
  refine ⟨by rw [hs.view, update_self], fun c hc hne => ?_, q1.sameRest.trans hs.rest⟩
  rw [hs.view, update_of_ne hne, v1 c (Or.inl hc)]

/-- If `b` is not a block of the bitmap itself, its bit is the one that changes. -/
theorem Allocated.bit_eq {b c : Word} (h : Allocated k k' dirty held b)
    (hself : ∀ c : Word, c.toNat < k.sb.size → bblock k.sb c ≠ b)
    (hclean : ∀ c : Word, c.toNat < k.sb.size → (bblock k.sb c).toNat ∉ dirty)
    (hc : c.toNat < k.sb.size) : bit k' c = (bit k c || decide (c = b)) := by
  rw [bit, h.rest.sb]
  by_cases heq : bblock k.sb c = bblock k.sb b
  · rw [heq, h.marks (hself b h.lt), getBit_setBit, bit, heq]
    congr 1
    rw [decide_eq_decide]
    refine ⟨fun hm => eq_of_bblock_eq heq hm.symm, ?_⟩
    rintro rfl
    rfl
  · have hne : c ≠ b := fun hcb => heq (by rw [hcb])
    have htoNat {x y : Word} (hxy : x ≠ y) : x.toNat ≠ y.toNat := fun he =>
      hxy (BitVec.eq_of_toNat_eq he)
    rw [h.kept _ (hclean c hc) (htoNat (hself c hc)) (htoNat heq), bit, decide_eq_false hne,
      Bool.or_false]

theorem Freed.bit_eq {b c : Word} (h : Freed k k' dirty b)
    (hclean : (bblock k.sb c).toNat ∉ dirty) : bit k' c = (bit k c && !decide (c = b)) := by
  rw [bit, h.rest.sb]
  by_cases heq : bblock k.sb c = bblock k.sb b
  · rw [heq, h.marks, getBit_clearBit, bit, heq]
    congr 2
    rw [decide_eq_decide]
    refine ⟨fun hm => eq_of_bblock_eq heq hm.symm, ?_⟩
    rintro rfl
    rfl
  · have hne : c ≠ b := fun hcb => heq (by rw [hcb])
    rw [h.kept _ hclean (fun he => heq (BitVec.eq_of_toNat_eq he)), bit, decide_eq_false hne]
    simp

/-- The bitmap marks its own blocks as in use. -/
def SelfMarked (k : Kernel) : Prop :=
  ∀ c : Word, c.toNat < k.sb.size → (bblock k.sb c).toNat < k.sb.size → bit k (bblock k.sb c) = true

theorem SelfMarked.bblock_ne {b : Word} (h : SelfMarked k) (hlt : b.toNat < k.sb.size)
    (hfree : bit k b = false) : ∀ c : Word, c.toNat < k.sb.size → bblock k.sb c ≠ b := by
  rintro c hc rfl
  rw [h c hc hlt] at hfree
  cases hfree

/-- No two blocks share a bit. `balloc` returns the least block whose bit is clear, and panics only
if there is none; it sets this bit, clears this block and changes nothing else. `bfree` of a block
in use clears its bit and nothing else, so that freeing what was allocated gives the old bitmap. -/
theorem bitmap_exact (h : Ready k dirty held) (hroom : LogRoom True k 2) (hself : SelfMarked k) :
    Function.Injective (position k.sb) ∧
    wp (balloc ROOTDEV)
      (fun b k' => Allocated k k' dirty held b ∧
        ∀ c : Word, c.toNat < k.sb.size → bit k' c = (bit k c || decide (c = b)))
      (fun e _ => e = .ballocOutOfBlocks ∧ ∀ c : Word, c.toNat < k.sb.size → bit k c = true) k ∧
    (∀ b : Word, b.toNat < k.sb.size → bit k b = true →
      wp (bfree ROOTDEV b)
        (fun _ k' => Freed k k' dirty b ∧
          ∀ c : Word, c.toNat < k.sb.size → bit k' c = (bit k c && !decide (c = b)))
        (fun _ _ => False) k) ∧
    wp (balloc ROOTDEV >>= bfree ROOTDEV)
      (fun _ k' => ∀ c : Word, c.toNat < k.sb.size → bit k' c = bit k c)
      (fun e _ => e = .ballocOutOfBlocks ∧ ∀ c : Word, c.toNat < k.sb.size → bit k c = true) k := by
  have hbits {b : Word} {k' : Kernel} (ha : Allocated k k' dirty held b) {c : Word}
      (hc : c.toNat < k.sb.size) : bit k' c = (bit k c || decide (c = b)) :=
    ha.bit_eq (hself.bblock_ne ha.lt ha.free) h.clean hc
  refine ⟨position_injective k.sb, ?_, fun b hb hused => ?_, ?_⟩
  · exact wp_mono (balloc_spec h hroom) (fun b k' ha => ⟨ha, fun c => hbits ha⟩) fun _ _ he => he
  · refine wp_mono (bfree_spec h.cache h.one (h.clean b hb) (h.unlocked b hb)
      (hroom.mono (Steady.refl k) (by omega)) hused) ?_ fun _ _ he => he
    exact fun _ k' hf => ⟨hf, fun c hc => hf.bit_eq (h.clean c hc)⟩
  · refine wp_seq (balloc_spec h hroom) ?_ fun _ _ he => he
    intro b k1 ha
    have hsb := ha.rest.sb
    have hroom1 : LogRoom True k1 0 := by
      refine hroom.mono (steady_of_sameRest ha.rest) ?_
      have h1 := length_addBlock_le k.log.lh (bblock k.sb b).toNat
      have h2 := length_addBlock_le (addBlock k.log.lh (bblock k.sb b).toNat) b.toNat
      rw [ha.lh]
      omega
    have hclean {c : Word} (hc : c.toNat < k.sb.size) :
        (bblock k1.sb c).toNat ∉ (dirty \ {(bblock k.sb b).toNat}) \ {b.toNat} := by
      rw [hsb]
      exact fun hm => h.clean c hc hm.1.1
    refine wp_mono (bfree_spec ha.cache h.one (hclean ha.lt)
      (by rw [hsb]; exact h.unlocked b ha.lt) hroom1 (by rw [hbits ha ha.lt]; simp)) ?_
      fun _ _ he => he
    intro _ k2 hf c hc
    rw [hf.bit_eq (hclean hc), hbits ha hc]
    by_cases hcb : c = b
    · rw [hcb, ha.free]
      simp
    · simp [hcb]

end Spec

/-- Inside an operation, on a disk of eight blocks whose bitmap is block 2. -/
def tinyKernel (bits : Byte) : Kernel where
  disk := fun b => if b = 2 then fun j => if j = 0 then bits else 0 else fun _ => 0
  writes := []
  buf := fun _ => freshBuf
  lru := (List.range NBUF).reverse
  log := ⟨4, LOGSIZE, 1, false, ROOTDEV, []⟩
  sb := ⟨FSMAGIC, 8, 5, 1, LOGSIZE, 4, 1, 2⟩
  inode := fun _ => ⟨ROOTDEV, 0, 0, false, false, freshDInode 0⟩

theorem tinyKernel_ready (bits : Byte) : Ready (tinyKernel bits) ∅ [] :=
  ⟨{ reboot_cacheInv (tinyKernel bits) (tinyKernel bits).disk with },
    (by decide : 8 < 2 ^ 31), Nat.zero_le 1, (fun _ _ h => h), (fun _ _ h => nomatch h), (fun _ _ h => nomatch h)⟩

theorem tinyKernel_room (bits : Byte) : LogRoom True (tinyKernel bits) 2 :=
  fun _ => ⟨Nat.le_refl 1, rfl, (by decide : 0 + 2 ≤ LOGSIZE - 2)⟩

theorem tinyKernel_selfMarked : SelfMarked (tinyKernel 7) := by
  intro c hc _
  have hblock : ∀ n < 8, bblock (tinyKernel 7).sb (BitVec.ofNat 32 n) = 2 := by decide
  have hc2 := hblock c.toNat hc
  rw [BitVec.ofNat_toNat, BitVec.setWidth_eq] at hc2
  rw [hc2]
  rfl

/-- Block 3 is the first free one. -/
theorem bitmap_exact_tiny :
    bit (tinyKernel 7) 3 = false ∧
    wp (balloc ROOTDEV >>= bfree ROOTDEV)
      (fun _ k' => ∀ c : Word, c.toNat < 8 → bit k' c = bit (tinyKernel 7) c)
      (fun e _ => e = .ballocOutOfBlocks ∧ ∀ c : Word, c.toNat < 8 → bit (tinyKernel 7) c = true)
      (tinyKernel 7) :=
  ⟨rfl, (bitmap_exact (tinyKernel_ready 7) (tinyKernel_room 7) tinyKernel_selfMarked).2.2.2⟩

/-- If the bitmap says that its own block is free, `balloc` returns this block and clears the marks
of all others. -/
theorem balloc_bitmap_block :
    Ready (tinyKernel 3) ∅ [] ∧ LogRoom True (tinyKernel 3) 2 ∧ bit (tinyKernel 3) 0 = true ∧
    wp (balloc ROOTDEV) (fun b k' => b = 2 ∧ bit k' 0 = false ∧ bit k' 2 = false)
      (fun _ _ => False) (tinyKernel 3) :=
  ⟨tinyKernel_ready 3, tinyKernel_room 3, rfl, rfl, rfl, rfl⟩

/-! ## The allocator of the file system

Where the blocks of the bitmap have numbers below `2 ^ 32`, these functions are those that the file
system is modelled with. -/

section Refinement
variable {k : Kernel} {sb : Superblock} {α : Type} {E : Panic → Kernel → Prop}

theorem Finds.firstFree_eq {d : Block} {n : Nat} {o : Option Word} (h : Finds d 0 n o) :
    firstFree d n = o.map BitVec.toNat := by
  cases o with
  | none =>
    refine List.find?_range_eq_none.mpr fun j hj => ?_
    rw [h j (Nat.zero_le j) hj]
    rfl
  | some r =>
    refine List.find?_range_eq_some.mpr ⟨?_, List.mem_range.mpr h.1, fun j hj => ?_⟩
    · rw [h.2.1]
      rfl
    · rw [h.2.2 j (Nat.zero_le j) hj]
      rfl

theorem toNat_bblock {b : Word} (h : sb.bmapstart + b.toNat / BPB < 2 ^ 32) :
    (bblock sb b).toNat = Fs.bblock sb b.toNat := by
  rw [bblock, BitVec.toNat_add, BitVec.toNat_udiv, wordBPB, toNat_ofNat_word (by decide),
    toNat_ofNat_word ((Nat.le_add_right _ _).trans_lt h), Nat.mod_eq_of_lt (by omega), Fs.bblock]

theorem ballocFrom_refines (dev fuel : Nat) (b : Word) (Q : Word → Kernel → Prop)
    (hsize : k.sb.size < 2 ^ 31) (hend : k.sb.bmapstart + k.sb.size / BPB < 2 ^ 32) :
    wp (ballocFrom dev fuel b) Q E k ↔
      wp (Fs.ballocFrom dev fuel b.toNat) (fun n => Q (BitVec.ofNat 32 n)) E k := by
  induction fuel generalizing k b with
  | zero => exact Iff.rfl
  | succ fuel ih =>
    have hword : (sizeWord k.sb).toNat = k.sb.size := toNat_ofNat_word (by omega)
    rw [ballocFrom, Fs.ballocFrom, wp_bind, wp_get, wp_bind, wp_get]
    by_cases hb : b.toNat < k.sb.size
    swap
    · rw [if_neg (by rw [BitVec.lt_def, hword]; exact hb), if_neg hb]
      exact Iff.rfl
    have hdiv : b.toNat / BPB ≤ k.sb.size / BPB := Nat.div_le_div_right hb.le
    rw [if_pos (by rw [BitVec.lt_def, hword]; exact hb), if_pos hb, bblockInt_eq (by omega),
      toNat_bblock (by omega), wp_bind, wp_bind]
    refine wp_congr idles_bread.sb fun bp k1 hsb => ?_
    simp only [bufData, wp_bind, wp_get, wp_pure]
    generalize (k1.buf bp).data = d
    have hscan := (scan_spec d (sizeWord k.sb) b (BPB + 1) 0 (by omega) (by omega) rfl
      (Nat.zero_le _) (show _ < BPB + 1 + 0 by omega))
    have hfree := hscan.firstFree_eq
    rw [hword] at hscan hfree
    rw [hfree]
    cases hres : scan d (sizeWord k.sb) b (BPB + 1) 0 with
    | none =>
      rw [Option.map_none, wp_bind, wp_bind]
      refine wp_congr idles_brelse.sb fun _ k2 hsb2 => ?_
      have hnext : (b + wordBPB).toNat = b.toNat + BPB := by
        have hw : wordBPB.toNat = BPB := toNat_ofNat_word (by decide)
        have : BPB = 8192 := rfl
        bv_omega
      rw [← hnext]
      exact ih (b + wordBPB) (by rw [hsb2, hsb]; exact hsize) (by rw [hsb2, hsb]; exact hend)
    | some bi =>
      rw [hres] at hscan
      have hlt := hscan.1
      have hadd : (b + bi).toNat = b.toNat + bi.toNat := by bv_omega
      have hback : BitVec.ofNat 32 (b.toNat + bi.toNat) = b + bi := by
        rw [← hadd, BitVec.ofNat_toNat, BitVec.setWidth_eq]
      simp only [Option.map_some, mark_eq d (show bi.toNat < 2 ^ 31 by omega), wp_bind, wp_pure,
        hadd, hback]

theorem balloc_refines (dev : Nat) (Q : Word → Kernel → Prop) (hsize : k.sb.size < 2 ^ 31)
    (hend : k.sb.bmapstart + k.sb.size / BPB < 2 ^ 32) :
    wp (balloc dev) Q E k ↔ wp (Fs.balloc dev) (fun n => Q (BitVec.ofNat 32 n)) E k := by
  rw [balloc, Fs.balloc, wp_bind, wp_get, wp_bind, wp_get]
  exact ballocFrom_refines dev _ 0 Q hsize hend

theorem bfree_refines (dev : Nat) (b : Word) (Q : Unit → Kernel → Prop)
    (hend : k.sb.bmapstart + b.toNat / BPB < 2 ^ 32) :
    wp (bfree dev b) Q E k ↔ wp (Fs.bfree dev b.toNat) Q E k := by
  have hclear (d : Block) : isClear d (b % wordBPB) = !getBit d (b.toNat % BPB) := by
    rw [isClear_eq d (mod_BPB_lt b), toNat_mod_BPB]
  have hunmark (d : Block) : unmark d (b % wordBPB) = clearBit d (b.toNat % BPB) := by
    rw [unmark_eq d (mod_BPB_lt b), toNat_mod_BPB]
  simp only [bfree, Fs.bfree, wp_bind, wp_get, toNat_bblock hend, hclear, hunmark]

end Refinement

/-- In machine integers the allocator does what the file system's model of it does: the same
blocks, the same states, the same panics. -/
theorem allocator_refines (k : Kernel) (dev : Nat) (hsize : k.sb.size < 2 ^ 31)
    (hend : k.sb.bmapstart + k.sb.size / BPB < 2 ^ 32) (E : Panic → Kernel → Prop) :
    (∀ Q, wp (balloc dev) Q E k ↔ wp (Fs.balloc dev) (fun n => Q (BitVec.ofNat 32 n)) E k) ∧
    ∀ b : Word, b.toNat < k.sb.size → ∀ Q,
      (wp (bfree dev b) Q E k ↔ wp (Fs.bfree dev b.toNat) Q E k) := by
  refine ⟨fun Q => balloc_refines dev Q hsize hend, fun b hb Q => bfree_refines dev b Q ?_⟩
  have := Nat.div_le_div_right (c := BPB) hb.le
  omega

theorem allocator_refines_tiny :
    wp (Fs.balloc ROOTDEV) (fun n _ => BitVec.ofNat 32 n = 3#32) (fun _ _ => False) (tinyKernel 7) :=
  ((allocator_refines (tinyKernel 7) ROOTDEV (by decide) (by decide) fun _ _ => False).1
    fun b _ => b = 3).mp rfl

end Xv6.Fs.Bitmap
