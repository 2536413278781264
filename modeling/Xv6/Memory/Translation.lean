import Xv6.Memory.Tables

/-!
# Page tables as finite maps

`translate` reads a translation off the words of a memory, as the hardware does. On a table whose
pages are all different it is the lookup of a radix tree, and `mappages` and `uvmunmap` change the
translations of their ranges and no others.
-/

namespace Xv6.Memory

open Xv6.Foundation Function

set_option autoImplicit false

/-! ## Reading a table -/

/-- Where `walk` without `alloc` ends, from a page of the given level on. -/
def pteSlot (page : Nat → Page) (va : Nat) : Nat → Nat → Option PtePtr
  | 0, pagetable => some ⟨pagetable, PX 0 va⟩
  | level + 1, pagetable =>
    let pte := word (page pagetable) (PX (level + 1) va)
    if has pte PTE_V then pteSlot page va level (PTE2PA pte) else none

/-- The page at `va` and the flags of its entry. -/
def translate (page : Nat → Page) (root va : Nat) : Option Leaf :=
  (pteSlot page va 2 root).bind fun ptr =>
    let pte := word (page ptr.pagetable) ptr.index
    if has pte PTE_V then some ⟨PTE2PA pte, PTE_FLAGS pte⟩ else none

def userAddr (page : Nat → Page) (root va : Nat) : Nat :=
  if MAXVA ≤ va then 0
  else
    match translate page root va with
    | none => 0
    | some e => if has e.flags PTE_U then e.pa else 0

/-- The pages that `walk` looks at, from a page of the given level on. -/
def walkPages (page : Nat → Page) (va : Nat) : Nat → Nat → List Nat
  | 0, pagetable => [pagetable]
  | level + 1, pagetable =>
    let pte := word (page pagetable) (PX (level + 1) va)
    pagetable :: if has pte PTE_V then walkPages page va level (PTE2PA pte) else []

section Read
variable {kend root va level p : Nat} {m : Mem} {page : Nat → Page} {ok : MemAct → Prop}

theorem mem_walkPages_self : p ∈ walkPages page va level p := by
  cases level <;> exact List.mem_cons_self

theorem pteSlot_mem {ptr : PtePtr} (h : pteSlot page va level p = some ptr) :
    ptr.pagetable ∈ walkPages page va level p := by
  induction level generalizing p with
  | zero =>
    cases h
    exact List.mem_cons_self
  | succ level ih =>
    rw [pteSlot] at h
    rw [walkPages]
    split at h
    · rename_i hv
      rw [if_pos hv]
      exact List.mem_cons_of_mem _ (ih h)
    · cases h

theorem walkFrom_runs
    (hok : ∀ ptr : PtePtr, ptr.pagetable ∈ walkPages m.page va level p → ok (.load ptr)) :
    (walkFrom false va level p).RunsTo (Mem.exec kend) ok m (pteSlot m.page va level p) m := by
  induction level generalizing p with
  | zero => exact .pure
  | succ level ih =>
    rw [walkFrom, pteSlot]
    refine .bind (.lift (hok ⟨p, _⟩ mem_walkPages_self) rfl) ?_
    rw [walkPages] at hok
    by_cases hv : has (word (m.page p) (PX (level + 1) va)) PTE_V = true
    · rw [if_pos hv, if_pos hv]
      refine ih fun ptr hptr => hok ptr (List.mem_cons_of_mem _ ?_)
      rw [if_pos hv]
      exact hptr
    · rw [if_neg hv, if_neg hv, if_pos rfl]
      exact .pure

theorem walk_runs (hva : va < MAXVA)
    (hok : ∀ ptr : PtePtr, ptr.pagetable ∈ walkPages m.page va 2 root → ok (.load ptr)) :
    (walk root va false).RunsTo (Mem.exec kend) ok m (pteSlot m.page va 2 root) m := by
  rw [walk, if_neg (Nat.not_le.mpr hva)]
  exact walkFrom_runs hok

theorem run_walk (hva : va < MAXVA) :
    (walk root va false).run (Mem.exec kend) m = .ok (pteSlot m.page va 2 root) m := by
  have hruns : (walk root va false).RunsTo (Mem.exec kend) (fun _ => True) m _ m :=
    walk_runs hva fun _ _ => trivial
  exact hruns.run

theorem walkaddr_runs (hok : ∀ ptr : PtePtr, va < MAXVA →
      ptr.pagetable ∈ walkPages m.page va 2 root → ok (.load ptr)) :
    (walkaddr root va).RunsTo (Mem.exec kend) ok m (userAddr m.page root va) m := by
  unfold walkaddr userAddr
  by_cases hva : MAXVA ≤ va
  · rw [if_pos hva, if_pos hva]
    exact .pure
  · have hlt := Nat.not_le.mp hva
    rw [if_neg hva, if_neg hva, translate]
    refine .bind (walk_runs hlt fun ptr => hok ptr hlt) ?_
    cases hs : pteSlot m.page va 2 root with
    | none => exact .pure
    | some ptr =>
      refine .bind (.lift (hok ptr hlt (pteSlot_mem hs)) rfl) ?_
      simp only [Option.bind_some]
      by_cases hv : has (word (m.page ptr.pagetable) ptr.index) PTE_V = true
      · rw [if_pos hv, if_neg (by rw [hv]; decide)]
        simp only [has_PTE_FLAGS (show PTE_U < 2 ^ 10 by decide)]
        by_cases hu : has (word (m.page ptr.pagetable) ptr.index) PTE_U = true
        · rw [if_pos hu, if_neg (by rw [hu]; decide)]
          exact .pure
        · rw [if_neg hu, if_pos (by simpa using hu)]
          exact .pure
      · rw [if_neg hv, if_pos (by simpa using hv)]
        exact .pure

theorem run_walkaddr :
    (walkaddr root va).run (Mem.exec kend) m = .ok (userAddr m.page root va) m := by
  have hruns : (walkaddr root va).RunsTo (Mem.exec kend) (fun _ => True) m _ m :=
    walkaddr_runs fun _ _ _ => trivial
  exact hruns.run

end Read

/-! ## Tables whose pages are all different -/

/-- The memory has the table `t`, with its root at `root`. -/
structure IsTable (page : Nat → Page) (root : Nat) (t : Radix Leaf 3) : Prop where
  root : t.entry = .page root
  stored : Holds page t
  nodup : (t.pages 512).Nodup

theorem page_lt {va : Nat} (h : va < MAXVA) : va / PGSIZE < 2 ^ 26 := by
  unfold MAXVA at h
  unfold PGSIZE
  omega

section Table
variable {kend root va p i w v : Nat} {m : Mem} {page page' : Nat → Page} {t : Radix Leaf 3}

theorem pteSlot_eq {level : Nat} {child : Nat → Radix Leaf level} (ht : Holds page (.node p child)) :
    pteSlot page va level p =
      (Radix.slot 512 (.node p child) (va / PGSIZE)).map fun x => ⟨x.1, x.2⟩ := by
  induction level generalizing p with
  | zero =>
    have hPX := PX_eq 0 va
    rw [pow_zero, Nat.div_one] at hPX
    rw [pteSlot, hPX]
    rfl
  | succ level ih =>
    have hi := Nat.mod_lt (va / PGSIZE / 512 ^ (level + 1)) (show 0 < 512 by decide)
    have hword := ht.word_child (level + 1) va
    have hchild := (ht _ hi).2
    rw [Radix.slot_node_succ, pteSlot]
    generalize child (va / PGSIZE / 512 ^ (level + 1) % 512) = c at hword hchild ⊢
    cases c with
    | empty =>
      rw [if_neg fun hyes => absurd (hyes.symm.trans hword) (by decide)]
      rfl
    | node q ch =>
      obtain ⟨hvalid, -, hq⟩ := hword
      rw [if_pos hvalid, hq]
      exact ih hchild

theorem walkPages_subset {level q : Nat} {child : Nat → Radix Leaf level}
    (ht : Holds page (.node p child)) (hq : q ∈ walkPages page va level p) :
    q ∈ Radix.pages 512 (.node p child) := by
  induction level generalizing p with
  | zero =>
    obtain rfl := List.mem_singleton.mp hq
    exact Radix.mem_pages_node
  | succ level ih =>
    have hi := Nat.mod_lt (va / PGSIZE / 512 ^ (level + 1)) (show 0 < 512 by decide)
    have hword := ht.word_child (level + 1) va
    have hchild := (ht _ hi).2
    rw [walkPages] at hq
    rw [Radix.pages_split hi]
    generalize child (va / PGSIZE / 512 ^ (level + 1) % 512) = c at hword hchild ⊢
    rcases List.mem_cons.mp hq with rfl | hq
    · exact Multiset.mem_add.mpr (Or.inr (Multiset.mem_cons_self _ _))
    · refine Multiset.mem_add.mpr (Or.inl ?_)
      cases c with
      | empty =>
        rw [if_neg fun hyes => absurd (hyes.symm.trans hword) (by decide)] at hq
        cases hq
      | node r ch =>
        obtain ⟨hvalid, -, hr⟩ := hword
        rw [if_pos hvalid, hr] at hq
        exact ih hchild hq

namespace IsTable

variable (ht : IsTable page root t)
include ht

theorem pteSlot :
    Memory.pteSlot page va 2 root = (t.slot 512 (va / PGSIZE)).map fun x => ⟨x.1, x.2⟩ := by
  cases t with
  | empty => cases ht.root
  | node q child =>
    obtain rfl : q = root := by simpa [Radix.entry] using ht.root
    exact pteSlot_eq ht.stored

theorem translate : Memory.translate page root va = t.lookup 512 (va / PGSIZE) := by
  rw [Memory.translate, ht.pteSlot]
  cases hs : t.slot 512 (va / PGSIZE) with
  | none =>
    rw [Radix.lookup_of_slot_none hs]
    rfl
  | some x =>
    obtain ⟨q, j⟩ := x
    have hword := Radix.Stored.slot (by decide) ht.stored hs
    simp only [Option.map_some, Option.bind_some]
    generalize t.lookup 512 (va / PGSIZE) = e at hword
    cases e with
    | none => exact if_neg fun hyes => absurd (hyes.symm.trans hword) (by decide)
    | some e =>
      obtain ⟨hvalid, hpa, hflags⟩ := hword
      rw [if_pos hvalid, hpa, hflags]

theorem walkPages_subset {q : Nat}
    (hq : q ∈ Memory.walkPages page va 2 root) : q ∈ t.pages 512 := by
  cases t with
  | empty => cases ht.root
  | node r child =>
    obtain rfl : r = root := by simpa [Radix.entry] using ht.root
    exact Memory.walkPages_subset ht.stored hq

theorem slot_inj {va' : Nat} {ptr : PtePtr} (hva : va < MAXVA)
    (hva' : va' < MAXVA) (h : Memory.pteSlot page va 2 root = some ptr)
    (h' : Memory.pteSlot page va' 2 root = some ptr) : va / PGSIZE = va' / PGSIZE := by
  rw [ht.pteSlot] at h h'
  obtain ⟨x, hx, rfl⟩ := Option.map_eq_some_iff.mp h
  obtain ⟨y, hy, heq⟩ := Option.map_eq_some_iff.mp h'
  obtain rfl : y = x := Prod.ext (congrArg PtePtr.pagetable heq) (congrArg PtePtr.index heq)
  have hmod := Radix.slot_inj (by decide) ht.nodup hy hx
  have h1 := page_lt hva
  have h2 := page_lt hva'
  rwa [Nat.mod_eq_of_lt (by omega), Nat.mod_eq_of_lt (by omega)] at hmod

theorem set {e : Option Leaf} (hs : t.slot 512 v = some (p, i))
    (he : Decodes (Entry.ofLeaf e) w) (hw : w < 2 ^ 64) :
    IsTable (update page p (setWord (page p) i w)) root (t.set 512 v e) := by
  refine ⟨by rw [Radix.entry_set, ht.root], ?_, by rw [Radix.pages_set (by decide)]; exact ht.nodup⟩
  refine Radix.Stored.set (by decide) ht.stored ht.nodup hs ?_ fun q j hqj => ?_
  · rw [update_self, word_setWord_self hw]
    exact he
  · rw [update_apply]
    split
    · rename_i heq
      rw [heq, word_setWord_of_ne (hqj.resolve_left fun hne => hne heq)]
    · rfl

omit ht in
theorem lookup_set {e : Option Leaf} {u : Nat} (hs : t.slot 512 v = some (p, i)) (hu : u < 2 ^ 27)
    (hv : v < 2 ^ 27) : (t.set 512 v e).lookup 512 u = if u = v then e else t.lookup 512 u := by
  have hpow : (512 : Nat) ^ 3 = 2 ^ 27 := by decide
  rw [Radix.lookup_set t (Or.inl (by simp [hs])), hpow, Nat.mod_eq_of_lt hu, Nat.mod_eq_of_lt hv]

theorem frame (h : ∀ a ∈ t.pages 512, page' a = page a) : IsTable page' root t :=
  ⟨ht.root, ht.stored.congr fun a ha j _ => by rw [h a ha], ht.nodup⟩

end IsTable

end Table

/-! ## Mapping -/

section Map
variable {kend root va v n pa perm : Nat} {ram held : Multiset Nat} {m m' : Mem} {t t' : Radix Leaf 3}
  {β : Type} {t₁ : Radix Leaf 3}

/-- The memory has a table in place of another, and nothing that is held by others has changed. -/
structure Kept (ram held : Multiset Nat) (m m' : Mem) (root : Nat) (t' : Radix Leaf 3) : Prop where
  table : IsTable m'.page root t'
  free : FreeBut ram m' (t'.pages 512 + held)
  same : ∀ a ∈ held, m'.page a = m.page a

theorem run_walk_alloc (hram : IsRam kend ram) (hfree : FreeBut ram m (t.pages 512 + held))
    (ht : IsTable m.page root t) (hva : va < MAXVA) :
    ∃ r m' t', (walk root va true).run (Mem.exec kend) m = .ok r m' ∧ Kept ram held m m' root t' ∧
      (∀ u < 2 ^ 27, t'.lookup 512 u = t.lookup 512 u) ∧
      ∀ ptr, r = some ptr → t'.slot 512 (va / PGSIZE) = some (ptr.pagetable, ptr.index) := by
  have hspace : Space ⟨t.pages 512, m.page⟩ root (t.lookup 512) 0 :=
    ⟨t, ht.root, (add_zero _).symm, ht.stored, fun _ _ => rfl⟩
  have hwp : Heap.wp ram (walk root va true) ⟨t.pages 512, m.page⟩ fun r h' =>
      ∃ t' : Radix Leaf 3, t'.entry = .page root ∧ h'.own = t'.pages 512 ∧ Holds h'.view t' ∧
        (∀ u < 2 ^ 27, t'.lookup 512 u = t.lookup 512 u) ∧
        ∀ ptr, r = some ptr → t'.slot 512 (va / PGSIZE) = some (ptr.pagetable, ptr.index) := by
    refine wp_walk_alloc hram hspace hva (fun h' hs' _ => ?_) fun ptr h' hat _ => ?_
    · obtain ⟨t', hentry, hown, hholds, hlook⟩ := hs'.exists_tree
      exact ⟨t', hentry, by rw [hown, add_zero], hholds, hlook, nofun⟩
    · obtain ⟨t', hentry, hown, hholds, hlook, hslot⟩ := hat.exists_tree
      refine ⟨t', hentry, by rw [hown, add_zero], hholds, hlook, fun q hq => ?_⟩
      cases hq
      exact hslot
  obtain ⟨r, m', h', hrun, hfree', hag, hsame, t', hentry, hown, hholds, hlook, hslot⟩ :=
    hwp.run hram hfree fun _ _ => rfl
  rw [hown] at hfree'
  refine ⟨r, m', t', hrun, ⟨⟨hentry, ?_, ?_⟩, hfree', hsame⟩, hlook, hslot⟩
  · refine hholds.congr fun a ha j _ => ?_
    rw [hag a (hown ▸ ha)]
  · exact Multiset.nodup_of_le ((Multiset.le_add_right _ _).trans hfree'.held_le) hram.nodup

/-- After `k` turns of the loop of `mappages`, from page `v` on. -/
structure Mapped (t t' : Radix Leaf 3) (v k pa flags : Nat) : Prop where
  lookup : ∀ u < 2 ^ 27, t'.lookup 512 u =
    if v ≤ u ∧ u < v + k then some ⟨pa + (u - v) * PGSIZE, flags⟩ else t.lookup 512 u
  free : ∀ u, v ≤ u → u < v + k → t.lookup 512 u = none

theorem Mapped.zero {flags : Nat} (h : ∀ u < 2 ^ 27, t'.lookup 512 u = t.lookup 512 u) :
    Mapped t t' v 0 pa flags :=
  ⟨fun u hu => by rw [if_neg (by omega), h u hu], fun u h1 h2 => by omega⟩

theorem Mapped.succ {k flags : Nat}
    (h₁ : ∀ u < 2 ^ 27, t₁.lookup 512 u = if u = v then some ⟨pa, flags⟩ else t.lookup 512 u)
    (hfree : t.lookup 512 v = none) (hk : v + k < 2 ^ 27)
    (h : Mapped t₁ t' (v + 1) k (pa + PGSIZE) flags) : Mapped t t' v (k + 1) pa flags := by
  refine ⟨fun u hu => ?_, fun u h1 h2 => ?_⟩
  · rw [h.lookup u hu]
    by_cases hv : u = v
    · subst hv
      rw [if_neg (by omega), if_pos ⟨Nat.le_refl u, by omega⟩, h₁ u hu, if_pos rfl, Nat.sub_self,
        Nat.zero_mul, Nat.add_zero]
    · by_cases hin : v + 1 ≤ u ∧ u < v + 1 + k
      · rw [if_pos hin, if_pos ⟨by omega, by omega⟩]
        have hsub : u - v = u - (v + 1) + 1 := by omega
        rw [hsub, Nat.succ_mul, Nat.add_assoc, Nat.add_comm PGSIZE]
      · rw [if_neg hin, if_neg (by omega), h₁ u hu, if_neg hv]
  · by_cases hv : u = v
    · rw [hv, hfree]
    · have := h.free u (by omega) (by omega)
      rwa [h₁ u (by omega), if_neg hv] at this

theorem post_load {ptr : PtePtr} {f : Nat → VM β} {Q : β → Mem → Prop}
    (h : (f (word (m.page ptr.pagetable) ptr.index)).Post (Mem.exec kend) m Q) :
    (load ptr >>= f).Post (Mem.exec kend) m Q := h

theorem post_store {ptr : PtePtr} {w : Nat} {f : Unit → VM β} {Q : β → Mem → Prop}
    (h : (f ()).Post (Mem.exec kend)
      (m.setPage ptr.pagetable (setWord (m.page ptr.pagetable) ptr.index w)) Q) :
    (store ptr w >>= f).Post (Mem.exec kend) m Q := h

theorem post_pure {b : β} {Q : β → Mem → Prop} (h : Q b m) :
    (pure b : VM β).Post (Mem.exec kend) m Q := by
  intro b' m' hrun
  cases hrun
  exact h

theorem post_panic {e : Panic} {Q : β → Mem → Prop} :
    (panicWith e : VM β).Post (Mem.exec kend) m Q := by
  intro b' m' hrun
  cases hrun

theorem Kept.set {e : Option Leaf} {p i w : Nat} (hram : IsRam kend ram) (hk : Kept ram held m m' root t)
    (hs : t.slot 512 v = some (p, i)) (he : Decodes (Entry.ofLeaf e) w) (hw : w < 2 ^ 64) :
    Kept ram held m (m'.setPage p (setWord (m'.page p) i w)) root (t.set 512 v e) := by
  have hp := (Radix.slot_mem (by decide) hs).1
  have hn := Multiset.nodup_of_le hk.free.held_le hram.nodup
  refine ⟨hk.table.set hs he hw, ?_, fun a ha => ?_⟩
  · rw [Radix.pages_set (by decide)]
    exact hk.free.setPage hram (Multiset.mem_add.mpr (Or.inl hp))
  · rw [← hk.same a ha, Mem.setPage_page, update_of_ne]
    rintro rfl
    exact Multiset.disjoint_left.mp (Multiset.nodup_add.mp hn).2.2 hp ha

theorem mappages_turn {next : VM Bool} {Q : Bool → Mem → Prop} (hram : IsRam kend ram)
    (hperm : perm ||| PTE_V < 2 ^ 10) (hfree : FreeBut ram m (t.pages 512 + held))
    (ht : IsTable m.page root t) (haligned : pa % PGSIZE = 0) (hpa : pa < 2 ^ 64)
    (hnone : ∀ m₁ t₁, Kept ram held m m₁ root t₁ →
      (∀ u < 2 ^ 27, t₁.lookup 512 u = t.lookup 512 u) → v < 2 ^ 26 → Q false m₁)
    (hsome : ∀ m₁ t₁, Kept ram held m m₁ root t₁ → (∀ u < 2 ^ 27, t₁.lookup 512 u =
        if u = v then some ⟨pa, perm ||| PTE_V⟩ else t.lookup 512 u) →
      t.lookup 512 v = none → v < 2 ^ 26 → next.Post (Mem.exec kend) m₁ Q) :
    Prog.Post (Mem.exec kend) (do
      match ← walk root (v * PGSIZE) true with
      | none => pure false
      | some ptr => do
        let pte ← load ptr
        if has pte PTE_V then panicWith .remap
        else do
          store ptr (PA2PTE pa ||| perm ||| PTE_V)
          next) m Q := by
  by_cases hva : MAXVA ≤ v * PGSIZE
  · rw [walk, if_pos hva]
    exact Prog.Post.bind post_panic
  · have hv := page_lt (Nat.not_le.mp hva)
    rw [Nat.mul_div_cancel _ (by decide)] at hv
    obtain ⟨r, m₁, t₁, hrun, hk, hlook, hslot⟩ := run_walk_alloc hram hfree ht (Nat.not_le.mp hva)
    rw [Nat.mul_div_cancel _ (by decide)] at hslot
    refine Prog.Post.bind fun r' m' hr => ?_
    rw [hrun] at hr
    cases hr
    cases r with
    | none => exact post_pure (hnone m₁ t₁ hk hlook hv)
    | some ptr =>
      have hs := hslot ptr rfl
      have hword := Radix.Stored.slot (by decide) hk.table.stored hs
      rw [hlook v (by omega)] at hword
      refine post_load ?_
      by_cases hvalid : has (word (m₁.page ptr.pagetable) ptr.index) PTE_V = true
      · rw [if_pos hvalid]
        exact post_panic
      · rw [if_neg hvalid, Nat.or_assoc]
        refine post_store (hsome _ _ (hk.set (e := some ⟨pa, perm ||| PTE_V⟩) hram hs
          (decodes_leaf hperm haligned hpa) (pte_lt hperm hpa)) (fun u hu => ?_) ?_ hv)
        · rw [IsTable.lookup_set hs hu (by omega), hlook u hu]
        · generalize t.lookup 512 v = e at hword
          cases e with
          | none => rfl
          | some e => exact absurd hword.1 hvalid

theorem mappagesFrom_maps (hram : IsRam kend ram) (hperm : perm ||| PTE_V < 2 ^ 10) (n : Nat)
    (hfree : FreeBut ram m (t.pages 512 + held)) (ht : IsTable m.page root t)
    (haligned : pa % PGSIZE = 0) (hpa : pa + (2 ^ 26 - v) * PGSIZE < 2 ^ 64) :
    (mappagesFrom root perm n (v * PGSIZE) pa).Post (Mem.exec kend) m fun b m' =>
      ∃ t' k, Kept ram held m m' root t' ∧ Mapped t t' v k pa (perm ||| PTE_V) ∧ k ≤ n + 1 ∧
        v + k ≤ 2 ^ 26 ∧ (b = true ↔ k = n + 1) := by
  induction n generalizing v pa m t with
  | zero =>
    rw [mappagesFrom]
    refine mappages_turn hram hperm hfree ht haligned (by omega) (fun m₁ t₁ hk hlook hv => ?_)
      fun m₁ t₁ hk hlook hnone hv => post_pure ?_
    · exact ⟨t₁, 0, hk, .zero hlook, by omega, by omega, by simp⟩
    · exact ⟨t₁, 1, hk, .succ hlook hnone (by omega) (.zero fun _ _ => rfl), by omega, by omega, by simp⟩
  | succ n ih =>
    rw [mappagesFrom]
    refine mappages_turn hram hperm hfree ht haligned (by omega) (fun m₁ t₁ hk hlook hv => ?_)
      fun m₁ t₁ hk hlook hnone hv => ?_
    · exact ⟨t₁, 0, hk, .zero hlook, by omega, by omega, by simp⟩
    · have hnext : v * PGSIZE + PGSIZE = (v + 1) * PGSIZE := (Nat.succ_mul _ _).symm
      have hwrap : (pa + PGSIZE) % 2 ^ 64 = pa + PGSIZE := Nat.mod_eq_of_lt (by
        unfold PGSIZE at hpa ⊢
        omega)
      simp only [hnext, hwrap]
      refine fun b m' hrun => ?_
      obtain ⟨t', k, hk', hm', hle, hmax, hiff⟩ := ih hk.free hk.table (by
        rw [Nat.add_mod_right]
        exact haligned) (by
        unfold PGSIZE at hpa ⊢
        omega) b m' hrun
      refine ⟨t', k + 1, ⟨hk'.table, hk'.free, fun a ha => (hk'.same a ha).trans (hk.same a ha)⟩,
        .succ hlook hnone (by omega) hm', by omega, by omega, ?_⟩
      rw [hiff]
      omega

def pagesOf (va size : Nat) : Nat := (va + size - 1) / PGSIZE + 1 - va / PGSIZE

theorem mappages_maps {size : Nat} (hram : IsRam kend ram) (hfree : FreeBut ram m (t.pages 512 + held))
    (ht : IsTable m.page root t) (hsize : 0 < size) (hwrap : va + size ≤ 2 ^ 64)
    (haligned : pa % PGSIZE = 0) (hpa : pa < 2 ^ 56) (hperm : perm < 2 ^ 10) :
    (mappages root va size pa perm).Post (Mem.exec kend) m fun b m' =>
      ∃ t' k, Kept ram held m m' root t' ∧ Mapped t t' (va / PGSIZE) k pa (perm ||| PTE_V) ∧
        k ≤ pagesOf va size ∧ va / PGSIZE + k ≤ 2 ^ 26 ∧ (b = true ↔ k = pagesOf va size) := by
  have hflags : perm ||| PTE_V < 2 ^ 10 := Nat.or_lt_two_pow hperm (by decide)
  have hcount : (PGROUNDDOWN ((va + size + (2 ^ 64 - 1)) % 2 ^ 64) + 2 ^ 64 - PGROUNDDOWN va) %
      2 ^ 64 / PGSIZE + 1 = pagesOf va size := by
    unfold PGROUNDDOWN pagesOf PGSIZE
    omega
  have hpost := mappagesFrom_maps (v := va / PGSIZE) hram hflags
    ((PGROUNDDOWN ((va + size + (2 ^ 64 - 1)) % 2 ^ 64) + 2 ^ 64 - PGROUNDDOWN va) %
      2 ^ 64 / PGSIZE) hfree ht haligned (by unfold PGSIZE; omega)
  rw [hcount] at hpost
  exact hpost

/-! ## Unmapping -/

/-- The pages that the table maps are not its own. -/
def DataApart (t : Radix Leaf 3) : Prop :=
  ∀ u < 2 ^ 27, ∀ e, t.lookup 512 u = some e → e.pa ∉ t.pages 512

/-- After `n` turns of the loop of `uvmunmap`, from page `v` on. -/
structure Unmapped (t t' : Radix Leaf 3) (v n : Nat) : Prop where
  pages : t'.pages 512 = t.pages 512
  lookup : ∀ u < 2 ^ 27, t'.lookup 512 u = if v ≤ u ∧ u < v + n then none else t.lookup 512 u
  mapped : ∀ u, v ≤ u → u < v + n → u < 2 ^ 26 ∧ ∃ e, t.lookup 512 u = some e ∧ e.flags ≠ PTE_V

theorem Unmapped.succ {e : Leaf} (hpages : t₁.pages 512 = t.pages 512)
    (h₁ : ∀ u < 2 ^ 27, t₁.lookup 512 u = if u = v then none else t.lookup 512 u) (hv : v < 2 ^ 26)
    (he : t.lookup 512 v = some e) (hflags : e.flags ≠ PTE_V) (h : Unmapped t₁ t' (v + 1) n) :
    Unmapped t t' v (n + 1) := by
  refine ⟨h.pages.trans hpages, fun u hu => ?_, fun u h1 h2 => ?_⟩
  · rw [h.lookup u hu, h₁ u hu]
    split_ifs <;> first | rfl | omega
  · by_cases huv : u = v
    · exact ⟨huv ▸ hv, e, huv ▸ he, hflags⟩
    · obtain ⟨hlt, e', he', hf'⟩ := h.mapped u (by omega) (by omega)
      rw [h₁ u (by omega), if_neg huv] at he'
      exact ⟨hlt, e', he', hf'⟩

theorem post_kfree {a : Nat} {f : Unit → VM β} {Q : β → Mem → Prop}
    (h : ∀ c r, (f ()).Post (Mem.exec kend) ⟨update m.page a c, r⟩ Q) :
    (kfree a >>= f).Post (Mem.exec kend) m Q := by
  refine Prog.Post.bind fun b m' hrun => ?_
  change (Prog.lift (R := MemAct.Resp) (.kfree a)).run (Mem.exec kend) m = .ok b m' at hrun
  rw [Prog.run_lift] at hrun
  by_cases hc : a % PGSIZE ≠ 0 ∨ a < kend ∨ PHYSTOP ≤ a
  · rw [Mem.exec, if_pos hc] at hrun
    cases hrun
  · rw [Mem.exec, if_neg hc] at hrun
    cases hrun
    exact h _ _

theorem uvmunmapFrom_removes {doFree : Bool} (n : Nat) (ht : IsTable m.page root t)
    (hdata : doFree = true → DataApart t) :
    (uvmunmapFrom root doFree n (v * PGSIZE)).Post (Mem.exec kend) m fun _ m' =>
      ∃ t', IsTable m'.page root t' ∧ Unmapped t t' v n := by
  induction n generalizing v m t with
  | zero => exact post_pure ⟨t, ht, rfl, fun u _ => by rw [if_neg (by omega)], fun u h1 h2 => by omega⟩
  | succ n ih =>
    have hdiv : v * PGSIZE / PGSIZE = v := Nat.mul_div_cancel _ (by decide)
    rw [uvmunmapFrom]
    by_cases hva : MAXVA ≤ v * PGSIZE
    · rw [walk, if_pos hva]
      exact Prog.Post.bind post_panic
    have hv := page_lt (Nat.not_le.mp hva)
    rw [hdiv] at hv
    refine Prog.Post.bind fun r m' hrun => ?_
    rw [run_walk (Nat.not_le.mp hva), ht.pteSlot, hdiv] at hrun
    cases hrun
    cases hs : t.slot 512 v with
    | none => exact post_panic
    | some x =>
      obtain ⟨p, i⟩ := x
      have hword := Radix.Stored.slot (by decide) ht.stored hs
      refine post_load ?_
      by_cases hvalid : has (word (m.page p) i) PTE_V = false
      · rw [if_pos hvalid]
        exact post_panic
      by_cases hleaf : PTE_FLAGS (word (m.page p) i) = PTE_V
      · rw [if_neg hvalid, if_pos hleaf]
        exact post_panic
      rw [if_neg hvalid, if_neg hleaf]
      obtain ⟨e, he⟩ : ∃ e, t.lookup 512 v = some e := by
        generalize t.lookup 512 v = e at hword
        cases e with
        | none => exact absurd hword hvalid
        | some e => exact ⟨e, rfl⟩
      rw [he] at hword
      obtain ⟨-, hpa, hflags⟩ := hword
      have hp := (Radix.slot_mem (by decide) hs).1
      -- the page may be freed first, which leaves the table alone
      have hclear : ∀ m₁ : Mem, (∀ a ∈ t.pages 512, m₁.page a = m.page a) →
          Prog.Post (Mem.exec kend) (do store ⟨p, i⟩ 0; uvmunmapFrom root doFree n (v * PGSIZE + PGSIZE))
            m₁ fun _ m' => ∃ t', IsTable m'.page root t' ∧ Unmapped t t' v (n + 1) := by
        intro m₁ hsame
        have hpages : (t.set 512 v none).pages 512 = t.pages 512 := Radix.pages_set (by decide) t
        have hlook : ∀ u < 2 ^ 27, (t.set 512 v none).lookup 512 u =
            if u = v then none else t.lookup 512 u :=
          fun u hu => IsTable.lookup_set hs hu (by omega)
        refine post_store ?_
        rw [show v * PGSIZE + PGSIZE = (v + 1) * PGSIZE from (Nat.succ_mul _ _).symm]
        intro b m' hrun
        obtain ⟨t', ht', hu⟩ := ih ((ht.frame hsame).set (e := none) hs decodes_none (by decide))
          (fun hd u hu e' he' => by
            rw [hpages]
            rw [hlook u hu] at he'
            split at he'
            · cases he'
            · exact hdata hd u hu e' he') b m' hrun
        exact ⟨t', ht', hu.succ hpages hlook hv he (by rw [← hflags]; exact hleaf)⟩
      cases doFree with
      | false => exact hclear m fun _ _ => rfl
      | true =>
        refine post_kfree fun c r => hclear _ fun a ha => ?_
        rw [hpa]
        refine update_of_ne ?_ _ _
        rintro rfl
        exact hdata rfl v (by omega) e he ha

theorem uvmunmap_removes {doFree : Bool} (ht : IsTable m.page root t) (hdata : doFree = true → DataApart t)
    (hwrap : va + n * PGSIZE < 2 ^ 64) :
    (uvmunmap root va n doFree).Post (Mem.exec kend) m fun _ m' =>
      ∃ t', IsTable m'.page root t' ∧ Unmapped t t' (va / PGSIZE) n := by
  rw [uvmunmap]
  by_cases hal : va % PGSIZE ≠ 0
  · rw [if_pos hal]
    exact post_panic
  · have hcount : ((va + n * PGSIZE) % 2 ^ 64 - va) / PGSIZE = n := by
      unfold PGSIZE at hwrap ⊢
      omega
    have hva : va / PGSIZE * PGSIZE = va := Nat.div_mul_cancel (Nat.dvd_of_mod_eq_zero (by omega))
    rw [if_neg hal, hcount]
    rw [← hva, Nat.mul_div_cancel _ (by decide)]
    exact uvmunmapFrom_removes n ht hdata

end Map

/-- `walk`, `mappages` and `uvmunmap` on a table whose pages are all different, in a memory where what is
not on the free list is held. Permissions are flags, and ranges do not wrap. -/
theorem page_table_is_finite_map {kend root : Nat} {ram held : Multiset Nat} {m : Mem}
    {t : Radix Leaf 3} (hram : IsRam kend ram) (hfree : FreeBut ram m (t.pages 512 + held))
    (ht : IsTable m.page root t) :
    (∀ va size pa perm b m', 0 < size → va + size ≤ 2 ^ 64 → pa % PGSIZE = 0 → pa < 2 ^ 56 →
      perm < 2 ^ 10 → (mappages root va size pa perm).run (Mem.exec kend) m = .ok b m' →
      ∃ k t', k ≤ pagesOf va size ∧ (b = true ↔ k = pagesOf va size) ∧
        va / PGSIZE + k ≤ 2 ^ 26 ∧ IsTable m'.page root t' ∧
        FreeBut ram m' (t'.pages 512 + held) ∧ (∀ a ∈ held, m'.page a = m.page a) ∧
        ∀ w < MAXVA,
          (va / PGSIZE ≤ w / PGSIZE ∧ w / PGSIZE < va / PGSIZE + k →
            translate m'.page root w =
              some ⟨pa + (w / PGSIZE - va / PGSIZE) * PGSIZE, perm ||| PTE_V⟩ ∧
            (walkaddr root w).run (Mem.exec kend) m' = .ok (if has (perm ||| PTE_V) PTE_U then
              pa + (w / PGSIZE - va / PGSIZE) * PGSIZE else 0) m') ∧
          (¬ (va / PGSIZE ≤ w / PGSIZE ∧ w / PGSIZE < va / PGSIZE + k) →
            translate m'.page root w = translate m.page root w)) ∧
    (∀ va npages doFree m', va + npages * PGSIZE < 2 ^ 64 → (doFree = true → DataApart t) →
      (uvmunmap root va npages doFree).run (Mem.exec kend) m = .ok () m' →
      (∃ t', IsTable m'.page root t') ∧
      (∀ i < npages, translate m.page root (va + i * PGSIZE) ≠ none) ∧
      ∀ w < MAXVA, translate m'.page root w =
        if va / PGSIZE ≤ w / PGSIZE ∧ w / PGSIZE < va / PGSIZE + npages then none
        else translate m.page root w) ∧
    (∀ va va' ptr, va < MAXVA → va' < MAXVA →
      (walk root va false).run (Mem.exec kend) m = .ok (some ptr) m →
      (walk root va' false).run (Mem.exec kend) m = .ok (some ptr) m → va / PGSIZE = va' / PGSIZE) ∧
    (∀ m₁ root₁ va r m', (walk root₁ va false).run (Mem.exec kend) m₁ = .ok r m' → m' = m₁) := by
  refine ⟨?_, ?_, ?_, ?_⟩
  · intro va size pa perm b m' hsize hwrap haligned hpa hperm hrun
    obtain ⟨t', k, hk, hm, hle, hmax, hiff⟩ :=
      mappages_maps hram hfree ht hsize hwrap haligned hpa hperm b m' hrun
    refine ⟨k, t', hle, hiff, hmax, hk.table, hk.free, hk.same, fun w hw => ?_⟩
    have hlook := hm.lookup (w / PGSIZE) ((page_lt hw).trans (by decide))
    rw [← hk.table.translate, ← ht.translate] at hlook
    refine ⟨fun hin => ?_, fun hout => ?_⟩
    · rw [if_pos hin] at hlook
      refine ⟨hlook, ?_⟩
      rw [run_walkaddr, userAddr, if_neg (Nat.not_le.mpr hw), hlook]
    · rw [hlook, if_neg hout]
  · intro va npages doFree m' hwrap hdata hrun
    obtain ⟨t', ht', hu⟩ := uvmunmap_removes ht hdata hwrap () m' hrun
    refine ⟨⟨t', ht'⟩, fun i hi => ?_, fun w hw => ?_⟩
    · have hpage : (va + i * PGSIZE) / PGSIZE = va / PGSIZE + i := Nat.add_mul_div_right _ _ (by decide)
      obtain ⟨-, e, he, -⟩ := hu.mapped (va / PGSIZE + i) (by omega) (by omega)
      rw [ht.translate, hpage, he]
      exact Option.some_ne_none e
    · rw [ht'.translate, ht.translate, hu.lookup _ ((page_lt hw).trans (by decide))]
  · intro va va' ptr hva hva' hrun hrun'
    rw [run_walk hva] at hrun
    rw [run_walk hva'] at hrun'
    exact ht.slot_inj hva hva' (Outcome.ok.inj hrun).1 (Outcome.ok.inj hrun').1
  · intro m₁ root₁ va r m' hrun
    by_cases hva : va < MAXVA
    · rw [run_walk hva] at hrun
      cases hrun
      rfl
    · rw [walk, if_pos (Nat.not_lt.mp hva)] at hrun
      cases hrun

/-- An empty table at `KERNBASE`, and two pages to extend it. -/
def smallMem : Mem := freerange ⟨fun _ _ => 0, 0⟩ [KERNBASE + PGSIZE, KERNBASE + 2 * PGSIZE]

def smallRam : Multiset Nat := {KERNBASE + 2 * PGSIZE, KERNBASE + PGSIZE, KERNBASE}

theorem smallRam_isRam : IsRam KERNBASE smallRam := by
  refine ⟨by decide, ?_, ?_, ?_, by decide, by decide⟩ <;> decide

theorem smallMem_free : FreeBut smallRam smallMem
    ((Radix.node KERNBASE fun _ => (.empty : Radix Leaf 2)).pages 512 + 0) := by
  refine ⟨[KERNBASE + 2 * PGSIZE, KERNBASE + PGSIZE], ?_, ?_⟩
  · refine ⟨rfl, by decide, ?_, by decide, ?_⟩
    · decide
    · show word (smallMem.page (KERNBASE + PGSIZE)) 0 = 0
      decide
  · rw [pages_new]
    decide

theorem smallMem_table : IsTable smallMem.page KERNBASE (.node KERNBASE fun _ => .empty) := by
  refine ⟨rfl, holds_new (h := ⟨0, smallMem.page⟩) ?_, by rw [pages_new]; decide⟩
  rfl

/-- What the pages at `ws` translate to after `mappages` has returned 0. -/
def mappedTo (ws : List Nat) : Outcome Mem Panic Bool → Option (List (Option Leaf))
  | .ok true m => some (ws.map (translate m.page KERNBASE))
  | _ => none

theorem exists_of_mappedTo {ws : List Nat} {o : Outcome Mem Panic Bool} {es : List (Option Leaf)}
    (h : mappedTo ws o = some es) :
    ∃ m, o = .ok true m ∧ ws.map (translate m.page KERNBASE) = es := by
  unfold mappedTo at h
  split at h
  · rename_i m
    exact ⟨m, rfl, Option.some.inj h⟩
  · cases h

/-- `mappages` of a range in the empty table. -/
def smallMapped (va size perm : Nat) : Outcome Mem Panic Bool :=
  (mappages KERNBASE va size 0x80004000 perm).run (Mem.exec KERNBASE) smallMem

/-- Two pages are mapped in the empty table, and the rest of it stays unmapped. -/
theorem page_table_is_finite_map_small : ∃ m,
    smallMapped 0x1800 PGSIZE 6 = .ok true m ∧
      translate m.page KERNBASE 0x1005 = some ⟨0x80004000, 7⟩ ∧
      translate m.page KERNBASE 0x2000 = some ⟨0x80005000, 7⟩ ∧
      translate m.page KERNBASE 0x3000 = none := by
  obtain ⟨m, hrun, -⟩ := exists_of_mappedTo
    (show mappedTo [] (smallMapped 0x1800 PGSIZE 6) = some [] by decide +kernel)
  obtain ⟨hmap, -⟩ := page_table_is_finite_map smallRam_isRam smallMem_free smallMem_table
  obtain ⟨k, t', -, hk, -, -, -, -, htrans⟩ := hmap 0x1800 PGSIZE 0x80004000 6 true m (by decide)
    (by decide) (by decide) (by decide) (by decide) hrun
  obtain rfl : k = 2 := (hk.mp rfl).trans (by decide)
  have hfirst := ((htrans 0x1005 (by decide)).1 (by decide)).1
  have hsecond := ((htrans 0x2000 (by decide)).1 (by decide)).1
  have hthird := (htrans 0x3000 (by decide)).2 (by decide)
  exact ⟨m, hrun, hfirst.trans (by decide +kernel), hsecond.trans (by decide +kernel),
    hthird.trans (by decide +kernel)⟩

/-- A bit of `perm` beyond the flags leads to another page, a range that wraps back to its first page
is that page, and a range of 2^52 pages is no range. -/
theorem page_table_wraps :
    IsTable smallMem.page KERNBASE (.node KERNBASE fun _ => .empty) ∧
    (∃ m, smallMapped 0 PGSIZE 1024 = .ok true m ∧
      translate m.page KERNBASE 0 = some ⟨0x80005000, 1⟩) ∧
    (∃ m, smallMapped 0x1800 (2 ^ 64 - 0x7FF) 6 = .ok true m ∧
      translate m.page KERNBASE 0x1000 = some ⟨0x80004000, 7⟩ ∧
      translate m.page KERNBASE 0x2000 = none) ∧
    ∃ m t, IsTable m.page KERNBASE t ∧ translate m.page KERNBASE 0 = some ⟨0x80004000, 7⟩ ∧
      (uvmunmap KERNBASE 0 (2 ^ 52) false).run (Mem.exec KERNBASE) m = .ok () m := by
  refine ⟨smallMem_table, ?_, ?_, ?_⟩
  · obtain ⟨m, hrun, htrans⟩ := exists_of_mappedTo
      (show mappedTo [0] (smallMapped 0 PGSIZE 1024) = some [some ⟨0x80005000, 1⟩] by decide +kernel)
    exact ⟨m, hrun, (List.cons.inj htrans).1⟩
  · obtain ⟨m, hrun, htrans⟩ := exists_of_mappedTo
      (show mappedTo [0x1000, 0x2000] (smallMapped 0x1800 (2 ^ 64 - 0x7FF) 6) =
        some [some ⟨0x80004000, 7⟩, none] by decide +kernel)
    obtain ⟨hfirst, hrest⟩ := List.cons.inj htrans
    exact ⟨m, hrun, hfirst, (List.cons.inj hrest).1⟩
  · obtain ⟨m, hrun, htrans⟩ := exists_of_mappedTo
      (show mappedTo [0] (smallMapped 0 PGSIZE 6) = some [some ⟨0x80004000, 7⟩] by decide +kernel)
    obtain ⟨t, k, hk, -⟩ := mappages_maps smallRam_isRam smallMem_free smallMem_table (by decide)
      (by decide) (by decide) (by decide) (by decide) true m hrun
    exact ⟨m, t, hk.table, (List.cons.inj htrans).1, rfl⟩

end Xv6.Memory
