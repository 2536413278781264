import Xv6.Memory.Translation

/-!
# Copies between the kernel and user memory

`copyout`, `copyin` and `copyinstr` on any page table in which no user entry is for the page at 0, which
`walkaddr` could not tell from a missing one. They get as far as the pages of the range are user pages,
byte by byte, and touch no page but those of the table and user pages.
-/

namespace Xv6.Memory

open Xv6.Foundation Function

set_option autoImplicit false

/-! ## User pages -/

section Pages
variable {page page' : Nat → Page} {root va va' : Nat}

theorem pteSlot_congr (h : va / PGSIZE = va' / PGSIZE) (level p : Nat) :
    pteSlot page va level p = pteSlot page va' level p := by
  induction level generalizing p with
  | zero => rw [pteSlot, pteSlot, PX_eq, PX_eq, h]
  | succ level ih => rw [pteSlot, pteSlot, PX_eq, PX_eq, h, ih]

theorem translate_congr (h : va / PGSIZE = va' / PGSIZE) :
    translate page root va = translate page root va' := by
  rw [translate, translate, pteSlot_congr h]

/-- The user has a page at `va`. -/
def Accessible (page : Nat → Page) (root va : Nat) : Prop :=
  va < MAXVA ∧ ∃ e, translate page root va = some e ∧ has e.flags PTE_U = true

/-- The page at `pa` is one of the user's. -/
def IsUser (page : Nat → Page) (root pa : Nat) : Prop :=
  ∃ va < MAXVA, ∃ e, translate page root va = some e ∧ has e.flags PTE_U = true ∧ e.pa = pa

theorem lt_MAXVA_iff (h : va / PGSIZE = va' / PGSIZE) : va < MAXVA ↔ va' < MAXVA := by
  unfold PGSIZE at h
  unfold MAXVA
  omega

theorem Accessible.congr (ha : Accessible page root va) (h : va / PGSIZE = va' / PGSIZE) :
    Accessible page root va' := by
  obtain ⟨hlt, e, he, hu⟩ := ha
  exact ⟨(lt_MAXVA_iff h).mp hlt, e, (translate_congr h) ▸ he, hu⟩

theorem userAddr_congr (h : va / PGSIZE = va' / PGSIZE) :
    userAddr page root va = userAddr page root va' := by
  rw [userAddr, userAddr, translate_congr h]
  simp only [← Nat.not_lt, lt_MAXVA_iff h]

theorem isUser_userAddr (h : Accessible page root va) : IsUser page root (userAddr page root va) := by
  obtain ⟨hlt, e, he, hu⟩ := h
  refine ⟨va, hlt, e, he, hu, ?_⟩
  rw [userAddr, if_neg (Nat.not_le.mpr hlt), he]
  exact (if_pos hu).symm

theorem userAddr_of_not (h : ¬ Accessible page root va) : userAddr page root va = 0 := by
  rw [userAddr]
  split
  · rfl
  · rename_i hlt
    split
    · rfl
    · rename_i e he
      rw [if_neg fun hu => h ⟨Nat.not_le.mp hlt, e, he, hu⟩]

theorem userAddr_eq_zero_iff (hz : ¬ IsUser page root 0) :
    userAddr page root va = 0 ↔ ¬ Accessible page root va :=
  ⟨fun h ha => hz (h ▸ isUser_userAddr ha), userAddr_of_not⟩

/-! ## Rounds -/

theorem PGROUNDDOWN_div (va : Nat) : PGROUNDDOWN va / PGSIZE = va / PGSIZE :=
  Nat.mul_div_cancel _ (by decide)

theorem sub_PGROUNDDOWN (va : Nat) : va - PGROUNDDOWN va = va % PGSIZE := by
  unfold PGROUNDDOWN PGSIZE
  omega

/-- A copy of `len` bytes at `va` gets as far as `n` bytes. -/
structure Reaches (page : Nat → Page) (root va len n : Nat) : Prop where
  le : n ≤ len
  all : ∀ i < n, Accessible page root (va + i)
  stop : n < len → ¬ Accessible page root (va + n) ∧ (n = 0 ∨ (va + n) % PGSIZE = 0)

variable {len n : Nat}

theorem Reaches.refused (h : ¬ Accessible page root va) : Reaches page root va len 0 :=
  ⟨Nat.zero_le _, nofun, fun _ => ⟨h, Or.inl rfl⟩⟩

theorem Reaches.nothing : Reaches page root va 0 0 := ⟨Nat.le_refl _, nofun, nofun⟩

theorem div_add_of_lt {i : Nat} (hi : i < PGSIZE - va % PGSIZE) :
    (va + i) / PGSIZE = va / PGSIZE ∧ (va + i) % PGSIZE = va % PGSIZE + i := by
  unfold PGSIZE at *
  omega

theorem next_page (h : min (PGSIZE - va % PGSIZE) len < len) :
    PGROUNDDOWN va + PGSIZE = va + min (PGSIZE - va % PGSIZE) len := by
  unfold PGROUNDDOWN PGSIZE at *
  omega

theorem Reaches.round (hlen : 0 < len) (ha : Accessible page root va)
    (h : Reaches page root (PGROUNDDOWN va + PGSIZE) (len - min (PGSIZE - va % PGSIZE) len) n) :
    Reaches page root va len (min (PGSIZE - va % PGSIZE) len + n) := by
  have hnext := @next_page va len
  have hle := h.le
  refine ⟨by omega, fun i hi => ?_, fun hlt => ?_⟩
  · by_cases hin : i < min (PGSIZE - va % PGSIZE) len
    · exact ha.congr (div_add_of_lt (by omega)).1.symm
    · have := h.all (i - min (PGSIZE - va % PGSIZE) len) (by omega)
      rwa [hnext (by omega), Nat.add_assoc, Nat.add_sub_cancel' (by omega)] at this
  · obtain ⟨hno, hb⟩ := h.stop (by omega)
    rw [hnext (by omega), Nat.add_assoc] at hno hb
    refine ⟨hno, Or.inr ?_⟩
    rcases hb with rfl | hb
    · rw [Nat.add_zero, ← hnext (by omega), PGROUNDDOWN, Nat.add_mod_right, Nat.mul_mod_left]
    · exact hb

theorem Reaches.eq_iff (h : Reaches page root va len n) :
    n = len ↔ ∀ i < len, Accessible page root (va + i) := by
  refine ⟨fun he => he ▸ h.all, fun hall => ?_⟩
  by_contra hne
  have hlt : n < len := Nat.lt_of_le_of_ne h.le hne
  exact (h.stop hlt).1 (hall n hlt)

end Pages

/-! ## What is touched -/

def IsTablePage (page : Nat → Page) (root p : Nat) : Prop :=
  ∃ va < MAXVA, p ∈ walkPages page va 2 root

/-- Entries of the table are read, and data in user pages. -/
def UserRead (page : Nat → Page) (root : Nat) : MemAct → Prop
  | .load ptr => IsTablePage page root ptr.pagetable
  | .read pa => IsUser page root pa
  | _ => False

/-- Entries of the table are read, and data is written in user pages. -/
def UserWrite (page : Nat → Page) (root : Nat) : MemAct → Prop
  | .load ptr => IsTablePage page root ptr.pagetable
  | .write pa _ _ _ => IsUser page root pa
  | _ => False

theorem walkaddr_page {kend root va : Nat} {m : Mem} {ok : MemAct → Prop}
    (hok : ∀ ptr : PtePtr, IsTablePage m.page root ptr.pagetable → ok (.load ptr)) :
    (walkaddr root (PGROUNDDOWN va)).RunsTo (Mem.exec kend) ok m (userAddr m.page root va) m := by
  rw [← userAddr_congr (PGROUNDDOWN_div va)]
  exact walkaddr_runs fun ptr hlt hp => hok ptr ⟨_, hlt, hp⟩

/-! ## Reading -/

def userByte (page : Nat → Page) (root va : Nat) : Byte := page (userAddr page root va) (va % PGSIZE)

def userBytes (page : Nat → Page) (root va n : Nat) : List Byte :=
  (List.range n).map fun i => userByte page root (va + i)

section Read
variable {kend root va len n : Nat} {m : Mem} {page : Nat → Page}

theorem length_userBytes : (userBytes page root va n).length = n := by
  simp [userBytes]

theorem userBytes_add (k : Nat) :
    userBytes page root va (k + n) = userBytes page root va k ++ userBytes page root (va + k) n := by
  simp only [userBytes, List.range_add, List.map_append, List.map_map]
  refine congrArg (_ ++ ·) (List.map_congr_left fun i _ => ?_)
  rw [Function.comp_apply, Nat.add_assoc]

theorem userByte_add {i : Nat} (hi : i < PGSIZE - va % PGSIZE) :
    userByte page root (va + i) = page (userAddr page root va) (va % PGSIZE + i) := by
  obtain ⟨hdiv, hmod⟩ := div_add_of_lt hi
  rw [userByte, userAddr_congr hdiv, hmod]

theorem bytesFrom_eq (hn : n ≤ PGSIZE - va % PGSIZE) :
    bytesFrom (page (userAddr page root va)) (va % PGSIZE) n = userBytes page root va n :=
  List.map_congr_left fun i hi => (userByte_add (by have := List.mem_range.mp hi; omega)).symm

theorem userBytes_round (hn : n ≤ len - min (PGSIZE - va % PGSIZE) len) :
    userBytes page root va (min (PGSIZE - va % PGSIZE) len) ++
        userBytes page root (PGROUNDDOWN va + PGSIZE) n =
      userBytes page root va (min (PGSIZE - va % PGSIZE) len + n) := by
  rw [userBytes_add]
  cases n with
  | zero => rfl
  | succ n =>
    have hlt : min (PGSIZE - va % PGSIZE) len < len := by omega
    rw [next_page hlt]

theorem copyinFrom_runs (hz : ¬ IsUser m.page root 0) {rounds : Nat} {dst : List Byte}
    (hr : len ≤ rounds) : ∃ n, Reaches m.page root va len n ∧
      (copyinFrom root rounds dst va len).RunsTo (Mem.exec kend) (UserRead m.page root) m
        (decide (n = len), dst ++ userBytes m.page root va n) m := by
  induction rounds generalizing dst va len with
  | zero =>
    obtain rfl : len = 0 := by omega
    exact ⟨0, .nothing, by simpa [userBytes, copyinFrom] using .pure⟩
  | succ rounds ih =>
    rw [copyinFrom]
    by_cases hlen : len = 0
    · subst hlen
      exact ⟨0, .nothing, by simpa [userBytes] using .pure⟩
    rw [if_neg hlen]
    have hwalk : (walkaddr root (PGROUNDDOWN va)).RunsTo (Mem.exec kend) (UserRead m.page root) m
        (userAddr m.page root va) m := walkaddr_page fun _ hp => hp
    by_cases hzero : userAddr m.page root va = 0
    · refine ⟨0, .refused ((userAddr_eq_zero_iff hz).mp hzero), .bind hwalk ?_⟩
      rw [if_pos hzero, decide_eq_false (Ne.symm hlen)]
      simpa [userBytes] using .pure
    · have hacc : Accessible m.page root va := not_not.mp fun hno => hzero (userAddr_of_not hno)
      have hless : len - min (PGSIZE - va % PGSIZE) len ≤ rounds := by
        have : va % PGSIZE < PGSIZE := Nat.mod_lt _ (by decide)
        omega
      obtain ⟨n, hn, hrun⟩ := ih hless
      refine ⟨_, hn.round (by omega) hacc, .bind hwalk ?_⟩
      simp only [sub_PGROUNDDOWN]
      rw [if_neg hzero]
      refine .bind (.lift (isUser_userAddr hacc) rfl) ?_
      rw [List.append_assoc, userBytes_round hn.le] at hrun
      have hiff : n = len - min (PGSIZE - va % PGSIZE) len ↔
          min (PGSIZE - va % PGSIZE) len + n = len := by
        omega
      rw [decide_eq_decide.mpr hiff] at hrun
      rw [bytesFrom_eq (min_le_left _ _)]
      exact hrun

/-- How a copy of at most `max` bytes of a string ends: with its 0, or before a byte that the user does
not have, or at the limit. -/
inductive StringEnds (page : Nat → Page) (root va max : Nat) : Bool → List Byte → Prop where
  | found {k : Nat} : k < max → (∀ j ≤ k, Accessible page root (va + j)) →
      (∀ j < k, userByte page root (va + j) ≠ 0) → userByte page root (va + k) = 0 →
      StringEnds page root va max true (userBytes page root va (k + 1))
  | cut {n : Nat} : n ≤ max → (∀ j < n, Accessible page root (va + j)) →
      (∀ j < n, userByte page root (va + j) ≠ 0) → (n < max → ¬ Accessible page root (va + n)) →
      StringEnds page root va max false (userBytes page root va n)

theorem findNull_some {c : Page} {off i : Nat} (h : findNull c off n = some i) :
    i < n ∧ c (off + i) = 0 ∧ ∀ j < i, c (off + j) ≠ 0 := by
  obtain ⟨hi, hmem, hlt⟩ := List.find?_range_eq_some.mp h
  refine ⟨List.mem_range.mp hmem, by simpa using hi, fun j hj => ?_⟩
  simpa using hlt j hj

theorem findNull_none {c : Page} {off : Nat} (h : findNull c off n = none) :
    ∀ j < n, c (off + j) ≠ 0 := by
  intro j hj
  simpa using List.find?_eq_none.mp h j (List.mem_range.mpr hj)

theorem StringEnds.round {max : Nat} {b : Bool} {bs : List Byte}
    (hpage : ∀ j < min (PGSIZE - va % PGSIZE) max, Accessible page root (va + j) ∧
      userByte page root (va + j) ≠ 0)
    (h : StringEnds page root (PGROUNDDOWN va + PGSIZE) (max - min (PGSIZE - va % PGSIZE) max) b bs) :
    StringEnds page root va max b (userBytes page root va (min (PGSIZE - va % PGSIZE) max) ++ bs) := by
  generalize hk : min (PGSIZE - va % PGSIZE) max = k at hpage h ⊢
  have hle : k ≤ max := by omega
  by_cases hlast : k = max
  · -- nothing is left to copy
    rw [hlast, Nat.sub_self] at h
    cases h with
    | found hlt => omega
    | @cut n hn =>
      obtain rfl : n = 0 := by omega
      rw [hlast, show userBytes page root (PGROUNDDOWN va + PGSIZE) 0 = [] from rfl, List.append_nil]
      exact .cut (Nat.le_refl _) (fun j hj => (hpage j (by omega)).1)
        (fun j hj => (hpage j (by omega)).2) fun hlt => absurd hlt (Nat.lt_irrefl _)
  · have hnext : PGROUNDDOWN va + PGSIZE = va + k := by
      rw [← hk]
      exact next_page (by omega)
    rw [hnext] at h
    have hacc : ∀ n, (∀ j < n, Accessible page root (va + k + j)) →
        ∀ j < k + n, Accessible page root (va + j) := fun n hall j hj => by
      by_cases hin : j < k
      · exact (hpage j hin).1
      · have := hall (j - k) (by omega)
        rwa [Nat.add_assoc, Nat.add_sub_cancel' (by omega)] at this
    have hne : ∀ n, (∀ j < n, userByte page root (va + k + j) ≠ 0) →
        ∀ j < k + n, userByte page root (va + j) ≠ 0 := fun n hall j hj => by
      by_cases hin : j < k
      · exact (hpage j hin).2
      · have := hall (j - k) (by omega)
        rwa [Nat.add_assoc, Nat.add_sub_cancel' (by omega)] at this
    cases h with
    | @found i hi hall hnz hzero =>
      rw [← userBytes_add, ← Nat.add_assoc]
      refine .found (by omega) (fun j hj => ?_) (hne i hnz) (by rwa [← Nat.add_assoc])
      exact hacc (i + 1) (fun j' hj' => hall j' (by omega)) j (by omega)
    | @cut n hn hall hnz hstop =>
      rw [← userBytes_add]
      refine .cut (by omega) (hacc n hall) (hne n hnz) fun hlt => ?_
      rw [← Nat.add_assoc]
      exact hstop (by omega)

theorem copyinstrFrom_runs (hz : ¬ IsUser m.page root 0) {rounds max : Nat} {dst : List Byte}
    (hr : max ≤ rounds) : ∃ b bs, StringEnds m.page root va max b bs ∧
      (copyinstrFrom root rounds dst va max).RunsTo (Mem.exec kend) (UserRead m.page root) m
        (b, dst ++ bs) m := by
  induction rounds generalizing dst va max with
  | zero =>
    obtain rfl : max = 0 := by omega
    refine ⟨false, [], .cut (n := 0) (Nat.le_refl _) nofun nofun nofun, ?_⟩
    simpa [copyinstrFrom] using .pure
  | succ rounds ih =>
    rw [copyinstrFrom]
    by_cases hmax : max = 0
    · subst hmax
      refine ⟨false, [], .cut (n := 0) (Nat.le_refl _) nofun nofun nofun, ?_⟩
      simpa using .pure
    rw [if_neg hmax]
    have hwalk : (walkaddr root (PGROUNDDOWN va)).RunsTo (Mem.exec kend) (UserRead m.page root) m
        (userAddr m.page root va) m := walkaddr_page fun _ hp => hp
    by_cases hzero : userAddr m.page root va = 0
    · refine ⟨false, [], .cut (n := 0) (Nat.zero_le _) nofun nofun fun _ => ?_, .bind hwalk ?_⟩
      · exact (userAddr_eq_zero_iff hz).mp hzero
      · rw [if_pos hzero]
        simpa using .pure
    · have hacc : Accessible m.page root va := not_not.mp fun hno => hzero (userAddr_of_not hno)
      have haccs : ∀ j < min (PGSIZE - va % PGSIZE) max, Accessible m.page root (va + j) := fun j hj =>
        hacc.congr (div_add_of_lt (by omega)).1.symm
      have hbyte : ∀ j < min (PGSIZE - va % PGSIZE) max, userByte m.page root (va + j) =
          m.page (userAddr m.page root va) (va % PGSIZE + j) := fun j hj => userByte_add (by omega)
      simp only [sub_PGROUNDDOWN]
      cases hf : findNull (m.page (userAddr m.page root va)) (va % PGSIZE)
          (min (PGSIZE - va % PGSIZE) max) with
      | some i =>
        obtain ⟨hi, hnull, hlt⟩ := findNull_some hf
        refine ⟨true, _, .found (k := i) (by omega) (fun j hj => haccs j (by omega))
          (fun j hj => ?_) ?_, .bind hwalk ?_⟩
        · rw [hbyte j (by omega)]
          exact hlt j hj
        · rw [hbyte i hi]
          exact hnull
        · rw [if_neg hzero]
          refine .bind (.lift (isUser_userAddr hacc) rfl) ?_
          simp only [hf]
          rw [bytesFrom_eq (by omega)]
          exact .pure
      | none =>
        have hnone := findNull_none hf
        have hless : max - min (PGSIZE - va % PGSIZE) max ≤ rounds := by
          have : va % PGSIZE < PGSIZE := Nat.mod_lt _ (by decide)
          omega
        obtain ⟨b, bs, hend, hrun⟩ := ih hless
        refine ⟨b, _, hend.round fun j hj => ⟨haccs j hj, by rw [hbyte j hj]; exact hnone j hj⟩,
          .bind hwalk ?_⟩
        rw [if_neg hzero]
        refine .bind (.lift (isUser_userAddr hacc) rfl) ?_
        simp only [hf]
        rw [bytesFrom_eq (min_le_left _ _), ← List.append_assoc]
        exact hrun

end Read

/-! ## Writing -/

/-- `n` bytes of `src` are stored at `va`, one after another; `tr` gives their pages. -/
def putBytes (tr : Nat → Nat) (m : Mem) (va : Nat) (src : Bytes) : Nat → Mem
  | 0 => m
  | n + 1 =>
    let m' := putBytes tr m va src n
    m'.setPage (tr (va + n)) (Function.update (m'.page (tr (va + n))) ((va + n) % PGSIZE) (src n))

section Write
variable {kend root va len n k : Nat} {m : Mem} {page page' : Nat → Page} {tr : Nat → Nat} {src : Bytes}

theorem putBytes_add : putBytes tr m va src (k + n) =
    putBytes tr (putBytes tr m va src k) (va + k) (fun i => src (k + i)) n := by
  induction n with
  | zero => rfl
  | succ n ih => rw [← Nat.add_assoc, putBytes, putBytes, ih, Nat.add_assoc]

theorem putBytes_page_of_ne {p : Nat} (h : ∀ i < n, tr (va + i) ≠ p) :
    (putBytes tr m va src n).page p = m.page p := by
  induction n with
  | zero => rfl
  | succ n ih =>
    rw [putBytes, Mem.setPage_page, update_of_ne (h n (by omega)).symm]
    exact ih fun i hi => h i (by omega)

theorem putBytes_freelist : (putBytes tr m va src n).freelist = m.freelist := by
  induction n with
  | zero => rfl
  | succ n ih => exact ih

theorem blit_succ (c : Page) (off : Nat) :
    blit c off src (n + 1) = update (blit c off src n) (off + n) (src n) := by
  funext i
  simp only [blit, update_apply]
  by_cases hi : i = off + n
  · rw [if_pos hi, if_pos (by omega), hi, Nat.add_sub_cancel_left]
  · rw [if_neg hi]
    by_cases hin : off ≤ i ∧ i < off + n
    · rw [if_pos hin, if_pos (by omega)]
    · rw [if_neg hin, if_neg (by omega)]

theorem setPage_setPage (p : Nat) (c c' : Page) : (m.setPage p c).setPage p c' = m.setPage p c' := by
  simp [Mem.setPage]

theorem setPage_self (p : Nat) : m.setPage p (m.page p) = m := by
  simp [Mem.setPage]

theorem putBytes_round {pa : Nat} (hn : n ≤ PGSIZE - va % PGSIZE) (htr : ∀ i < n, tr (va + i) = pa) :
    putBytes tr m va src n = m.setPage pa (blit (m.page pa) (va % PGSIZE) src n) := by
  induction n with
  | zero =>
    have hblit : blit (m.page pa) (va % PGSIZE) src 0 = m.page pa := by
      funext i
      exact blit_of_not_mem (by omega)
    rw [hblit, setPage_self]
    rfl
  | succ n ih =>
    rw [putBytes, ih (by omega) fun i hi => htr i (by omega), htr n (by omega),
      (div_add_of_lt (by omega)).2, blit_succ, setPage_setPage, Mem.setPage_page, update_self]

theorem putBytes_next (hn : n ≤ len - min (PGSIZE - va % PGSIZE) len) :
    putBytes tr (putBytes tr m va src (min (PGSIZE - va % PGSIZE) len)) (PGROUNDDOWN va + PGSIZE)
        (fun i => src (min (PGSIZE - va % PGSIZE) len + i)) n =
      putBytes tr m va src (min (PGSIZE - va % PGSIZE) len + n) := by
  rw [putBytes_add]
  cases n with
  | zero => rfl
  | succ n => rw [next_page (show min (PGSIZE - va % PGSIZE) len < len by omega)]

/-! The table is as it was when only pages beside it have changed. -/

theorem walkPages_frame {level p : Nat} (h : ∀ q ∈ walkPages page va level p, page' q = page q) :
    pteSlot page' va level p = pteSlot page va level p ∧
      walkPages page' va level p = walkPages page va level p := by
  induction level generalizing p with
  | zero => exact ⟨rfl, rfl⟩
  | succ level ih =>
    rw [pteSlot, pteSlot, walkPages, walkPages, h p mem_walkPages_self]
    rw [walkPages] at h
    by_cases hv : has (word (page p) (PX (level + 1) va)) PTE_V = true
    · rw [if_pos hv] at h
      obtain ⟨hs, hw⟩ := ih fun q hq => h q (List.mem_cons_of_mem _ hq)
      simp only [if_pos hv, hs, hw, and_self]
    · simp only [if_neg hv, and_self]

theorem translate_frame (h : ∀ q ∈ walkPages page va 2 root, page' q = page q) :
    translate page' root va = translate page root va := by
  rw [translate, translate, (walkPages_frame h).1]
  cases hs : pteSlot page va 2 root with
  | none => rw [Option.bind_none, Option.bind_none]
  | some ptr => rw [Option.bind_some, Option.bind_some, h _ (pteSlot_mem hs)]

/-- No page of the table is a user page. -/
def TableApart (page : Nat → Page) (root : Nat) : Prop :=
  ∀ p, IsTablePage page root p → ¬ IsUser page root p

structure SameTable (page page' : Nat → Page) (root : Nat) : Prop where
  translate : ∀ va < MAXVA, Memory.translate page' root va = Memory.translate page root va
  pages : ∀ p, IsTablePage page' root p ↔ IsTablePage page root p

theorem SameTable.of_apart (hap : TableApart page root) (h : ∀ p, ¬ IsUser page root p → page' p = page p) :
    SameTable page page' root := by
  have hwalk : ∀ va < MAXVA, ∀ q ∈ walkPages page va 2 root, page' q = page q := fun va hva q hq =>
    h q (hap q ⟨va, hva, hq⟩)
  refine ⟨fun va hva => translate_frame (hwalk va hva), fun p => ?_⟩
  refine exists_congr fun va => and_congr_right fun hva => ?_
  rw [(walkPages_frame (hwalk va hva)).2]

namespace SameTable
variable (h : SameTable page page' root)
include h

theorem userAddr : Memory.userAddr page' root = Memory.userAddr page root := by
  funext va
  rw [Memory.userAddr, Memory.userAddr]
  split
  · rfl
  · rename_i hva
    rw [h.translate va (Nat.not_le.mp hva)]

theorem accessible : Accessible page' root = Accessible page root := by
  funext va
  refine propext (and_congr_right fun hva => ?_)
  rw [h.translate va hva]

theorem isUser : IsUser page' root = IsUser page root := by
  funext pa
  refine propext (exists_congr fun va => and_congr_right fun hva => ?_)
  rw [h.translate va hva]

theorem userWrite : UserWrite page' root = UserWrite page root := by
  funext a
  cases a with
  | load ptr => exact propext (h.pages ptr.pagetable)
  | write pa off src n => exact congrFun h.isUser pa
  | _ => rfl

theorem reaches {va len n : Nat} : Reaches page' root va len n ↔ Reaches page root va len n := by
  refine ⟨fun ⟨hle, hall, hstop⟩ => ?_, fun ⟨hle, hall, hstop⟩ => ?_⟩
  · rw [h.accessible] at hall hstop
    exact ⟨hle, hall, hstop⟩
  · rw [← h.accessible] at hall hstop
    exact ⟨hle, hall, hstop⟩

theorem apart (hap : TableApart page root) : TableApart page' root := fun p hp => by
  rw [h.isUser]
  exact hap p ((h.pages p).mp hp)

end SameTable

theorem copyoutFrom_runs (hz : ¬ IsUser m.page root 0) (hap : TableApart m.page root) {rounds : Nat}
    (hr : len ≤ rounds) : ∃ n, Reaches m.page root va len n ∧
      (copyoutFrom root rounds va src len).RunsTo (Mem.exec kend) (UserWrite m.page root) m
        (decide (n = len)) (putBytes (userAddr m.page root) m va src n) := by
  induction rounds generalizing m va src len with
  | zero =>
    obtain rfl : len = 0 := by omega
    exact ⟨0, .nothing, by simpa [copyoutFrom] using .pure⟩
  | succ rounds ih =>
    rw [copyoutFrom]
    by_cases hlen : len = 0
    · subst hlen
      exact ⟨0, .nothing, by simpa using .pure⟩
    rw [if_neg hlen]
    have hwalk : (walkaddr root (PGROUNDDOWN va)).RunsTo (Mem.exec kend) (UserWrite m.page root) m
        (userAddr m.page root va) m := walkaddr_page fun _ hp => hp
    by_cases hzero : userAddr m.page root va = 0
    · refine ⟨0, .refused ((userAddr_eq_zero_iff hz).mp hzero), .bind hwalk ?_⟩
      rw [if_pos hzero, decide_eq_false (Ne.symm hlen)]
      exact .pure
    · have hacc : Accessible m.page root va := not_not.mp fun hno => hzero (userAddr_of_not hno)
      have huser := isUser_userAddr hacc
      simp only [sub_PGROUNDDOWN]
      have hround : putBytes (userAddr m.page root) m va src (min (PGSIZE - va % PGSIZE) len) =
          m.setPage (userAddr m.page root va) (blit (m.page (userAddr m.page root va)) (va % PGSIZE) src
            (min (PGSIZE - va % PGSIZE) len)) :=
        putBytes_round (min_le_left _ _) fun i hi => userAddr_congr (div_add_of_lt (by omega)).1
      generalize hm : putBytes (userAddr m.page root) m va src (min (PGSIZE - va % PGSIZE) len) = m₁
        at hround
      have hsame : SameTable m.page m₁.page root := .of_apart hap fun p hp => by
        rw [hround, Mem.setPage_page, update_of_ne]
        rintro rfl
        exact hp huser
      have hless : len - min (PGSIZE - va % PGSIZE) len ≤ rounds := by
        have : va % PGSIZE < PGSIZE := Nat.mod_lt _ (by decide)
        omega
      have hz₁ : ¬ IsUser m₁.page root 0 := by
        rw [hsame.isUser]
        exact hz
      obtain ⟨n, hn, hrun⟩ := @ih (PGROUNDDOWN va + PGSIZE) _ m₁
        (fun i => src (min (PGSIZE - va % PGSIZE) len + i)) hz₁ (hsame.apart hap) hless
      rw [hsame.reaches] at hn
      rw [hsame.userWrite, hsame.userAddr] at hrun
      refine ⟨_, hn.round (by omega) hacc, .bind hwalk ?_⟩
      rw [if_neg hzero]
      refine .bind (.lift huser rfl) ?_
      have hiff : n = len - min (PGSIZE - va % PGSIZE) len ↔
          min (PGSIZE - va % PGSIZE) len + n = len := by
        have := hn.le
        omega
      rw [decide_eq_decide.mpr hiff, ← hm, putBytes_next hn.le, hm] at hrun
      change Prog.RunsTo _ _ _ (m.setPage _ _) _ _
      rw [← hround]
      exact hrun

end Write

/-! ## The three copies -/

theorem userAddr_ne_of_not_user {page : Nat → Page} {root va p : Nat} (hz : ¬ IsUser page root p)
    (ha : Accessible page root va) : userAddr page root va ≠ p := by
  rintro rfl
  exact hz (isUser_userAddr ha)

variable {bs : List Byte}

theorem StringEnds.iff {page : Nat → Page} {root va max : Nat} {b : Bool}
    (h : StringEnds page root va max b bs) :
    b = true ↔ ∃ k < max, (∀ j ≤ k, Accessible page root (va + j)) ∧ userByte page root (va + k) = 0 := by
  cases h with
  | found hk hall _ hnull => exact ⟨fun _ => ⟨_, hk, hall, hnull⟩, fun _ => rfl⟩
  | @cut n hn hall hnz hstop =>
    refine ⟨nofun, fun ⟨k, hk, hacc, hnull⟩ => ?_⟩
    by_cases hkn : k < n
    · exact absurd hnull (hnz k hkn)
    · exact absurd (hacc n (by omega)) (hstop (by omega))

theorem StringEnds.length_le {page : Nat → Page} {root va max : Nat} {b : Bool}
    (h : StringEnds page root va max b bs) : bs.length ≤ max := by
  cases h with
  | found hk => rw [length_userBytes]; exact hk
  | cut hn => rw [length_userBytes]; exact hn

theorem StringEnds.eq_bytes {page : Nat → Page} {root va max : Nat}
    (h : StringEnds page root va max true bs) : ∃ k < max, (∀ j < k, userByte page root (va + j) ≠ 0) ∧
      userByte page root (va + k) = 0 ∧ bs = userBytes page root va (k + 1) := by
  cases h with
  | found hk _ hnz hnull => exact ⟨_, hk, hnz, hnull, rfl⟩

/-- The copies transfer the bytes of the range in order, up to the first page that is not the user's,
and succeed if there is none. They read the table, and of all other pages they touch user pages only. -/
theorem user_copies_are_exact {kend root : Nat} {m : Mem} (hz : ¬ IsUser m.page root 0) :
    (TableApart m.page root → ∀ dstva src len, ∃ n m', Reaches m.page root dstva len n ∧
      (n = len ↔ ∀ i < len, Accessible m.page root (dstva + i)) ∧
      (copyout root dstva src len).RunsTo (Mem.exec kend) (UserWrite m.page root) m
        (decide (n = len)) m' ∧
      m' = putBytes (userAddr m.page root) m dstva src n ∧ m'.freelist = m.freelist ∧
      ∀ p, ¬ IsUser m.page root p → m'.page p = m.page p) ∧
    (∀ srcva len, ∃ n, Reaches m.page root srcva len n ∧
      (n = len ↔ ∀ i < len, Accessible m.page root (srcva + i)) ∧
      (copyin root srcva len).RunsTo (Mem.exec kend) (UserRead m.page root) m
        (decide (n = len), userBytes m.page root srcva n) m) ∧
    ∀ srcva max, ∃ b bs,
      (copyinstr root srcva max).RunsTo (Mem.exec kend) (UserRead m.page root) m (b, bs) m ∧
      bs.length ≤ max ∧
      (b = true ↔ ∃ k < max, (∀ j ≤ k, Accessible m.page root (srcva + j)) ∧
        userByte m.page root (srcva + k) = 0) ∧
      (b = true → ∃ k < max, (∀ j < k, userByte m.page root (srcva + j) ≠ 0) ∧
        userByte m.page root (srcva + k) = 0 ∧ bs = userBytes m.page root srcva (k + 1)) := by
  refine ⟨fun hap dstva src len => ?_, fun srcva len => ?_, fun srcva max => ?_⟩
  · obtain ⟨n, hn, hrun⟩ := copyoutFrom_runs hz hap (Nat.le_refl len)
    refine ⟨n, _, hn, hn.eq_iff, hrun, rfl, putBytes_freelist, fun p hp => ?_⟩
    exact putBytes_page_of_ne fun i hi => userAddr_ne_of_not_user hp (hn.all i hi)
  · obtain ⟨n, hn, hrun⟩ := copyinFrom_runs hz (Nat.le_refl len)
    exact ⟨n, hn, hn.eq_iff, hrun⟩
  · obtain ⟨b, bs, hend, hrun⟩ := copyinstrFrom_runs hz (Nat.le_refl max)
    refine ⟨b, bs, hrun, hend.length_le, hend.iff, fun hb => ?_⟩
    subst hb
    exact hend.eq_bytes

theorem smallMapped_user : ∃ m : Mem, (∀ va < MAXVA, translate m.page KERNBASE va =
      if va < PGSIZE then some ⟨0x80004000, 23⟩ else none) ∧
    ∀ p, IsTablePage m.page KERNBASE p → p ∈ smallRam := by
  obtain ⟨m, hrun, -⟩ :=
    exists_of_mappedTo (show mappedTo [] (smallMapped 0 PGSIZE 22) = some [] by decide +kernel)
  obtain ⟨t, k, hk, hmap, -, -, hb⟩ := mappages_maps smallRam_isRam smallMem_free smallMem_table
    (by decide) (by decide) (by decide) (by decide) (by decide) true m hrun
  obtain rfl : k = 1 := hb.mp rfl
  refine ⟨m, fun va hva => ?_, fun p hp => ?_⟩
  · rw [hk.table.translate, hmap.lookup _ (by have := page_lt hva; omega)]
    have hiff : 0 / PGSIZE ≤ va / PGSIZE ∧ va / PGSIZE < 0 / PGSIZE + 1 ↔ va < PGSIZE := by
      unfold PGSIZE
      omega
    simp only [hiff]
    refine ite_congr rfl (fun hlt => ?_) fun _ => rfl
    have hzero : va / PGSIZE = 0 := Nat.div_eq_of_lt hlt
    rw [hzero]
    rfl
  · obtain ⟨va, -, hmem⟩ := hp
    exact Multiset.mem_of_le hk.free.held_le
      (Multiset.mem_add.mpr (Or.inl (hk.table.walkPages_subset hmem)))

/-- A copy that crosses the end of the only user page stops there. -/
theorem user_copies_are_exact_small : ∃ m : Mem, ¬ IsUser m.page KERNBASE 0 ∧ TableApart m.page KERNBASE ∧
    (∃ m', (copyout KERNBASE (PGSIZE - 1) (fun _ => 7) 2).run (Mem.exec KERNBASE) m = .ok false m') ∧
    (copyin KERNBASE 5 3).run (Mem.exec KERNBASE) m = .ok (true, userBytes m.page KERNBASE 5 3) m := by
  obtain ⟨m, htrans, hpages⟩ := smallMapped_user
  have hacc : ∀ va, Accessible m.page KERNBASE va ↔ va < PGSIZE := fun va => by
    refine ⟨fun ⟨hlt, e, he, _⟩ => ?_, fun hva => ?_⟩
    · rw [htrans va hlt] at he
      by_contra hno
      rw [if_neg hno] at he
      cases he
    · have hlt : va < MAXVA := Nat.lt_trans hva (by decide)
      exact ⟨hlt, ⟨0x80004000, 23⟩, by rw [htrans va hlt, if_pos hva], by decide⟩
  have huser : ∀ p, IsUser m.page KERNBASE p → p = 0x80004000 := fun p hp => by
    obtain ⟨va, hva, e, he, -, hpa⟩ := hp
    rw [htrans va hva] at he
    split at he
    · rw [← hpa, ← Option.some.inj he]
    · cases he
  have hz : ¬ IsUser m.page KERNBASE 0 := fun h => absurd (huser 0 h) (by decide)
  have hap : TableApart m.page KERNBASE := fun p hp hu => by
    have hmem := hpages p hp
    rw [huser p hu] at hmem
    exact absurd hmem (by decide)
  obtain ⟨hout, hin, -⟩ := @user_copies_are_exact KERNBASE KERNBASE m hz
  refine ⟨m, hz, hap, ?_, ?_⟩
  · obtain ⟨n, m', -, hiff, hrun, -⟩ := hout hap (PGSIZE - 1) (fun _ => 7) 2
    have hn : n ≠ 2 := fun h => absurd ((hacc _).mp (hiff.mp h 1 (by decide))) (by decide)
    exact ⟨m', by simpa [hn] using hrun.run⟩
  · obtain ⟨n, -, hiff, hrun⟩ := hin 5 3
    have hn : n = 3 := hiff.mpr fun i hi => (hacc _).mpr (by unfold PGSIZE; omega)
    subst hn
    simpa using hrun.run

/-- The memory after `mappages` has mapped the user pages `pas` from 0 on. -/
def smallUser (pas : List Nat) : Option Mem :=
  let prog : VM Bool := (List.range pas.length).foldlM (fun b i => do
    let b' ← mappages KERNBASE (i * PGSIZE) PGSIZE (pas.getD i 0) 22
    pure (b && b')) true
  match prog.run (Mem.exec KERNBASE) smallMem with
  | .ok true m => some m
  | _ => none

/-- `copyout` of `len` zeros to the first pages fails although they are the user's. -/
def smallRefused (pas : List Nat) (len : Nat) : Bool :=
  match smallUser pas with
  | none => false
  | some m => (List.range pas.length).all (fun i =>
      translate m.page KERNBASE (i * PGSIZE) = some ⟨pas.getD i 0, 23⟩) &&
    match (copyout KERNBASE 0 (fun _ => 0) len).run (Mem.exec KERNBASE) m with
    | .ok false _ => true
    | _ => false

theorem exists_of_smallRefused {pas : List Nat} {len : Nat} (h : smallRefused pas len = true)
    (hlen : len ≤ pas.length * PGSIZE) (hmax : pas.length ≤ 2) :
    ∃ m m', smallUser pas = some m ∧ (∀ i < len, Accessible m.page KERNBASE i) ∧
      (copyout KERNBASE 0 (fun _ => 0) len).run (Mem.exec KERNBASE) m = .ok false m' := by
  unfold smallRefused at h
  split at h
  · cases h
  · rename_i m hm
    rw [Bool.and_eq_true, List.all_eq_true] at h
    obtain ⟨htrans, hout⟩ := h
    split at hout
    · rename_i m' hrun
      refine ⟨m, m', hm, fun i hi => ?_, hrun⟩
      have hlt : i / PGSIZE < pas.length := Nat.div_lt_of_lt_mul (by rw [Nat.mul_comm]; omega)
      have he := of_decide_eq_true (htrans _ (List.mem_range.mpr hlt))
      have hpage : i / PGSIZE * PGSIZE / PGSIZE = i / PGSIZE := Nat.mul_div_cancel _ (by decide)
      refine ⟨?_, _, (translate_congr hpage).symm.trans he, show has 23 PTE_U = true by decide⟩
      unfold PGSIZE MAXVA at *
      omega
    · cases hout

/-- The page at 0 is refused though it is the user's; and so is a page that the copy itself unmaps. -/
theorem user_copies_refused :
    (∃ m m', smallUser [0] = some m ∧ (∀ i < 1, Accessible m.page KERNBASE i) ∧
      (copyout KERNBASE 0 (fun _ => 0) 1).run (Mem.exec KERNBASE) m = .ok false m') ∧
    ∃ m m', smallUser [KERNBASE + PGSIZE, 0x80004000] = some m ∧
      (∀ i < PGSIZE + 1, Accessible m.page KERNBASE i) ∧
      (copyout KERNBASE 0 (fun _ => 0) (PGSIZE + 1)).run (Mem.exec KERNBASE) m = .ok false m' :=
  ⟨exists_of_smallRefused (by decide +kernel) (by decide) (by decide),
    exists_of_smallRefused (by decide +kernel) (by decide) (by decide)⟩

end Xv6.Memory
