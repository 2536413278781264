import Xv6.Fs.Bmap

/-!
# `itrunc` and `iput`

`itrunc` clears the slots of an inode one by one and gives back the blocks; between the two a block
is in hand. `iput` of the last reference to an inode without links frees the inode as well.
-/

namespace Xv6.Fs

open Xv6.Foundation Xv6.Disk Function

set_option autoImplicit false

/-! ## Clearing slots -/

section Clear
variable {k k' : Kernel} {D D' : DTable} {extra : List Nat} {dirty : Set Nat}
  {held : List (Nat × Nat)} {stale : Option Nat} {inum ip : Nat} {j : Nat}

theorem FsInv.dropDirect (h : FsInv k D extra dirty held (some inum))
    (hl : Live k.sb D inum) (hj : j < NDIRECT) (hz : (D inum).addrs j ≠ 0) :
    FsInv k (setAddr D inum j 0) ((D inum).addrs j :: extra) dirty held (some inum) := by
  have hslot : slotAddr D k.view (.direct inum j) = (D inum).addrs j := if_pos hj
  refine h.setD (fun i hi => setAddr_of_ne D j 0 hi) ?_ (setAddr_fits h.fits (by decide) hj.le inum) ?_
  · refine h.owned.drop (List.nodup_singleton _) ?_ ?_
    · rintro s c ⟨hls, ha, hc⟩
      rw [slotAddr_setDirect hj] at ha
      split at ha
      · exact absurd ha.symm hc
      · exact ⟨(live_congr fun i => setAddr_type D inum j 0 i).mp hls, ha, hc⟩
    · intro c
      rw [List.mem_singleton]
      constructor
      · rintro rfl
        refine ⟨.direct inum j, ⟨hl, hslot, hz⟩, fun hu => hz ?_⟩
        have ha := hu.addr
        rw [slotAddr_setDirect hj, if_pos rfl] at ha
        exact ha.symm
      · rintro ⟨s, ⟨hls, ha, hc⟩, hn⟩
        by_cases hs : s = .direct inum j
        · rw [hs, hslot] at ha
          exact ha.symm
        · refine absurd ⟨(live_congr fun i => setAddr_type D inum j 0 i).mpr hls, ?_, hc⟩ hn
          rw [slotAddr_setDirect hj, if_neg hs]
          exact ha
  · intro _
    rw [setAddr_addrs, if_neg (by omega)]
    exact h.not_dirty_indirect hl

def entryAt (d : Block) (j : Nat) : Option Nat :=
  if j < NINDIRECT ∧ getEntry d j ≠ 0 then some (getEntry d j) else none

theorem mem_entryAt {d : Block} {j c : Nat} :
    c ∈ entryAt d j ↔ j < NINDIRECT ∧ c ≠ 0 ∧ getEntry d j = c := by
  unfold entryAt
  split
  · rename_i h
    simp only [Option.mem_def, Option.some.injEq]
    constructor
    · rintro rfl
      exact ⟨h.1, h.2, rfl⟩
    · exact fun hc => hc.2.2
  · rename_i h
    simp only [Option.mem_def, reduceCtorEq, false_iff]
    rintro ⟨h1, h2, rfl⟩
    exact h ⟨h1, h2⟩

/-- The slots that go with the indirect pointer of inode `i`. -/
def Slot.viaIndirect (i : Nat) : Slot → Bool
  | .direct _ _ => false
  | .indirect i' => i' == i
  | .entry i' _ => i' == i

theorem slotAddr_clearIndirect {v : View} (s : Slot) : slotAddr (setAddr D inum NDIRECT 0) v s =
      if s.viaIndirect inum = true then 0 else slotAddr D v s := by
  cases s with
  | direct i j =>
    simp only [slotAddr, setAddr_addrs, Slot.viaIndirect, Bool.false_eq_true, if_false]
    split
    · rw [if_neg (by omega)]
    · rfl
  | indirect i => simp only [slotAddr, setAddr_addrs, Slot.viaIndirect, beq_iff_eq, and_true]
  | entry i j =>
    by_cases hi : i = inum
    · subst hi
      have hz : (setAddr D i NDIRECT 0 i).addrs NDIRECT = 0 := by
        rw [setAddr_addrs, if_pos ⟨rfl, rfl⟩]
      simp [slotAddr, hz, Slot.viaIndirect]
    · simp [slotAddr, setAddr_of_ne D NDIRECT 0 hi, Slot.viaIndirect, hi]

/-- The indirect pointer is cleared: its block and those of its entries are taken in hand. -/
theorem FsInv.dropIndirect (h : FsInv k D [] dirty held (some inum)) (hl : Live k.sb D inum)
    (hz : (D inum).addrs NDIRECT ≠ 0) : FsInv k (setAddr D inum NDIRECT 0)
      ((List.range NINDIRECT).filterMap (entryAt (k.view ((D inum).addrs NDIRECT))) ++
        [(D inum).addrs NDIRECT]) dirty held (some inum) := by
  have hentry : ∀ j < NINDIRECT, slotAddr D k.view (.entry inum j) =
      getEntry (k.view ((D inum).addrs NDIRECT)) j := fun j hj => if_pos ⟨hj, hz⟩
  have hused : ∀ j c, c ∈ entryAt (k.view ((D inum).addrs NDIRECT)) j →
      Used k.sb D k.view (.entry inum j) c := fun j c hc => by
    obtain ⟨hj, hc, he⟩ := mem_entryAt.mp hc
    exact ⟨hl, by rw [hentry j hj, he], hc⟩
  have hind : Used k.sb D k.view (.indirect inum) ((D inum).addrs NDIRECT) := used_indirect hl hz
  have htype : ∀ i, (setAddr D inum NDIRECT 0 i).type = (D i).type :=
    fun i => setAddr_type D inum NDIRECT 0 i
  refine h.setD (fun i hi => setAddr_of_ne D NDIRECT 0 hi) ?_
    (setAddr_fits h.fits (by decide) le_rfl inum) ?_
  · rw [← List.append_nil (_ ++ [_])]
    refine h.owned.drop ?_ ?_ ?_
    · refine List.nodup_append.mpr ⟨List.Nodup.filterMap (fun i j c hi hj => ?_) List.nodup_range,
        List.nodup_singleton _, ?_⟩
      · exact (Slot.entry.inj (h.owned.inj _ _ _ (hused i c hi) (hused j c hj))).2
      · rintro c hc _ ha rfl
        rw [List.mem_singleton] at ha
        obtain ⟨j, -, hj⟩ := List.mem_filterMap.mp hc
        have := h.owned.inj _ _ _ (hused j c hj) (ha ▸ hind)
        cases this
    · rintro s c ⟨hls, ha, hc⟩
      rw [slotAddr_clearIndirect] at ha
      split at ha
      · exact absurd ha.symm hc
      · exact ⟨(live_congr htype).mp hls, ha, hc⟩
    · intro c
      have hgone : ∀ s : Slot, s.viaIndirect inum = true →
          ¬ Used k.sb (setAddr D inum NDIRECT 0) k.view s c := fun s hs hu => by
        have ha := hu.addr
        rw [slotAddr_clearIndirect, if_pos hs] at ha
        exact hu.nonzero ha.symm
      rw [List.mem_append, List.mem_singleton, List.mem_filterMap]
      constructor
      · rintro (⟨j, -, hj⟩ | rfl)
        · exact ⟨_, hused j c hj, hgone _ (by simp [Slot.viaIndirect])⟩
        · exact ⟨_, hind, hgone _ (by simp [Slot.viaIndirect])⟩
      · rintro ⟨s, ⟨hls, ha, hc⟩, hn⟩
        by_cases hs : s.viaIndirect inum = true
        · cases s with
          | direct i j => cases hs
          | indirect i =>
            obtain rfl : i = inum := by simpa [Slot.viaIndirect] using hs
            exact Or.inr ha.symm
          | entry i j =>
            obtain rfl : i = inum := by simpa [Slot.viaIndirect] using hs
            have hj : j < NINDIRECT := by
              by_contra hj
              rw [slotAddr, if_neg fun hc => hj hc.1] at ha
              exact hc ha.symm
            rw [hentry j hj] at ha
            exact Or.inl ⟨j, List.mem_range.mpr hj, mem_entryAt.mpr ⟨hj, hc, ha⟩⟩
        · refine absurd ⟨(live_congr htype).mpr hls, ?_, hc⟩ hn
          rw [slotAddr_clearIndirect, if_neg hs]
          exact ha
  · intro _ hm
    rw [setAddr_addrs, if_pos ⟨rfl, rfl⟩] at hm
    exact h.not_dirty_meta (datastart_pos k.sb) hm

theorem heldUsed_of_extra {bp a : Nat} (h : FsInv k D extra dirty held stale) (ha : a ∈ extra) :
    HeldUsed k [(bp, a)] := by
  intro p hp
  rw [List.mem_singleton.mp hp]
  exact ⟨(h.owned.extra_range a ha).1, (h.owned.extra_range a ha).2, h.owned.marked_of_extra ha⟩

theorem logRoom_false (k : Kernel) (n : Nat) : LogRoom False k n := fun hf => hf.elim

/-! ## `itrunc` -/

/-- What one or more rounds of `itrunc` leave: only the inode's entry in the table has changed. -/
structure Cleared (k k' : Kernel) (D' : DTable) (ip inum : Nat) (dirty : Set Nat) : Prop where
  inv : FsInv k' D' [] dirty [] (some inum)
  table : Table k'.inode k'.sb.ninodes D'
  entry : k'.inode = Function.update k.inode ip ((k.inode ip).withDin (D' inum))
  steady : Steady k k'

theorem cleared_refl (h : FsInv k D [] dirty [] (some inum)) (ht : Table k.inode k.sb.ninodes D)
    (ho : Opened k ip inum) : Cleared k k D ip inum dirty := by
  refine ⟨h, ht, ?_, Steady.refl k⟩
  rw [← ho.din ht]
  exact (update_eq_self ip k.inode).symm

theorem Cleared.trans {k'' : Kernel} (h : Cleared k k' D ip inum dirty)
    (h' : Cleared k' k'' D' ip inum dirty) : Cleared k k'' D' ip inum dirty := by
  refine ⟨h'.inv, h'.table, ?_, h.steady.trans h'.steady⟩
  rw [h'.entry, h.entry, update_self, update_idem]
  rfl

theorem cleared_of_free {k1 : Kernel} (ht : Table k.inode k.sb.ninodes D)
    (ho : Opened k ip inum) (h1 : FsInv k1 (setAddr D inum j 0) [] dirty [] (some inum))
    (r1 : SameRest k k1) :
    Cleared k (k1.setInode ip ((k1.inode ip).withDin ((k1.inode ip).din.withAddr j 0)))
      (setAddr D inum j 0) ip inum dirty := by
  have hx : (k1.inode ip).din.withAddr j 0 = setAddr D inum j 0 inum := by
    rw [r1.inode, ho.din ht, setAddr, update_self]
  rw [hx]
  refine ⟨h1.setInode _ _, ?_, by rw [setInode_inode, r1.inode],
    (steady_of_sameRest r1).trans (steady_setInode _ _ _)⟩
  have htab := ht.setDin ho.entry ho.ref ho.valid (setAddr D inum j 0 inum)
    (by rw [setAddr_type]; exact (ho.live ht).2.2)
  rw [setInode_inode, r1.inode, setInode_sb, r1.sb]
  rw [ho.inum] at htab
  convert htab using 1
  simp [setAddr]

theorem setAddr_zero_self (hz : (D inum).addrs j = 0) : setAddr D inum j 0 = D := by
  rw [setAddr, DInode.withAddr, ← hz, update_eq_self]
  exact update_eq_self inum D

def clearAddrs (D : DTable) (i : Nat) (js : List Nat) : DTable :=
  js.foldl (fun D j => setAddr D i j 0) D

theorem itruncDirect_spec (js : List Nat) (hjs : ∀ j ∈ js, j < NDIRECT)
    (h : FsInv k D [] dirty [] (some inum)) (ht : Table k.inode k.sb.ninodes D)
    (ho : Opened k ip inum) :
    wp (itruncDirect ip js) (fun _ k' => Cleared k k' (clearAddrs D inum js) ip inum dirty)
      (Fail False) k := by
  induction js generalizing k D with
  | nil => exact cleared_refl h ht ho
  | cons j js ih =>
    have hj := hjs j List.mem_cons_self
    have hnext : ∀ k1, Cleared k k1 (setAddr D inum j 0) ip inum dirty →
        wp (itruncDirect ip js)
          (fun _ k' => Cleared k k' (clearAddrs D inum (j :: js)) ip inum dirty) (Fail False) k1 :=
      fun k1 hc => wp_post (ih (fun i hi => hjs i (List.mem_cons_of_mem j hi)) hc.inv hc.table
        (ho.of_entry hc.entry)) (fun _ _ hc' => hc.trans hc')
    rw [itruncDirect, wp_bind, wp_get, wp_bind, wp_when, ho.din ht, ho.dev ht]
    constructor
    · intro hz
      rw [bne_iff_ne] at hz
      refine wp_then (bfree_spec (R := False) (h.dropDirect (ho.live ht) hj hz) List.mem_cons_self
        (by simp [HeldUsed]) (fun hf => hf.elim) (logRoom_false k 1)) ?_
      rintro _ k1 ⟨h1, r1, -, -⟩
      rw [List.erase_cons_head] at h1
      rw [setDin_spec]
      exact hnext _ (cleared_of_free ht ho h1 r1)
    · intro hz
      rw [bne_eq_false_iff_eq] at hz
      refine hnext k ?_
      rw [setAddr_zero_self hz]
      exact cleared_refl h ht ho

theorem itruncIndirect_spec {bp a : Nat} {d : Block} (js : List Nat) (hjs : ∀ j ∈ js, j < NINDIRECT)
    (h : FsInv k D (js.filterMap (entryAt d) ++ [a]) dirty [(bp, a)] stale) (hd : k.view a = d) :
    wp (itruncIndirect ROOTDEV bp js)
      (fun _ k' => FsInv k' D [a] dirty [(bp, a)] stale ∧ SameRest k k') (Fail False) k := by
  induction js generalizing k with
  | nil => exact ⟨h, SameRest.refl k⟩
  | cons j js ih =>
    have hj := hjs j List.mem_cons_self
    have hrest := fun i hi => hjs i (List.mem_cons_of_mem j hi)
    rw [itruncIndirect, wp_bind, bufData_spec h.cache List.mem_cons_self, wp_bind, wp_when, hd]
    constructor
    · intro hz
      rw [bne_iff_ne] at hz
      have he : entryAt d j = some (getEntry d j) := if_pos ⟨hj, hz⟩
      rw [List.filterMap_cons_some he, List.cons_append] at h
      refine wp_post (bfree_spec (R := False) h List.mem_cons_self
        (heldUsed_of_extra h (by simp)) (fun hf => hf.elim) (logRoom_false k 1)) ?_
      rintro _ k1 ⟨h1, r1, v1, -⟩
      rw [List.erase_cons_head] at h1
      have hva : k1.view a = d := by
        rw [v1 a (h.owned.extra_range a (by simp)).1 (Or.inr (by simp)), hd]
      refine wp_post (ih hrest h1 hva) ?_
      rintro _ k2 ⟨h2, r2⟩
      exact ⟨h2, r1.trans r2⟩
    · intro hz
      rw [bne_eq_false_iff_eq] at hz
      have he : entryAt d j = none := if_neg fun hc => hc.2 hz
      rw [List.filterMap_cons_none he] at h
      exact ih hrest h hd

theorem setAddr_same (D : DTable) (i j b : Nat) :
    setAddr D i j b i = { D i with addrs := (setAddr D i j b i).addrs } := by
  simp [setAddr, DInode.withAddr]

theorem clearAddrs_of_ne {i : Nat} (js : List Nat) (hi : i ≠ inum) :
    clearAddrs D inum js i = D i := by
  induction js generalizing D with
  | nil => rfl
  | cons j js ih => exact ih.trans (setAddr_of_ne D j 0 hi)

theorem clearAddrs_same (js : List Nat) :
    clearAddrs D inum js inum = { D inum with addrs := (clearAddrs D inum js inum).addrs } := by
  induction js generalizing D with
  | nil => rfl
  | cons j js ih =>
    have hs := setAddr_same D inum j 0
    rw [clearAddrs, List.foldl_cons, ← clearAddrs, ih, hs]

theorem clearAddrs_addrs (js : List Nat) (j : Nat) :
    (clearAddrs D inum js inum).addrs j = if j ∈ js then 0 else (D inum).addrs j := by
  induction js generalizing D with
  | nil => simp [clearAddrs]
  | cons i js ih =>
    rw [clearAddrs, List.foldl_cons, ← clearAddrs, ih, setAddr_addrs]
    by_cases hji : j = i <;> by_cases hjs : j ∈ js <;> simp [hji, hjs]

def truncated (x : DInode) : DInode := { x with size := 0, addrs := fun _ => 0 }

theorem truncated_fits {x : DInode} (h : x.Fits) : (truncated x).Fits :=
  ⟨h.type, h.major, h.minor, h.nlink, by simp [truncated], fun _ => by simp [truncated],
    fun _ _ => rfl⟩

theorem clear_eq_truncated (hf : (D inum).Fits) :
    (setAddr (clearAddrs D inum (List.range NDIRECT)) inum NDIRECT 0 inum).withSize 0 =
      truncated (D inum) := by
  have haddrs : (setAddr (clearAddrs D inum (List.range NDIRECT)) inum NDIRECT 0 inum).addrs =
      fun _ => 0 := by
    funext j
    rw [setAddr_addrs, clearAddrs_addrs]
    by_cases hj : j = NDIRECT
    · simp [hj]
    · rw [if_neg (by omega)]
      split
      · rfl
      · rename_i hm
        rw [List.mem_range] at hm
        exact hf.rest j (by omega)
  rw [DInode.withSize, setAddr_same, haddrs, clearAddrs_same]
  rfl

theorem itruncTail_spec (h : Cleared k k' D' ip inum dirty) (ho : Opened k ip inum)
    (ht : Table k.inode k.sb.ninodes D) (hf : (D inum).Fits)
    (hD : (D' inum).withSize 0 = truncated (D inum)) (hoff : ∀ i, i ≠ inum → D' i = D i) :
    wp (setDin ip (·.withSize 0) >>= fun _ => iupdate ip)
      (fun _ k2 => FsInv k2 (update D inum (truncated (D inum))) [] dirty [] none ∧
        Table k2.inode k2.sb.ninodes (update D inum (truncated (D inum))) ∧
        k2.inode = update k.inode ip ((k.inode ip).withDin (truncated (D inum))) ∧
        Steady k k2)
      (Fail False) k' := by
  have ho' : Opened k' ip inum := ho.of_entry h.entry
  have hl := ho.live ht
  rw [wp_bind, setDin_spec, ho'.din h.table, hD]
  have htype : (truncated (D inum)).type = (D' inum).type := by rw [← hD]; rfl
  have haddrs : (truncated (D inum)).addrs = (D' inum).addrs := by rw [← hD]; rfl
  obtain ⟨h1, ht1⟩ := ho'.setField h.table h.inv (truncated_fits hf) htype haddrs
  have hupd : update D' inum (truncated (D inum)) =
      update D inum (truncated (D inum)) := by
    funext i
    by_cases hi : i = inum
    · subst hi
      simp
    · simp [hi, hoff i hi]
  rw [hupd] at h1 ht1
  have ho1 : Opened (k'.setInode ip ((k'.inode ip).withDin (truncated (D inum)))) ip inum :=
    ho'.of_entry rfl
  refine wp_post (iupdate_spec (R := False) h1 (ho1.dev ht1) ?_ ?_ (Or.inr (by rw [ho1.inum])) ?_
    (by simp [HeldUsed]) (by simp) (logRoom_false _ _)) ?_
  · rw [ho1.inum, setInode_sb, h.steady.sb]
    exact hl.2.1
  · rw [ho1.inum]
    exact ho1.din ht1
  · rw [ho1.inum]
    intro _ bn hbn
    rw [update_self] at hbn
    exact absurd hbn (Nat.not_lt_zero _)
  · rintro _ k2 ⟨h2, r2, -, -, -⟩
    refine ⟨h2, by rw [r2.inode, r2.sb]; exact ht1, ?_,
      (h.steady.trans (steady_setInode _ _ _)).trans (steady_of_sameRest r2)⟩
    rw [r2.inode, setInode_inode, h.entry, update_self, update_idem]
    rfl

theorem itrunc_spec (h : FsInv k D [] dirty [] none) (ht : Table k.inode k.sb.ninodes D)
    (ho : Opened k ip inum) : wp (itrunc ip)
      (fun _ k' => FsInv k' (update D inum (truncated (D inum))) [] dirty [] none ∧
        Table k'.inode k'.sb.ninodes (update D inum (truncated (D inum))) ∧
        k'.inode = update k.inode ip ((k.inode ip).withDin (truncated (D inum))) ∧
        Steady k k')
      (Fail False) k := by
  refine wp_then (itruncDirect_spec (List.range NDIRECT) (fun j hj => List.mem_range.mp hj)
    (h.weaken inum) ht ho) ?_
  rintro _ k1 hc
  set D1 := clearAddrs D inum (List.range NDIRECT) with hD1
  have ho1 : Opened k1 ip inum := ho.of_entry hc.entry
  have hl1 := ho1.live hc.table
  have htail : ∀ k2, Cleared k k2 (setAddr D1 inum NDIRECT 0) ip inum dirty → _ := fun k2 hc2 =>
    itruncTail_spec hc2 ho ht (h.fits inum) (clear_eq_truncated (h.fits inum)) fun i hi => by
      rw [setAddr_of_ne _ _ _ hi, hD1, clearAddrs_of_ne _ hi]
  rw [wp_bind, wp_get, wp_bind, wp_when, ho1.din hc.table, ho1.dev hc.table]
  constructor
  · intro hz
    rw [bne_iff_ne] at hz
    have hdrop := hc.inv.dropIndirect hl1 hz
    refine wp_bread hdrop (by simp) (fun hf => hf.elim) ?_
    intro bp k2 h2 q2 v2
    refine wp_then (itruncIndirect_spec (List.range NINDIRECT) (fun j hj => List.mem_range.mp hj) h2
      (v2 _ (Or.inl (hc.inv.not_dirty_indirect hl1)))) ?_
    rintro _ k3 ⟨h3, r3⟩
    refine wp_brelse h3 fun k4 h4 q4 _ => ?_
    refine wp_then (bfree_spec (R := False) h4 List.mem_cons_self (by simp [HeldUsed])
      (fun hf => hf.elim) (logRoom_false _ 1)) ?_
    rintro _ k5 ⟨h5, r5, -, -⟩
    rw [List.erase_cons_head] at h5
    rw [setDin_spec]
    exact htail _ (hc.trans (cleared_of_free hc.table ho1 h5
      (q2.sameRest.trans (r3.trans (q4.sameRest.trans r5)))))
  · intro hz
    rw [bne_eq_false_iff_eq] at hz
    refine htail k1 ?_
    rw [setAddr_zero_self hz]
    exact hc

/-! ## `iput` -/

/-- Only the entries `ip` of the inode table may have changed. -/
def OthersKept (k k' : Kernel) (ip : Nat) : Prop := ∀ j, j ≠ ip → k'.inode j = k.inode j

theorem othersKept_update {x : Inode} (h : k'.inode = update k.inode ip x) :
    OthersKept k k' ip := fun j hj => by rw [h, update_of_ne hj]

theorem OthersKept.trans {k'' : Kernel} (h : OthersKept k k' ip) (h' : OthersKept k' k'' ip) :
    OthersKept k k'' ip := fun j hj => (h' j hj).trans (h j hj)

theorem FsInv.freeInode {x : DInode} (h : FsInv k D [] dirty [] none) (hz : ∀ j, (D inum).addrs j = 0)
    (hx : x.type = 0) (hf : x.Fits) :
    FsInv k (update D inum x) [] dirty [] (some inum) := by
  refine (h.weaken inum).setD (fun i hi => update_of_ne hi _ _) ?_ (by simpa using hf)
    fun hl => absurd (by simpa using hx) hl.2.2
  exact h.owned.congr (used_update_empty (fun _ => hz) fun ht => absurd hx ht) fun _ _ _ => Iff.rfl

theorem iputFree_spec (h : Sound k D dirty) (ho : Opened k ip inum) :
    wp (itrunc ip >>= fun _ => setDin ip (·.withType 0) >>= fun _ => iupdate ip >>= fun _ =>
        modify fun k => k.setInode ip (k.inode ip).freed)
      (fun _ k' => ∃ D', Sound k' D' dirty ∧ (k'.inode ip).ref = (k.inode ip).ref ∧
        OthersKept k k' ip ∧ Steady k k')
      (Fail False) k := by
  have hl := ho.live h.table
  refine wp_then (itrunc_spec h.inv h.table ho) ?_
  rintro _ k1 ⟨h1, ht1, he1, hst1⟩
  have ho1 : Opened k1 ip inum := ho.of_entry he1
  set x := (truncated (D inum)).withType 0 with hx
  have hfx : x.Fits := { truncated_fits (h.inv.fits inum) with type := by simp [hx, DInode.withType] }
  have hempty : ∀ j, (update D inum (truncated (D inum)) inum).addrs j = 0 := fun j => by
    simp [truncated]
  have h2 := h1.freeInode hempty (show x.type = 0 from rfl) hfx
  rw [update_idem] at h2
  rw [wp_bind, setDin_spec, ho1.din ht1, update_self, ← hx]
  set k2 := k1.setInode ip ((k1.inode ip).withDin x) with hk2
  have hip2 : k2.inode ip = (k1.inode ip).withDin x := by rw [hk2, setInode_inode, update_self]
  have hinum2 : (k2.inode ip).inum = inum := by rw [hip2]; exact ho1.inum
  refine wp_then (iupdate_spec (R := False) (h2.setInode ip ((k1.inode ip).withDin x)) ?_ ?_ ?_
    (Or.inr (by rw [hinum2])) ?_ (by simp [HeldUsed]) (by simp) (logRoom_false _ _)) ?_
  · rw [hip2]
    exact ho1.dev ht1
  · rw [hinum2, hk2, setInode_sb, hst1.sb]
    exact hl.2.1
  · rw [hinum2, hip2, update_self]
    rfl
  · rw [hinum2]
    intro hl2
    exact absurd (by simp [hx, DInode.withType]) hl2.2.2
  · rintro _ k3 ⟨h3, r3, -, -, -⟩
    rw [wp_modify]
    have hin3 : k3.inode = update k1.inode ip ((k1.inode ip).withDin x) := r3.inode
    refine ⟨_, ⟨h3.setInode _ _, ?_⟩, ?_, ?_, ?_⟩
    · rw [setInode_inode, hin3, update_self, update_idem, setInode_sb, r3.sb,
        setInode_sb]
      refine ht1.replace (fun _ => ⟨ho1.dev ht1, ht1.inum_ne ho1.entry ho1.ref, fun hv => ?_⟩)
        fun j hj hne hrj _ => ?_
      · cases hv
      · have hji := ht1.inum_ne ho1.entry ho1.ref j hj hne hrj
        rw [ho1.inum] at hji
        rw [update_of_ne hji, update_of_ne hji]
    · rw [setInode_inode, update_self, hin3, update_self, he1, update_self]
      rfl
    · intro j hj
      rw [setInode_inode, update_of_ne hj, hin3, update_of_ne hj, he1,
        update_of_ne hj]
    · exact hst1.trans ((steady_setInode _ _ _).trans
        ((steady_of_sameRest r3).trans (steady_setInode _ _ _)))

theorem iput_spec (h : Sound k D dirty) (hip : ip < NINODE) (href : 0 < (k.inode ip).ref) :
    wp (iput ip) (fun _ k' => ∃ D', Sound k' D' dirty ∧ OthersKept k k' ip ∧ Steady k k')
      (Fail False) k := by
  -- in both cases a reference is dropped at the end
  have hdrop : ∀ k1 D1, Sound k1 D1 dirty → 0 < (k1.inode ip).ref → OthersKept k k1 ip →
      Steady k k1 → ∃ D', Sound (k1.setInode ip ((k1.inode ip).withRef ((k1.inode ip).ref - 1))) D'
        dirty ∧ OthersKept k (k1.setInode ip ((k1.inode ip).withRef ((k1.inode ip).ref - 1))) ip ∧
        Steady k (k1.setInode ip ((k1.inode ip).withRef ((k1.inode ip).ref - 1))) :=
    fun k1 D1 h1 hr hk hs => ⟨D1, h1.touch hip hr rfl rfl rfl id,
      hk.trans (othersKept_update rfl), hs.trans (steady_setInode _ _ _)⟩
  rw [iput, wp_bind, wp_get, wp_bind, wp_when]
  constructor
  · intro hc
    simp only [Bool.and_eq_true, decide_eq_true_eq] at hc
    rw [wp_bind, wp_check]
    refine ⟨fun _ => ⟨id, by simp⟩, fun _ => ?_⟩
    rw [wp_bind, wp_set]
    have h1 : Sound (k.setInode ip ((k.inode ip).withLocked true)) D dirty :=
      h.touch hip href rfl rfl rfl id
    have hip1 : (k.setInode ip ((k.inode ip).withLocked true)).inode ip =
        (k.inode ip).withLocked true := by rw [setInode_inode, update_self]
    have ho1 : Opened (k.setInode ip ((k.inode ip).withLocked true)) ip (k.inode ip).inum :=
      ⟨hip, by rw [hip1]; exact href, by rw [hip1]; exact hc.1.2, by rw [hip1]; rfl⟩
    refine wp_post (iputFree_spec h1 ho1) ?_
    rintro _ k2 ⟨D2, h2, hr2, hk2, hs2⟩
    rw [wp_modify]
    refine hdrop k2 D2 h2 ?_ ((othersKept_update rfl).trans hk2) ((steady_setInode _ _ _).trans hs2)
    rw [hr2, hip1]
    exact href
  · intro _
    rw [wp_modify]
    exact hdrop k D h href (fun _ _ => rfl) (Steady.refl k)

end Clear

end Xv6.Fs
