import Xv6.Fs.DirMap
import Xv6.Namespace.Calls

/-!
# The directories of the file system are those of the namespace

`fs.c` is modelled twice: in `Xv6.Fs` a directory is the bytes of its blocks and one call runs at a
time, and here it is the records of an inode that processes share. `dirlookup`, `dirlink` and the
`writei` of `sys_unlink` on the bytes are runs of the programs on the records, with the same
answers.
-/

namespace Xv6.Namespace

open Xv6.Foundation Function
open Xv6.Disk (BSIZE MAXFILE)
open Xv6.Fs (nameOf dirOf Dir)

set_option autoImplicit false

/-! ## Records and slots -/

def chars (a : Fs.Name) : Name := a.map fun b => Char.ofNat b.toNat

theorem chars_injective : Injective chars := by
  have hbyte : ∀ b : Byte, BitVec.ofNat 8 (Char.ofNat b.toNat).toNat = b := by decide
  refine List.map_injective_iff.mpr fun b c h => ?_
  rw [← hbyte b, ← hbyte c]
  exact congrArg (fun c : Char => BitVec.ofNat 8 c.toNat) h

def Dirent.Shows (de : Dirent) : Option (Fs.Name × Nat) → Prop
  | none => de.inum = 0
  | some (a, i) => de.inum = i ∧ 0 < i ∧ de.name = chars a

/-- The records of `x` are the slots of `t`. -/
structure DInode.Shows (x : DInode) (t : SlotTable Fs.Name Nat) : Prop where
  dir : x.IsDir
  size : x.size = direntSize * t.length
  record : ∀ j s, t[j]? = some s → (x.ents j).Shows s

theorem exists_shows (k : Disk.Kernel) (dp : Nat) : ∃ x : DInode, x.Shows (dirOf k dp) := by
  have hde : ∀ d, ∃ de : Dirent, de.Shows (Fs.entryOf d) := by
    intro d
    rw [Fs.entryOf]
    split
    next => exact ⟨zeroDirent, rfl⟩
    next h => exact ⟨⟨_, _⟩, rfl, Nat.pos_of_ne_zero h, rfl⟩
  choose de hde using hde
  refine ⟨⟨some .dir, 0, 1, _, fun j => de (Fs.direntAt (k.inode dp).din k.view j)⟩, rfl, rfl,
    fun j s hs => ?_⟩
  simp only [dirOf, Fs.entries, List.getElem?_map, Option.map_eq_some_iff] at hs
  obtain ⟨i, hi, rfl⟩ := hs
  obtain rfl : j = i := by grind
  exact hde _

section Records
variable {x : DInode} {t t' : SlotTable Fs.Name Nat} {a : Fs.Name} {i j : Nat}

namespace DInode.Shows
variable (h : x.Shows t)
include h

theorem slots_eq : x.slots = t.length := by
  rw [slots, h.size, Nat.mul_div_cancel_left _ (by decide)]

theorem ragged_eq : x.ragged = false := by
  simp [ragged, h.size]

theorem bound_iff (hj : j < t.length) :
    ((x.ents j).inum ≠ 0 ∧ (x.ents j).name = chars a) ↔ ∃ i, t.At j a i := by
  have hr := h.record j _ (List.getElem?_eq_getElem hj)
  simp only [SlotTable.At, List.getElem?_eq_getElem hj]
  cases hs : t[j] with
  | none =>
    rw [hs] at hr
    simp [show (x.ents j).inum = 0 from hr]
  | some p =>
    rw [hs] at hr
    obtain ⟨hi, hpos, hn⟩ := hr
    rw [hi, hn, chars_injective.eq_iff]
    refine ⟨fun hb => ⟨p.2, by rw [← hb.2]⟩, ?_⟩
    rintro ⟨i, hp⟩
    cases hp
    exact ⟨by omega, rfl⟩

theorem lookup_of_at (hd : t.Distinct) (hat : t.At j a i) : x.lookup (chars a) = some j := by
  rw [lookup, List.find?_range_eq_some, h.slots_eq]
  refine ⟨?_, List.mem_range.mpr hat.lt, fun j' hj' => ?_⟩
  · exact decide_eq_true ((h.bound_iff hat.lt).mpr ⟨i, hat⟩)
  · rw [Bool.not_eq_true', decide_eq_false_iff_not, h.bound_iff (hj'.trans hat.lt)]
    rintro ⟨i', hat'⟩
    exact hj'.ne (hd _ _ _ _ _ hat' hat)

theorem lookup_of_absent (ha : t.Absent a) : x.lookup (chars a) = none := by
  rw [lookup, List.find?_eq_none, h.slots_eq]
  intro j hj
  rw [decide_eq_true_eq, h.bound_iff (List.mem_range.mp hj)]
  rintro ⟨i, hat⟩
  exact ha j i hat

theorem inum_of_at (hat : t.At j a i) : (x.ents j).inum = i := (h.record j _ hat).1

theorem emptySlot_eq : x.emptySlot = t.firstFree := by
  have hnone : ∀ {j s}, t[j]? = some s → ((x.ents j).inum = 0 ↔ s = none) := by
    intro j s hs
    have hr := h.record j s hs
    cases s with
    | none => exact ⟨fun _ => rfl, fun _ => hr⟩
    | some p =>
      obtain ⟨hi, hpos, -⟩ := hr
      simp only [reduceCtorEq, iff_false]
      omega
  symm
  rw [emptySlot, h.slots_eq]
  cases hf : (List.range t.length).find? fun slot => decide ((x.ents slot).inum = 0) with
  | none =>
    rw [List.find?_eq_none] at hf
    refine SlotTable.firstFree_eq le_rfl (fun i hi s hs he => ?_) fun hlt => absurd hlt (lt_irrefl _)
    exact hf i (List.mem_range.mpr hi) (decide_eq_true ((hnone hs).mpr he))
  | some j =>
    obtain ⟨hz, hj, hbefore⟩ := List.find?_range_eq_some.mp hf
    have hlt := List.mem_range.mp hj
    rw [Option.getD_some]
    refine SlotTable.firstFree_eq hlt.le (fun i hi s hs he => ?_) fun _ => ?_
    · have := hbefore i hi
      simp [(hnone hs).mpr he] at this
    · have hs := List.getElem?_eq_getElem hlt
      rw [hs, (hnone hs).mp (by simpa using hz)]

theorem writeSlot {de : Dirent} {s : Option (Fs.Name × Nat)} (hj : j ≤ t.length) (hs : de.Shows s)
    (ht : ∀ i, t'[i]? = if i = j then some s else t[i]?) : (x.writeSlot j de).Shows t' := by
  have hlen : t'.length = max t.length (j + 1) := by
    refine eq_of_forall_ge_iff fun i => ?_
    rw [← List.getElem?_eq_none_iff, ht]
    split <;> simp <;> omega
  refine ⟨h.dir, ?_, fun i s' hs' => ?_⟩
  · simp only [DInode.writeSlot, h.size, hlen, direntSize]
    omega
  · rw [ht] at hs'
    simp only [DInode.writeSlot, update_apply]
    split at hs' <;> rename_i hi
    · cases hs'
      rw [if_pos hi]
      exact hs
    · rw [if_neg hi]
      exact h.record i s' hs'

end DInode.Shows

end Records

/-! ## The calls -/

section Calls
variable {P : Type} [DecidableEq P] {p : P} {k k' : Disk.Kernel} {κ κ' : Kernel P} {D : Fs.DTable}
  {dirty : Set Nat} {s : Slot} {dp inum i j : Nat} {a : Fs.Name} {t : SlotTable Fs.Name Nat}

/-- `iget` returned `ip` for inode `i`; putting the reference back is not the last use of an inode. -/
structure Got (κ κ' : Kernel P) (i : Nat) (ip : Slot) : Prop where
  inum : (κ'.inode ip).inum = i
  last : (κ'.inode ip).ref = 1 → (κ'.inode ip).valid = false
  din : ∀ s, (κ'.inode s).din = (κ.inode s).din

omit [DecidableEq P] in
theorem din_setInode {r : Slot} {x : Inode P} (hx : x.din = (κ.inode r).din) (s : Slot) :
    ((κ.setInode r x).inode s).din = (κ.inode s).din := by
  by_cases hs : s = r <;> simp [hs, hx]

theorem exec_iget (hroom : κ.emptyEntry ≠ none) :
    ∃ ip κ', κ.exec p (.iget i) = .ok ip κ' ∧ Got κ κ' i ip := by
  rw [Kernel.exec]
  cases hc : κ.cached i with
  | some ip =>
    have hip : 0 < (κ.inode ip).ref ∧ (κ.inode ip).inum = i := by
      simpa using List.find?_some hc
    exact ⟨ip, _, rfl, by simpa [Kernel.addRef] using hip.2,
      fun h1 => by simp [Kernel.addRef] at h1; omega, din_setInode rfl⟩
  | none =>
    obtain ⟨ip, hip⟩ := Option.ne_none_iff_exists'.mp hroom
    simp only [hip]
    exact ⟨ip, _, rfl, by simp, fun _ => by simp, din_setInode rfl⟩

theorem run_dirlookup_of_absent (hx : (κ.inode s).din.Shows t) (ha : t.Absent a) :
    (dirlookup s (chars a)).run (Kernel.exec p) κ = .ok none κ := by
  rw [dirlookup, Prog.run_bind (a := ((κ.inode s).inum, (κ.inode s).din)) rfl]
  simp [hx.dir, hx.lookup_of_absent ha, hx.ragged_eq, pure, Prog.run]

theorem run_dirlookup_of_at (hx : (κ.inode s).din.Shows t) (hd : t.Distinct) (hat : t.At j a i)
    (hroom : κ.emptyEntry ≠ none) : ∃ ip κ',
      (dirlookup s (chars a)).run (Kernel.exec p) κ = .ok (some (j, ip)) κ' ∧ Got κ κ' i ip := by
  obtain ⟨ip, κ', hget, hgot⟩ := exec_iget (p := p) (i := i) hroom
  refine ⟨ip, κ', ?_, hgot⟩
  rw [dirlookup, Prog.run_bind (a := ((κ.inode s).inum, (κ.inode s).din)) rfl]
  simp only [hx.dir, hx.lookup_of_at hd hat, hx.inum_of_at hat, not_true_eq_false, if_false]
  have hrun : (iget i : K P Slot).run (Kernel.exec p) κ = .ok ip κ' := Prog.run_lift.trans hget
  rw [Prog.run_bind hrun]
  rfl

/-- `dirlookup` finds the same entry, and the same inode. -/
theorem dirlookup_refines {name : Bytes} {r : Option (Nat × Nat)} (h : Dir k D dirty dp inum)
    (hx : (κ.inode s).din.Shows (dirOf k dp)) (hroom : κ.emptyEntry ≠ none)
    (hrun : Fs.dirlookup dp name k = .ok r k') : ∃ r' κ',
      (dirlookup s (chars (nameOf name))).run (Kernel.exec p) κ = .ok r' κ' ∧
      r'.map (fun x => ((κ'.inode x.2).inum, direntSize * x.1)) =
        r.map (fun x => ((k'.inode x.1).inum, x.2)) ∧
      (κ'.inode s).din.Shows (dirOf k' dp) := by
  have hwp := Fs.dirlookup_finds (R := False) name h fun hf => hf.elim
  rw [wp_of_ok hrun] at hwp
  obtain ⟨-, he, hl⟩ := hwp
  rw [he]
  cases r with
  | none => exact ⟨none, κ, run_dirlookup_of_absent hx hl.2, rfl, hx⟩
  | some x =>
    obtain ⟨k1, j, i, -, -, ht, hat, ho⟩ := hl
    obtain ⟨ip, κ', hrun', hgot⟩ := run_dirlookup_of_at (p := p) hx h.distinct hat hroom
    refine ⟨some (j, ip), κ', hrun', ?_, by rw [hgot.din]; exact hx⟩
    simp only [Option.map_some, hgot.inum, ht.entry.2, ho]
    rfl

theorem exec_writei {d : Dirent} {e : Option (Fs.Name × Nat)} (hx : (κ.inode s).din.Shows t)
    (hj : j ≤ t.length) (he : d.Shows e) (h' : Dir k' D dirty dp inum) (hlt : j < (dirOf k' dp).length)
    (ht : ∀ i, (dirOf k' dp)[i]? = if i = j then some e else t[i]?) : ∃ κ',
      κ.exec p (.writei s j d) = .ok true κ' ∧ (κ'.inode s).din.Shows (dirOf k' dp) := by
  have hmax := Fs.size_le_of_holeFree h'.holes
  rw [h'.size_eq] at hmax
  have hcond : j * direntSize ≤ (κ.inode s).din.size ∧
      (j + 1) * direntSize ≤ MAXFILE * BSIZE := by
    rw [hx.size]
    simp only [direntSize, Fs.direntSize] at hmax ⊢
    omega
  exact ⟨_, by rw [Kernel.exec, if_pos hcond], by simpa using hx.writeSlot hj he ht⟩

/-- `dirlink` refuses the same names, and binds the others in the same place. -/
theorem dirlink_refines {name : Bytes} {r : Int} (h : Dir k D dirty dp inum) (h0 : 0 < i)
    (hi : i < 2 ^ 16) (hx : (κ.inode s).din.Shows (dirOf k dp)) (hroom : κ.emptyEntry ≠ none)
    (hrun : Fs.dirlink dp name i k = .ok r k') : ∃ κ',
      (dirlink s (chars (nameOf name)) i).run (Kernel.exec p) κ = .ok (decide (r = 0)) κ' ∧
      (κ'.inode s).din.Shows (dirOf k' dp) := by
  have hwp := Fs.dirlink_binds (R := False) name h h0 hi fun hf => hf.elim
  rw [wp_of_ok hrun] at hwp
  rcases hwp with ⟨rfl, ⟨j, i', hat⟩, -, -, he⟩ | ⟨rfl, habs, D', dirty', h', he⟩
  · obtain ⟨ip, κ1, hrun1, hgot⟩ := run_dirlookup_of_at (p := p) hx h.distinct hat hroom
    have hput : (iput ip).run (Kernel.exec p) κ1 = .ok () (κ1.dropRef ip) := by
      have htest : (iputTest ip).run (Kernel.exec p) κ1 = .ok false (κ1.dropRef ip) := by
        refine Prog.run_lift.trans (if_neg ?_)
        rintro ⟨h1, hv, -⟩
        rw [hgot.last h1] at hv
        cases hv
      rw [iput, Prog.run_bind htest]
      rfl
    refine ⟨κ1.dropRef ip, ?_, ?_⟩
    · rw [dirlink, Prog.run_bind hrun1, Prog.run_bind hput]
      rfl
    · have hdin : ((κ1.dropRef ip).inode s).din = (κ1.inode s).din := din_setInode (by rfl) s
      rw [hdin, hgot.din, he]
      exact hx
  · have hlt : (dirOf k dp).firstFree < (dirOf k' dp).length := by
      rw [he]
      exact (SlotTable.at_put.mpr (Or.inl ⟨rfl, rfl, rfl⟩)).lt
    obtain ⟨κ', hw, hx'⟩ := exec_writei (p := p) (d := ⟨i % 2 ^ 16, chars (nameOf name)⟩) hx
      (SlotTable.firstFree_le _) (e := some (nameOf name, i))
      ⟨Nat.mod_eq_of_lt hi, h0, rfl⟩ h' hlt fun _ => by rw [he, SlotTable.getElem?_put]
    refine ⟨κ', ?_, hx'⟩
    rw [dirlink, Prog.run_bind (run_dirlookup_of_absent hx habs)]
    simp only
    rw [Prog.run_bind (a := ((κ.inode s).inum, (κ.inode s).din)) rfl]
    simp only [hx.ragged_eq, hx.emptySlot_eq, Bool.false_eq_true, and_false, if_false]
    have hrun' : (writei s (dirOf k dp).firstFree ⟨i % 2 ^ 16, chars (nameOf name)⟩ : K P Bool).run
      (Kernel.exec p) κ = .ok true κ' := Prog.run_lift.trans hw
    rw [Prog.run_bind hrun']
    rfl

/-- The `writei` of `sys_unlink` clears the same record. -/
theorem unlink_refines {r : Int} (h : Dir k D dirty dp inum) (hat : (dirOf k dp).At j a i)
    (hx : (κ.inode s).din.Shows (dirOf k dp))
    (hrun : Fs.writei dp (.kernel fun _ => 0) 0 (Fs.direntSize * j) Fs.direntSize k = .ok r k') :
    (κ.inode s).din.lookup (chars a) = some j ∧ ∃ κ',
      κ.exec p (.writei s j zeroDirent) = .ok true κ' ∧ (κ'.inode s).din.Shows (dirOf k' dp) := by
  have hwp := Fs.zero_clears (R := False) h hat fun hf => hf.elim
  rw [wp_of_ok hrun] at hwp
  obtain ⟨-, D', dirty', h', he⟩ := hwp
  refine ⟨hx.lookup_of_at h.distinct hat, exec_writei hx hat.lt.le (e := none) rfl h' ?_ fun _ => ?_⟩
  · rw [he, SlotTable.clear, List.length_set]
    exact hat.lt
  · rw [he, SlotTable.getElem?_clear _ hat.lt]

end Calls

end Xv6.Namespace
