import Xv6.Fs.Model

/-!
# `copyin` and `copyout`

Both go page by page and stop at the first page that is not mapped, after the bytes before it
have been copied.
-/

namespace Xv6.Fs

open Xv6.Foundation Xv6.Disk

set_option autoImplicit false

theorem blit_append (d : Block) (dst n t : Nat) (f g h : Bytes) (hf : ∀ o < n, f o = h o)
    (hg : ∀ o < t, g o = h (n + o)) : blit (blit d dst f n) (dst + n) g t = blit d dst h (n + t) := by
  funext i
  unfold blit
  by_cases h1 : dst + n ≤ i ∧ i < dst + n + t
  · rw [if_pos h1, if_pos (by omega), hg _ (by omega)]
    congr 1
    omega
  · rw [if_neg h1]
    by_cases h2 : dst ≤ i ∧ i < dst + n
    · rw [if_pos h2, if_pos (by omega), hf _ (by omega)]
    · rw [if_neg h2, if_neg (by omega)]

theorem page_eq {va o : Nat} (h : o < PGSIZE - va % PGSIZE) : (va + o) / PGSIZE = va / PGSIZE := by
  unfold PGSIZE at *
  omega

/-- The first `t` bytes at `va` are mapped, and either they are all or the next one is not. -/
def MappedPrefix (m : Mem) (va len t : Nat) : Prop :=
  t ≤ len ∧ (∀ o < t, m.mapped ((va + o) / PGSIZE) = true) ∧
    (t < len → m.mapped ((va + t) / PGSIZE) = false)

/-- `copyin` copies up to the first byte that is not mapped. -/
theorem copyin_spec (m : Mem) (fuel : Nat) (d : Block) (dst va len : Nat) (hf : len ≤ fuel) :
    ∃ t, MappedPrefix m va len t ∧
      copyin m fuel d dst va len = (blit d dst (fun o => m.byte (va + o)) t, decide (t = len)) := by
  induction fuel generalizing d dst va len with
  | zero =>
    have hz : len = 0 := by omega
    subst hz
    exact ⟨0, ⟨Nat.le_refl 0, by simp, by simp⟩, by simp [copyin]⟩
  | succ fuel ih =>
    rw [copyin]
    by_cases hz : len = 0
    · subst hz
      exact ⟨0, ⟨Nat.le_refl 0, by simp, by simp⟩, by simp⟩
    by_cases hm : m.mapped (va / PGSIZE) = true
    · rw [if_neg hz, if_pos hm]
      set n := min (PGSIZE - va % PGSIZE) len with hn
      have hmod := Nat.mod_lt va (show 0 < PGSIZE by decide)
      have hle' := Nat.mod_le va PGSIZE
      have hpage : ∀ o < n, (va + o) / PGSIZE = va / PGSIZE := fun o ho => page_eq (by omega)
      obtain ⟨t, ⟨hle, hall, hend⟩, hc⟩ := ih (blit d dst (fun o => m.byte (va + o)) n) (dst + n)
        (va - va % PGSIZE + PGSIZE) (len - n) (by omega)
      -- the next page is entered only when this one was used up
      have hnext : ∀ o, o ≤ t → n < len → va - va % PGSIZE + PGSIZE + o = va + (n + o) := by
        intro o _ hlt
        omega
      have hshort : ¬ n < len → t = 0 := by omega
      refine ⟨n + t, ⟨by omega, fun o ho => ?_, fun hlt => ?_⟩, ?_⟩
      · by_cases hon : o < n
        · rw [hpage o hon, hm]
        · have hlt : n < len := by omega
          have hres := hall (o - n) (by omega)
          rw [hnext (o - n) (by omega) hlt] at hres
          rwa [show n + (o - n) = o by omega] at hres
      · have hres := hend (by omega)
        rwa [hnext t (Nat.le_refl t) (by omega)] at hres
      · rw [hc, blit_append d dst n t _ _ (fun o => m.byte (va + o)) (fun _ _ => rfl)]
        · congr 1
          rw [decide_eq_decide]
          omega
        · intro o ho
          rw [hnext o (by omega) (by omega)]
    · rw [if_neg hz, if_neg hm]
      refine ⟨0, ⟨Nat.zero_le _, by simp, fun _ => by simpa using hm⟩, ?_⟩
      rw [blit_zero]
      congr 1
      exact (decide_eq_false (by omega)).symm

variable {m : Mem}

theorem MappedPrefix.tail {src n len t : Nat}
    (hlen : ∀ o < len, m.mapped ((src + o) / PGSIZE) = true) (hle : len ≤ n)
    (h : MappedPrefix m (src + len) (n - len) t) : MappedPrefix m src n (len + t) := by
  obtain ⟨ht, hall, hend⟩ := h
  refine ⟨by omega, fun o ho => ?_, fun hlt => ?_⟩
  · by_cases hol : o < len
    · exact hlen o hol
    · have hres := hall (o - len) (by omega)
      rwa [show src + len + (o - len) = src + o by omega] at hres
  · have hres := hend (by omega)
    rwa [Nat.add_assoc] at hres

/-! ## Memory that is all there -/

/-- `len` bytes at `va` can be copied without a fault. -/
def Mem.Covers (m : Mem) (va len : Nat) : Prop :=
  m.user = true → ∀ o < len, m.mapped ((va + o) / PGSIZE) = true

theorem Mem.Covers.tail {va len n : Nat} (h : m.Covers va n) (hle : len ≤ n) :
    m.Covers (va + len) (n - len) := by
  intro hu o ho
  rw [Nat.add_assoc]
  exact h hu (len + o) (by omega)

theorem Mem.Covers.mono {va len n : Nat} (h : m.Covers va n) (hle : len ≤ n) :
    m.Covers va len := fun hu o ho => h hu o (by omega)

theorem eitherCopyin_spec (m : Mem) (d : Block) (dst va len : Nat) :
    ∃ t, t ≤ len ∧ (m.Covers va len → t = len) ∧
      eitherCopyin m d dst va len = (blit d dst (fun o => m.byte (va + o)) t, decide (t = len)) := by
  unfold eitherCopyin
  by_cases hu : m.user = true
  · rw [if_pos hu]
    obtain ⟨t, ⟨hle, -, hend⟩, hc⟩ := copyin_spec m len d dst va len le_rfl
    refine ⟨t, hle, fun hcov => ?_, hc⟩
    by_contra hne
    have hlt : t < len := by omega
    have := (hcov hu t hlt).symm.trans (hend hlt)
    cases this
  · rw [if_neg hu]
    exact ⟨len, le_rfl, fun _ => rfl, by simp⟩

theorem copyout_spec (src : Bytes) (fuel : Nat) (m : Mem) (va so len : Nat) (hf : len ≤ fuel)
    (hm : ∀ o < len, m.mapped ((va + o) / PGSIZE) = true) : copyout src fuel m va so len =
      ({ m with byte := blit m.byte va (fun o => src (so + o)) len }, true) := by
  induction fuel generalizing m va so len with
  | zero =>
    have hz : len = 0 := by omega
    subst hz
    simp [copyout, blit_zero]
  | succ fuel ih =>
    rw [copyout]
    by_cases hz : len = 0
    · subst hz
      simp [blit_zero]
    · rw [if_neg hz, if_pos (by simpa using hm 0 (by omega))]
      set n := min (PGSIZE - va % PGSIZE) len with hn
      have hmod := Nat.mod_lt va (show 0 < PGSIZE by decide)
      have hle := Nat.mod_le va PGSIZE
      by_cases hlast : n = len
      · rw [ih _ _ _ _ (by omega) (fun o ho => absurd ho (by omega)), hlast, Nat.sub_self, blit_zero]
      · have hva : va - va % PGSIZE + PGSIZE = va + n := by omega
        rw [hva, ih _ _ _ _ (by omega) fun o ho => ?_]
        · congr 2
          rw [blit_append m.byte va n (len - n) _ _ (fun o => src (so + o)) (fun _ _ => rfl),
            Nat.add_sub_cancel' (by omega)]
          exact fun o _ => by rw [Nat.add_assoc]
        · rw [Nat.add_assoc]
          exact hm (n + o) (by omega)

theorem eitherCopyout_spec {va len : Nat} (h : m.Covers va len) (src : Bytes) :
    eitherCopyout m va src len = ({ m with byte := blit m.byte va src len }, true) := by
  unfold eitherCopyout
  by_cases hu : m.user = true
  · rw [if_pos hu, copyout_spec src len m va 0 len le_rfl (h hu)]
    simp only [Nat.zero_add]
  · rw [if_neg hu]

end Xv6.Fs
