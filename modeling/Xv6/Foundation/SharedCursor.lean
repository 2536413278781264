import Mathlib.Data.List.Basic
import Mathlib.Logic.Function.Basic
import Xv6.Foundation.Run

/-!
# Writers that share a cursor

Several writers put their buffers into one file at a cursor they share. A buffer goes in pieces of at
most `size` elements; a piece that would pass `limit` is refused and ends its call. Whatever the
interleaving, the pieces lie one after another in the file, each call's in the order of its buffer.
-/

namespace Xv6.Foundation.SharedCursor

open Function

set_option autoImplicit false

variable {P β : Type}

/-! ## Writing over a part of a list -/

/-- `data` in place of what `l` has from `off` on. -/
def overwrite (l : List β) (off : Nat) (data : List β) : List β :=
  l.take off ++ data ++ l.drop (off + data.length)

section Overwrite
variable {l a b : List β} {off : Nat}

theorem length_overwrite (h : off ≤ l.length) :
    (overwrite l off a).length = max l.length (off + a.length) := by
  simp only [overwrite, List.length_append, List.length_take, List.length_drop]
  omega

theorem overwrite_nil : overwrite l off [] = l := by
  simp [overwrite]

theorem overwrite_append (h : off ≤ l.length) :
    overwrite (overwrite l off a) (off + a.length) b = overwrite l off (a ++ b) := by
  have htake : (l.take off ++ a).length = off + a.length := by
    rw [List.length_append, List.length_take, Nat.min_eq_left h]
  unfold overwrite
  rw [List.take_left' htake, List.drop_append, htake, Nat.add_sub_cancel_left, List.drop_drop,
    List.drop_eq_nil_of_le (by omega), List.nil_append, List.length_append]
  simp only [List.append_assoc, Nat.add_assoc]

theorem take_drop_overwrite {c : List β} (h : off ≤ l.length) :
    ((overwrite l off (a ++ b ++ c)).drop (off + a.length)).take b.length = b := by
  have htake : (l.take off ++ a).length = off + a.length := by
    rw [List.length_append, List.length_take, Nat.min_eq_left h]
  unfold overwrite
  rw [show l.take off ++ (a ++ b ++ c) = l.take off ++ a ++ (b ++ c) by simp, List.append_assoc,
    List.drop_left' htake, List.append_assoc, List.take_left]

end Overwrite

/-! ## The machine -/

/-- A call in progress: its buffer, how much of it has been written, and whether it has given up. -/
structure Call (β : Type) where
  buf : List β
  done : Nat
  broke : Bool

structure State (P β : Type) where
  off : Nat
  file : List β
  call : P → Option (Call β)

inductive Event (P β : Type) where
  | start (p : P) (buf : List β)
  | chunk (p : P) (base : Nat) (data : List β)
  | refused (p : P) (base n : Nat)
  | ret (p : P) (v : Int)

def Call.piece (size : Nat) (c : Call β) : List β := (c.buf.drop c.done).take size

def Call.result (c : Call β) : Int := if c.done = c.buf.length then c.buf.length else -1

def State.setCall [DecidableEq P] (s : State P β) (p : P) (c : Option (Call β)) : State P β :=
  { s with call := Function.update s.call p c }

def State.write [DecidableEq P] (s : State P β) (p : P) (c : Call β) (data : List β) : State P β where
  off := s.off + data.length
  file := overwrite s.file s.off data
  call := Function.update s.call p (some { c with done := c.done + data.length })

inductive Step [DecidableEq P] (size limit : Nat) :
    State P β → Option (Event P β) → State P β → Prop where
  | start {s p buf} : s.call p = none →
      Step size limit s (some (.start p buf)) (s.setCall p (some ⟨buf, 0, false⟩))
  | chunk {s p c} : s.call p = some c → c.broke = false →
      c.done < c.buf.length → s.off + (c.piece size).length ≤ limit →
      Step size limit s (some (.chunk p s.off (c.piece size))) (s.write p c (c.piece size))
  | refused {s p c} : s.call p = some c → c.broke = false →
      c.done < c.buf.length → limit < s.off + (c.piece size).length →
      Step size limit s (some (.refused p s.off (c.piece size).length))
        (s.setCall p (some { c with broke := true }))
  | ret {s p c} : s.call p = some c →
      (c.broke = true ∨ ¬ c.done < c.buf.length) →
      Step size limit s (some (.ret p c.result)) (s.setCall p none)
  | idle {s} : Step size limit s none s

/-! ## What a history says -/

def written : List (Event P β) → List β
  | [] => []
  | .start _ _ :: t => written t
  | .chunk _ _ data :: t => written t ++ data
  | .refused _ _ _ :: t => written t
  | .ret _ _ :: t => written t

/-- The pieces tile the file from `off` on, in the order of the history, and a refused piece would have
passed the limit. -/
def Tiles (off limit : Nat) : List (Event P β) → Prop
  | [] => True
  | .start _ _ :: t => Tiles off limit t
  | .chunk _ base _ :: t => base = off + (written t).length ∧ Tiles off limit t
  | .refused _ base n :: t => base = off + (written t).length ∧ limit < base + n ∧ Tiles off limit t
  | .ret _ _ :: t => Tiles off limit t

/-- What has happened in a call: its buffer, what has been written of it, and the piece that was
refused. -/
structure Progress (β : Type) where
  buf : List β
  data : List β
  refused : Option (Nat × Nat)

/-- The call that `p` is in after a history. -/
def progress [DecidableEq P] (p : P) : List (Event P β) → Option (Progress β)
  | [] => none
  | .start q buf :: t => if q = p then some ⟨buf, [], none⟩ else progress p t
  | .chunk q _ data :: t =>
    if q = p then (progress p t).map fun g => { g with data := g.data ++ data } else progress p t
  | .refused q base n :: t =>
    if q = p then (progress p t).map fun g => { g with refused := some (base, n) } else progress p t
  | .ret q _ :: t => if q = p then none else progress p t

def buffers : List (Event P β) → List (List β)
  | [] => []
  | .start _ buf :: t => buffers t ++ [buf]
  | .chunk _ _ _ :: t => buffers t
  | .refused _ _ _ :: t => buffers t
  | .ret _ _ :: t => buffers t

def Accepted : List (Event P β) → Prop
  | [] => True
  | .start _ _ :: t => Accepted t
  | .chunk _ _ _ :: t => Accepted t
  | .refused _ _ _ :: _ => False
  | .ret _ _ :: t => Accepted t

/-- The whole buffer is written at the cursor, in one piece. -/
def writeWhole (r : List β × Nat) (buf : List β) : List β × Nat :=
  (overwrite r.1 r.2 buf, r.2 + buf.length)

theorem foldl_writeWhole {l : List β} {off : Nat} (h : off ≤ l.length) (bufs : List (List β)) :
    bufs.foldl writeWhole (l, off) = (overwrite l off bufs.flatten, off + bufs.flatten.length) := by
  induction bufs generalizing l off with
  | nil => rw [List.foldl_nil, List.flatten_nil, overwrite_nil, List.length_nil, Nat.add_zero]
  | cons b bufs ih =>
    have hlen : off + b.length ≤ (overwrite l off b).length := by
      rw [length_overwrite h]
      omega
    rw [List.foldl_cons, writeWhole, ih hlen, overwrite_append h, List.flatten_cons, List.length_append,
      Nat.add_assoc]

/-! ## Runs -/

section Runs
variable [DecidableEq P] {size limit : Nat} {s₀ s s' : State P β} {t : List (Event P β)} {p : P}
  {e : Event P β} {t₁ t₂ : List (Event P β)}

/-- The call of the state is the one of the history: what was written is the front of the buffer, whole
pieces of it until the last. -/
structure Agrees (size : Nat) (c : Call β) (g : Progress β) : Prop where
  buf : c.buf = g.buf
  data : g.data = c.buf.take c.done
  done : c.done ≤ c.buf.length
  broke : c.broke = true ↔ g.refused ≠ none
  whole : c.done < c.buf.length → size ∣ c.done
  short : c.broke = true → c.done < c.buf.length
  refused : ∀ base n, g.refused = some (base, n) → n = min size (c.buf.length - c.done)

structure Inv (size limit : Nat) (s₀ : State P β) (t : List (Event P β)) (s : State P β) : Prop where
  off : s.off = s₀.off + (written t).length
  file : s.file = overwrite s₀.file s₀.off (written t)
  tiles : Tiles s₀.off limit t
  call : ∀ p, (s.call p = none ∧ progress p t = none) ∨
    ∃ c g, s.call p = some c ∧ progress p t = some g ∧ Agrees size c g

theorem Call.length_piece (c : Call β) : (c.piece size).length = min size (c.buf.length - c.done) := by
  simp [Call.piece]

theorem Inv.init (h : ∀ p, s₀.call p = none) : Inv size limit s₀ [] s₀ :=
  ⟨by simp [written], overwrite_nil.symm, trivial, fun p => Or.inl ⟨h p, rfl⟩⟩

theorem Inv.agrees {c : Call β} (h : Inv size limit s₀ t s) (hc : s.call p = some c) :
    ∃ g, progress p t = some g ∧ Agrees size c g := by
  rcases h.call p with ⟨hn, -⟩ | ⟨c', g, hc', hg, ha⟩
  · rw [hc] at hn
    cases hn
  · obtain rfl : c = c' := Option.some.inj (hc.symm.trans hc')
    exact ⟨g, hg, ha⟩

theorem Agrees.chunk {c : Call β} {g : Progress β} (h : Agrees size c g) (hb : c.broke = false)
    (hlt : c.done < c.buf.length) : Agrees size { c with done := c.done + (c.piece size).length }
      { g with data := g.data ++ c.piece size } := by
  have hlen : (c.piece size).length = min size (c.buf.length - c.done) := c.length_piece
  have hnone : g.refused = none := by
    by_contra hne
    have := h.broke.mpr hne
    rw [hb] at this
    cases this
  refine ⟨h.buf, ?_, ?_, h.broke, fun hlt' => ?_, fun hbr => ?_, fun base n he => ?_⟩
  · rw [h.data, Call.piece, ← List.take_add, List.take_eq_take_iff]
    simp only [List.length_take, List.length_drop]
    omega
  · simp only
    omega
  · simp only at hlt'
    have : (c.piece size).length = size := by omega
    simp only [this]
    exact Nat.dvd_add (h.whole hlt) (Nat.dvd_refl size)
  · simp only at hbr
    rw [hb] at hbr
    cases hbr
  · simp only [hnone] at he
    cases he

def Event.proc : Event P β → P
  | .start p _ => p
  | .chunk p _ _ => p
  | .refused p _ _ => p
  | .ret p _ => p

theorem progress_of_ne {q : P} (h : e.proc ≠ q) : progress q (e :: t) = progress q t := by
  cases e <;> exact if_neg h

theorem Inv.setCall (h : Inv size limit s₀ t s) (hoff : s'.off = s₀.off + (written (e :: t)).length)
    (hfile : s'.file = overwrite s₀.file s₀.off (written (e :: t)))
    (htiles : Tiles s₀.off limit (e :: t)) (hcall : ∀ q, e.proc ≠ q → s'.call q = s.call q)
    (hp : (s'.call e.proc = none ∧ progress e.proc (e :: t) = none) ∨
      ∃ c g, s'.call e.proc = some c ∧ progress e.proc (e :: t) = some g ∧ Agrees size c g) :
    Inv size limit s₀ (e :: t) s' := by
  refine ⟨hoff, hfile, htiles, fun q => ?_⟩
  by_cases hq : e.proc = q
  · rw [← hq]
    exact hp
  · rw [hcall q hq, progress_of_ne hq]
    exact h.call q

theorem setCall_of_ne {c : Option (Call β)} {q : P} (h : p ≠ q) : (s.setCall p c).call q = s.call q :=
  update_of_ne (Ne.symm h) _ _

theorem setCall_self (c : Option (Call β)) : (s.setCall p c).call p = c := update_self _ _ _

theorem Inv.step (h : Inv size limit s₀ t s) (hoff : s₀.off ≤ s₀.file.length)
    (hs : Step size limit s (some e) s') : Inv size limit s₀ (e :: t) s' := by
  cases hs with
  | @start p buf hnone =>
    refine h.setCall h.off h.file h.tiles (fun q hq => setCall_of_ne hq) (Or.inr ⟨_, ⟨buf, [], none⟩,
      setCall_self _, if_pos rfl, ?_⟩)
    exact ⟨rfl, rfl, Nat.zero_le _, by simp, fun _ => Nat.dvd_zero size, nofun, nofun⟩
  | @chunk p c hc hb hlt hle =>
    obtain ⟨g, hg, ha⟩ := h.agrees hc
    refine h.setCall ?_ ?_ ⟨h.off, h.tiles⟩ (fun q hq => update_of_ne (Ne.symm hq) _ _)
      (Or.inr ⟨_, _, update_self _ _ _, ?_, ha.chunk hb hlt⟩)
    · rw [written, List.length_append, ← Nat.add_assoc, ← h.off]
      rfl
    · rw [written, ← overwrite_append hoff, ← h.file, ← h.off]
      rfl
    · rw [Event.proc, progress, if_pos rfl, hg, Option.map_some]
  | @refused p c hc hb hlt hbig =>
    obtain ⟨g, hg, ha⟩ := h.agrees hc
    refine h.setCall h.off h.file ⟨h.off, hbig, h.tiles⟩ (fun q hq => setCall_of_ne hq)
      (Or.inr ⟨_, { g with refused := some (s.off, (c.piece size).length) }, setCall_self _, ?_, ?_⟩)
    · rw [Event.proc, progress, if_pos rfl, hg, Option.map_some]
    · refine ⟨ha.buf, ha.data, ha.done, by simp, ha.whole, fun _ => hlt, fun base n he => ?_⟩
      obtain ⟨-, rfl⟩ : s.off = base ∧ (c.piece size).length = n := by simpa using he
      exact c.length_piece
  | @ret p c hc hend =>
    exact h.setCall h.off h.file h.tiles (fun q hq => setCall_of_ne hq)
      (Or.inl ⟨setCall_self _, if_pos rfl⟩)

theorem inv_of_run (hcall : ∀ p, s₀.call p = none) (hoff : s₀.off ≤ s₀.file.length)
    (hr : Run (Step size limit) s₀ t s) : Inv size limit s₀ t s := by
  refine Run.invariant (Inv.init hcall) ?_ ?_ hr
  · rintro t s s' - h hs
    cases hs
    exact h
  · exact fun t s s' e _ h hs => h.step hoff hs

theorem off_le_of_run (hoff : s₀.off ≤ limit) (hr : Run (Step size limit) s₀ t s) : s.off ≤ limit := by
  refine Run.invariant (I := fun _ s => s.off ≤ limit) hoff ?_ ?_ hr
  · rintro t s s' - h hs
    cases hs
    exact h
  · rintro t s s' e - h hs
    cases hs with
    | chunk _ _ _ hle => exact hle
    | start | refused | ret => exact h

theorem Tiles.refused {off base n : Nat} {g : Progress β} (h : Tiles off limit t)
    (hg : progress p t = some g) (hrf : g.refused = some (base, n)) : limit < base + n := by
  induction t generalizing g with
  | nil => cases hg
  | cons e t ih =>
    by_cases hp : e.proc = p
    · cases e with
      | start q buf =>
        rw [progress, if_pos (show q = p from hp)] at hg
        cases hg
        cases hrf
      | chunk q b d =>
        rw [progress, if_pos (show q = p from hp)] at hg
        obtain ⟨g', hg', rfl⟩ := Option.map_eq_some_iff.mp hg
        exact ih h.2 hg' hrf
      | refused q b m =>
        rw [progress, if_pos (show q = p from hp)] at hg
        obtain ⟨g', hg', rfl⟩ := Option.map_eq_some_iff.mp hg
        cases hrf
        exact h.2.1
      | ret q v =>
        rw [progress, if_pos (show q = p from hp)] at hg
        cases hg
    · rw [progress_of_ne hp] at hg
      cases e with
      | chunk => exact ih h.2 hg hrf
      | refused => exact ih h.2.2 hg hrf
      | start | ret => exact ih h hg hrf

/-- A call that returns has written all of its buffer, or it was refused a piece that would have passed
the limit, and has written the whole pieces before it. -/
theorem returned {v : Int} (hcall : ∀ p, s₀.call p = none)
    (hoff : s₀.off ≤ s₀.file.length) (hr : Run (Step size limit) s₀ (t₂ ++ .ret p v :: t₁) s) :
    ∃ g, progress p t₁ = some g ∧
      (v = g.buf.length ∧ g.data = g.buf ∨
        v = -1 ∧ g.data <+: g.buf ∧ size ∣ g.data.length ∧ ∃ base n, g.refused = some (base, n) ∧
          n = min size (g.buf.length - g.data.length) ∧ limit < base + n) := by
  obtain ⟨s₁, s₂, hr₁, hs⟩ := hr.exists_step
  have h := inv_of_run hcall hoff hr₁
  generalize he : Event.ret p v = e at hs
  cases hs with
  | start => cases he
  | chunk => cases he
  | refused => cases he
  | @ret q c hc hend =>
    cases he
    obtain ⟨g, hg, ha⟩ := h.agrees hc
    have hlen : g.data.length = c.done := by
      rw [ha.data, List.length_take, Nat.min_eq_left ha.done]
    refine ⟨g, hg, ?_⟩
    unfold Call.result
    split
    · rename_i hall
      refine Or.inl ⟨by rw [ha.buf], ?_⟩
      rw [ha.data, hall, List.take_length, ha.buf]
    · rename_i hshort
      have hlt : c.done < c.buf.length := Nat.lt_of_le_of_ne ha.done hshort
      have hbroke : c.broke = true := hend.resolve_right (not_not.mpr hlt)
      obtain ⟨⟨base, n⟩, hrf⟩ := Option.ne_none_iff_exists'.mp (ha.broke.mp hbroke)
      refine Or.inr ⟨rfl, ?_, by rw [hlen]; exact ha.whole hlt, base, n, hrf, ?_,
        h.tiles.refused hg hrf⟩
      · rw [ha.data, ← ha.buf]
        exact List.take_prefix _ _
      · rw [hlen, ← ha.buf]
        exact ha.refused base n hrf

theorem chunk_in_file {base : Nat} {data : List β}
    (hcall : ∀ p, s₀.call p = none) (hoff : s₀.off ≤ s₀.file.length)
    (hr : Run (Step size limit) s₀ (t₂ ++ .chunk p base data :: t₁) s) :
    base = s₀.off + (written t₁).length ∧ (s.file.drop base).take data.length = data := by
  have h := inv_of_run hcall hoff hr
  have hw : ∃ rest, written (t₂ ++ .chunk p base data :: t₁) = written t₁ ++ data ++ rest := by
    clear hr h
    induction t₂ with
    | nil => exact ⟨[], by rw [List.append_nil]; rfl⟩
    | cons e t₂ ih =>
      obtain ⟨rest, hrest⟩ := ih
      cases e with
      | chunk q b d =>
        refine ⟨rest ++ d, ?_⟩
        rw [List.cons_append, written, hrest, List.append_assoc]
      | start | refused | ret => exact ⟨rest, hrest⟩
  have ht : ∀ t₂ : List (Event P β), Tiles s₀.off limit (t₂ ++ .chunk p base data :: t₁) →
      base = s₀.off + (written t₁).length := by
    intro t₂
    induction t₂ with
    | nil => exact fun ht => ht.1
    | cons e t₂ ih =>
      cases e with
      | chunk => exact fun ht => ih ht.2
      | refused => exact fun ht => ih ht.2.2
      | start | ret => exact ih
  have hbase := ht t₂ h.tiles
  obtain ⟨rest, hrest⟩ := hw
  refine ⟨hbase, ?_⟩
  rw [h.file, hrest, hbase, take_drop_overwrite hoff]

/-! ## One call after another -/

/-- A step that starts a call only when no other is in progress. -/
def SeqStep (size limit : Nat) (s : State P β) (e : Option (Event P β)) (s' : State P β) : Prop :=
  Step size limit s e s' ∧ ∀ p buf, e = some (.start p buf) → ∀ q, s.call q = none

/-- The calls before this one have written their buffers, and this one what it has done. -/
def SeqInv (t : List (Event P β)) (s : State P β) : Prop :=
  Accepted t → ((∀ q, s.call q = none) ∧ written t = (buffers t).flatten) ∨
    ∃ p c before, s.call p = some c ∧ (∀ q, q ≠ p → s.call q = none) ∧ c.broke = false ∧
      buffers t = before ++ [c.buf] ∧ written t = before.flatten ++ c.buf.take c.done

theorem take_piece (c : Call β) :
    c.buf.take c.done ++ c.piece size = c.buf.take (c.done + (c.piece size).length) := by
  rw [Call.piece, ← List.take_add, List.take_eq_take_iff]
  simp only [List.length_take, List.length_drop]
  omega

theorem SeqInv.step (h : SeqInv t s) (hs : SeqStep size limit s (some e) s') :
    SeqInv (e :: t) s' := by
  intro hacc
  obtain ⟨hs, hseq⟩ := hs
  cases hs with
  | @start p buf hnone =>
    have hall := hseq p buf rfl
    refine Or.inr ⟨p, _, buffers t, setCall_self _, fun q hq => ?_, rfl, rfl, ?_⟩
    · rw [setCall_of_ne (Ne.symm hq)]
      exact hall q
    · rcases h hacc with ⟨-, hw⟩ | ⟨q, c, -, hc, -⟩
      · rw [written, hw, List.take_zero, List.append_nil]
      · rw [hall q] at hc
        cases hc
  | @chunk p c hc hb hlt hle =>
    rcases h hacc with ⟨hall, -⟩ | ⟨q, c', before, hc', hother, -, hbuf, hw⟩
    · rw [hall p] at hc
      cases hc
    · have hpq : p = q := by
        by_contra hne
        rw [hother p hne] at hc
        cases hc
      subst hpq
      obtain rfl : c = c' := Option.some.inj (hc.symm.trans hc')
      refine Or.inr ⟨p, _, before, update_self _ _ _, fun q hq => ?_, hb, hbuf, ?_⟩
      · exact (update_of_ne hq _ _).trans (hother q hq)
      · rw [written, hw, List.append_assoc, take_piece]
  | refused => exact hacc.elim
  | @ret p c hc hend =>
    rcases h hacc with ⟨hall, -⟩ | ⟨q, c', before, hc', hother, hb', hbuf, hw⟩
    · rw [hall p] at hc
      cases hc
    · have hpq : p = q := by
        by_contra hne
        rw [hother p hne] at hc
        cases hc
      subst hpq
      obtain rfl : c = c' := Option.some.inj (hc.symm.trans hc')
      have hdone : c.buf.length ≤ c.done := by
        rcases hend with hbr | hge
        · rw [hb'] at hbr
          cases hbr
        · omega
      refine Or.inl ⟨fun q => ?_, ?_⟩
      · by_cases hq : p = q
        · rw [← hq, setCall_self]
        · rw [setCall_of_ne hq]
          exact hother q (Ne.symm hq)
      · rw [written, buffers, hw, hbuf, List.take_of_length_le hdone, List.flatten_append,
          List.flatten_singleton]

/-- Calls that run one after another and are never refused write what whole writes would. -/
theorem sequential (hcall : ∀ p, s₀.call p = none) (hoff : s₀.off ≤ s₀.file.length)
    (hr : Run (SeqStep size limit) s₀ t s) (hacc : Accepted t) (hend : ∀ p, s.call p = none) :
    (s.file, s.off) = (buffers t).foldl writeWhole (s₀.file, s₀.off) := by
  have hinv := inv_of_run hcall hoff (hr.mono fun _ _ _ hs => hs.1)
  have hseq : SeqInv t s := by
    refine Run.invariant (I := SeqInv) (fun _ => Or.inl ⟨hcall, rfl⟩) ?_ ?_ hr
    · rintro t s s' - h ⟨hs, -⟩
      cases hs
      exact h
    · exact fun t s s' e _ h hs => h.step hs
  rcases hseq hacc with ⟨-, hw⟩ | ⟨p, c, -, hc, -⟩
  · rw [foldl_writeWhole hoff, ← hw, hinv.file, hinv.off]
  · rw [hend p] at hc
    cases hc

end Runs

end Xv6.Foundation.SharedCursor
