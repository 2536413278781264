import Xv6.Foundation.Outline
import Xv6.Pipes.Channels
import Xv6.Pipes.Contents

/-!
# The outline of a channel

What the holder of `pi->lock` knows at each point, what is true while the lock is free, and at which
points the holder owes a `wakeup`. It holds in every run of the monitor of the channel, so it is true
of the pipe.
-/

namespace Xv6.Pipes

open Xv6.Foundation Function

set_option autoImplicit false

variable {n : Nat}

/-- Process `p` has put bytes since it last woke the readers. -/
def unannounced (p : Fin n) : List (Event n) → Bool
  | [] => false
  | .put q _ :: t => decide (q = p) || unannounced p t
  | .woke q .nread :: t => decide (q ≠ p) && unannounced p t
  | _ :: t => unannounced p t

/-- No `pipewrite` has returned `-1` with bytes that it had not announced to the readers. -/
def QuitsAnnounced : List (Event n) → Prop
  | [] => True
  | .returned p (.wrote r) :: t => (r = -1 → unannounced p t = false) ∧ QuitsAnnounced t
  | _ :: t => QuitsAnnounced t

/-- What a process that sleeps on the channel waits for has not happened. -/
def Pipe.Blocks (pi : Pipe) : Chan → Prop
  | .nread => pi.Empty ∧ pi.writeopen
  | .nwrite => pi.Full ∧ pi.readopen

/-- Process `p`, which holds the lock, is going to call `wakeup(chan)`, or leaves `pipewrite`
without. -/
def PC.Owes (t : List (Event n)) (p : Fin n) (chan : Chan) : PC n → Prop
  | .waking c todo _ => c = chan ∧ todo ≠ []
  | .loop (.write _ _ _) => chan = .nread ∧ unannounced p t
  | .release (.wrote r) => r = -1 ∧ chan = .nread ∧ unannounced p t
  | .copy _ _ _ => chan = .nwrite
  | _ => False

/-- What a process that holds `pi->lock` at `pc` knows about the pipe. -/
def PC.Knows (pi : Pipe) : PC n → Prop
  | .copy _ _ i => i = 0 → pi.Empty → pi.writeopen = false
  | .waking _ _ (.release (.read m dst r)) | .release (.read m dst r) =>
    r = 0 → 0 < m → dst 0 → pi.Empty ∧ pi.writeopen = false
  | .waking _ _ (.sleep _) => pi.Blocks .nwrite
  | .sleep chan .entering _ => pi.Blocks chan
  | _ => True

def PC.Entry : PC n → Prop
  | .enter _ | .loop _ => True
  | _ => False

/-- What is true when process `p` holds the lock and is at `pc`. -/
structure Inside (p : Fin n) (pc : PC n) (d : Record n) : Prop where
  pipe : pc.Knows d.1
  tracks : Tracks d.1 d.2
  took : pc.Took (removed p d.2)
  taken : Balanced (removed p d.2) d.2

def outline (n : Nat) (chan : Chan) : Monitor.Outline (Fin n) (Record n) (PC n) where
  free d := Tracks d.1 d.2 ∧ Balanced [] d.2
  out p o d := removed p d.2 = [] ∧ ∀ k ∈ o, k.Entry
  inside := Inside
  blocked d := QuitsAnnounced d.2 → d.1.Blocks chan
  owes p pc d := pc.Owes d.2 p chan

variable {d : Record n} {x : Bool} {p : Fin n} {c : Chan} {pc : PC n}

theorem Inside.after {l : List (Fin n)} {k : After} (h : Inside p (.waking c l k) d) :
    (∀ l', Inside p (.waking c l' k) d) ∧ Inside p k.pc d := by
  cases k with
  | sleep => exact ⟨fun _ => { h with }, { h with }⟩
  | release r => cases r <;> exact ⟨fun _ => { h with }, { h with }⟩

/-! ## The steps under the lock -/

theorem spares_refl : (outline n c).Spares p d d := fun _ _ _ => id

theorem spares_cons {e : Event n} {pi : Pipe} (he : e.proc = p) :
    (outline n c).Spares p d (pi, e :: d.2) := by
  rintro q o hq ⟨hr, ho⟩
  exact ⟨(removed_of_ne (by rwa [he])).trans hr, ho⟩

theorem post_begin {k : Call} (h : Inside p (.enter k) d) :
    (outline n c).Post (List.finRange n) p (.enter k) d ((begin d.1 k : Turn n).next d.2) := by
  cases k with
  | write m src | read m dst =>
    exact ⟨{ h with pipe := trivial }, spares_refl, fun ho => Or.inl (ho.resolve_right id)⟩
  | close writable =>
    refine ⟨{ h with pipe := trivial }, spares_refl, fun ho => ?_⟩
    have hb := ho.resolve_right id
    have hne := finRange_ne_nil p
    cases c <;> cases writable <;>
      simp_all [begin, outline, PC.Owes, Pipe.Blocks, Pipe.Empty, Pipe.Full]

theorem post_stepLoop {k : Loop} (h : Inside p (.loop k) d) :
    (outline n c).Post (List.finRange n) p (.loop k) d ((stepLoop p x d.1 k).next d.2) := by
  have hne := finRange_ne_nil p
  cases k with
  | write m src i =>
    rw [stepLoop]
    split_ifs with hi hquit hfull
    · exact ⟨{ h with pipe := trivial }, spares_refl, Or.imp id fun ho => ⟨rfl, ho⟩⟩
    · refine ⟨{ h with pipe := ⟨hfull, ?_⟩ }, spares_refl, Or.imp id fun ho => ⟨ho.1.symm, hne⟩⟩
      simpa using fun h => hquit (Or.inl h)
    · cases src i with
      | none => exact ⟨{ h with pipe := trivial }, spares_refl, Or.imp id fun ho => ⟨ho.1.symm, hne⟩⟩
      | some ch =>
        refine ⟨⟨trivial, Ring.Tracks.push h.tracks sized hfull ch, h.took, h.taken⟩,
          spares_cons rfl, fun ho => ?_⟩
        cases c with
        | nread => exact Or.inr ⟨rfl, by simp [unannounced]⟩
        | nwrite =>
          refine Or.inl fun hq => absurd ?_ hfull
          exact (ho.resolve_right (by simp [outline, PC.Owes]) hq).1
    · exact ⟨{ h with pipe := trivial }, spares_refl, Or.imp id fun ho => ⟨ho.1.symm, hne⟩⟩
  | read m dst =>
    have hnone : removed p d.2 = [] := h.took
    have hquit : Settled dst (-1) (removed p d.2) := hnone ▸ .killed
    have hcopy : (PC.copy m dst 0 : PC n).Took (removed p d.2) := by
      rw [hnone]
      exact ⟨rfl, fun j hj => absurd hj (Nat.not_lt_zero j)⟩
    rw [stepLoop]
    split_ifs with hwait hkilled
    · exact ⟨{ h with pipe := fun hr => by omega, took := hquit }, spares_refl,
        fun ho => Or.inl (ho.resolve_right id)⟩
    · exact ⟨{ h with pipe := hwait }, spares_refl, fun ho => Or.inl (ho.resolve_right id)⟩
    · refine ⟨{ h with pipe := fun _ he => ?_, took := hcopy }, spares_refl,
        fun ho => Or.inl (ho.resolve_right id)⟩
      simpa using fun hw => hwait ⟨he, hw⟩

/-- The byte is taken before the copy is tried. -/
theorem post_stepCopy {m : Int} {dst : Nat → Bool} {i : Nat} (h : Inside p (.copy m dst i) d) :
    (outline n c).Post (List.finRange n) p (.copy m dst i) d
      ((stepCopy p d.1 m dst i).next d.2) := by
  have hne := finRange_ne_nil p
  have hpop := fun he => Ring.Tracks.pop h.tracks sized he
  have hremoved := removed_took_self (p := p) (t := d.2) d.1.front
  obtain ⟨rfl, hall⟩ := h.took
  rw [stepCopy]
  split_ifs with hi hd
  · have hmore : (PC.copy m dst ((removed p d.2).length + 1) : PC n).Took
        (removed p (.took p d.1.front :: d.2)) := by
      rw [hremoved]
      refine ⟨List.length_append, fun j hj => ?_⟩
      rcases Nat.lt_succ_iff_lt_or_eq.mp hj with hlt | rfl
      · exact hall j hlt
      · exact hd
    refine ⟨⟨fun h0 => by omega, hpop hi.2, hmore, h.taken.took _⟩, spares_cons rfl, fun ho => ?_⟩
    cases c with
    | nread => exact Or.inl fun hq => absurd (ho.resolve_right (by simp [outline, PC.Owes]) hq).1 hi.2
    | nwrite => exact Or.inr rfl
  · have hfault : Settled dst (removed p d.2).length (removed p (.took p d.1.front :: d.2)) := by
      rw [hremoved]
      exact .failed hall (by simpa using hd)
    refine ⟨⟨fun h0 _ hd0 => ?_, hpop hi.2, hfault, h.taken.took _⟩, spares_cons rfl, fun ho => ?_⟩
    · rw [show (removed p d.2).length = 0 by omega] at hd
      exact absurd hd0 hd
    · cases c with
      | nread => exact Or.inl fun hq => absurd (ho.resolve_right (by simp [outline, PC.Owes]) hq).1 hi.2
      | nwrite => exact Or.inr ⟨rfl, hne⟩
  · have hend : Settled dst (removed p d.2).length (removed p d.2) := .copied hall
    refine ⟨{ h with pipe := fun h0 hm _ => ?_, took := hend }, spares_refl,
      Or.imp id fun ho => ⟨ho.symm, hne⟩⟩
    have he : d.1.Empty := by
      by_contra he
      exact hi ⟨by omega, he⟩
    exact ⟨he, h.pipe (by omega) he⟩

theorem post_next {k : PC n} (h : Inside p k d) :
    (outline n c).Post (List.finRange n) p k d (next c p x d k) := by
  have stay (ho : (outline n c).blocked d ∨ False) : (outline n c).blocked d := ho.resolve_right id
  have hfree (hr : removed p d.2 = []) : (outline n c).free d := ⟨h.tracks, by rw [← hr]; exact h.taken⟩
  have hback (hr : removed p d.2 = []) (k : Loop) : (outline n c).out p (some (.loop k)) d := by
    refine ⟨hr, ?_⟩
    rintro _ ⟨⟩
    trivial
  cases k with
  | idle => exact ⟨hfree h.took, ⟨h.took, by simp⟩, spares_refl, stay⟩
  | enter k => exact post_begin h
  | loop k => exact post_stepLoop h
  | copy m dst i => exact post_stepCopy h
  | waking b todo k =>
    cases todo with
    | nil =>
      exact ⟨{ h.after.2 with }, spares_cons rfl,
        fun ho => Or.inl (ho.resolve_right fun ho => ho.2 rfl)⟩
    | cons q todo =>
      rw [next]
      split_ifs with hb
      · exact ⟨h.after.1 [], spares_refl⟩
      · exact ⟨h.after.1 todo, spares_refl, fun ho => Or.inl (ho.resolve_right fun ho => hb ho.1)⟩
  | sleep b stage k =>
    cases stage with
    | entering =>
      rw [next]
      split_ifs with hb
      · subst hb
        exact ⟨List.mem_finRange p, hfree h.took, fun _ => h.pipe, hback h.took k⟩
      · exact ⟨{ h with pipe := trivial }, spares_refl, fun ho => Or.inl (stay ho)⟩
    | _ => exact ⟨hfree h.took, hback h.took k, spares_refl, stay⟩
  | release r =>
    refine ⟨⟨h.tracks, h.taken.returned h.took⟩, ⟨removed_returned_self r, by simp⟩, spares_cons rfl,
      fun ho => ?_⟩
    cases r with
    | wrote r =>
      rintro ⟨hr, hq⟩
      rcases ho with ho | ⟨hr', -, hu⟩
      · exact ho hq
      · rw [hr hr'] at hu
        cases hu
    | read | closed => exact stay ho

theorem outline_valid (n : Nat) (c : Chan) : (outline n c).Valid (monitor n c) where
  call := by
    rintro p o k d ⟨hr, -⟩ he
    refine ⟨hr, ?_⟩
    rintro _ ⟨⟩
    cases o <;> cases k <;> trivial
  outer := by
    intro p x d d' _ ho
    cases ho
  enter := by
    rintro p k d ⟨ht, hb⟩ ⟨hr, ho⟩
    have hk := ho k rfl
    cases k with
    | enter | loop => exact ⟨trivial, ht, hr, by rw [hr]; exact hb⟩
    | _ => cases hk
  next := fun _ _ _ _ hk => post_next hk

variable {s : State n} {t : List (Event n)} {data : Nat → UInt8}

theorem Reaches.outlined (h : Reaches data t s) (c : Chan) :
    Monitor.Outlined (outline n c) (Pipes.monitor n c) (Pipes.view c t s) :=
  Monitor.Reaches.outlined (d := ((boot n data).pipe, [])) (outline_valid n c)
    ⟨Ring.Tracks.nil data, fun _ => rfl⟩ (fun _ => ⟨rfl, by simp⟩) (h.monitor c)

end Xv6.Pipes
