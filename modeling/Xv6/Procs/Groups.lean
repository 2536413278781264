import Xv6.Procs.Discipline

/-!
# The parts of the invariant under an update

One slot of the table or the ghost value of one process changes. A part of the invariant that does not
speak of what changes is kept as it is; the lemmas here are for those that do.
-/

namespace Xv6.Procs

open Xv6.Foundation Function

set_option autoImplicit false

variable {n : Nat} {ini p q : Fin n} {t : ProcState} {lk : Lock n}
variable {holder : Lock n → Option (Fin n)} {locks : Fin n → Finset (Lock n)} {L : Finset (Lock n)}
variable {state : Fin n → ProcState} {parent : Fin n → Option (Fin n)} {pid xstate : Fin n → Int}
variable {killed loop testing probe doomed nap : Fin n → Bool} {chan : Fin n → Option (Chan n)}
variable {me : Fin n → Me} {child : Fin n → Option (Fin n × Bool)} {facts : Fin n → Facts n}
variable {log : List (Event n)} {g : Prop}

@[simp] theorem active_running : ProcState.running.Active := Or.inl rfl
@[simp] theorem active_runnable : ProcState.runnable.Active := Or.inr (Or.inl rfl)
@[simp] theorem active_sleeping : ProcState.sleeping.Active := Or.inr (Or.inr rfl)
@[simp] theorem not_active_unused : ¬ ProcState.unused.Active := by simp [ProcState.Active]
@[simp] theorem not_active_used : ¬ ProcState.used.Active := by simp [ProcState.Active]
@[simp] theorem not_active_zombie : ¬ ProcState.zombie.Active := by simp [ProcState.Active]

namespace Locks

theorem alone (h : Locks holder locks) (hp : lk ∈ locks p) (hq : lk ∈ locks q) : p = q :=
  Option.some.inj (((h.iff lk p).mpr hp).symm.trans ((h.iff lk q).mpr hq))

theorem not_mem (h : Locks holder locks) (hfree : holder lk = none) : lk ∉ locks p := by
  intro hmem
  rw [(h.iff lk p).mpr hmem] at hfree
  cases hfree

theorem acquire (h : Locks holder locks) (hfree : holder lk = none) :
    Locks (update holder lk (some p))
      (update locks p (insert lk (locks p))) := by
  refine ⟨fun l r => ?_⟩
  by_cases hl : l = lk
  · subst hl
    by_cases hr : r = p
    · simp [hr]
    · simp [hr, Ne.symm hr, h.not_mem hfree]
  · by_cases hr : r = p
    · simp [hl, hr, h.iff]
    · simp [hl, hr, h.iff]

theorem release (h : Locks holder locks) (hheld : holder lk = some p) :
    Locks (update holder lk none) (update locks p ((locks p).erase lk)) := by
  refine ⟨fun l r => ?_⟩
  by_cases hl : l = lk
  · subst hl
    by_cases hr : r = p
    · simp [hr]
    · have : l ∉ locks r := fun hmem => hr (h.alone hmem ((h.iff l p).mp hheld))
      simp [hr, this]
  · by_cases hr : r = p
    · simp [hl, hr, h.iff]
    · simp [hl, hr, h.iff]

end Locks

namespace Own

variable (h : Own state locks me child)
include h

theorem setLocks (hp : me p = .gone → .proc p ∈ L) :
    Own state (update locks p L) me child := by
  refine ⟨fun r => ?_, h.fresh, h.sole⟩
  by_cases hr : r = p
  · subst hr
    have := h.stage r
    cases hm : me r with
    | gone =>
      rw [hm] at this
      simpa [Stage] using ⟨this.1, hp hm⟩
    | _ => simpa [hm, Stage] using this
  · simpa [hr] using h.stage r

theorem not_fresh (hq : state q ≠ .used) (b : Bool) : child p ≠ some (q, b) :=
  fun hc => hq (h.fresh p q b hc).2

theorem running (hp : me p = .running) : state p = .running := by
  have := h.stage p
  rwa [hp] at this

theorem gone (hp : me p = .gone) : .proc p ∈ locks p := by
  have := h.stage p
  rw [hp] at this
  exact this.2

theorem not_running (hp : state p ≠ .running) : me p ≠ .running :=
  fun hm => hp (h.running hm)

theorem running_ne (hp : me p = .running) (hq : state q ≠ .running) : p ≠ q := by
  rintro rfl
  exact hq (h.running hp)

theorem stage_of_vacant (hq : state q = .unused ∨ state q = .used)
    (ht : t ≠ .sleeping) : Stage (locks q) q t (me q) := by
  have := h.stage q
  cases hm : me q with
  | idle => exact ht
  | _ => rcases hq with hq | hq <;> simp [hm, Stage, hq] at this

theorem forgotten {b : Bool} (hc : child p = some (q, b)) (e : Fin n)
    (b' : Bool) : update child p none e ≠ some (q, b') := by
  intro he
  by_cases hep : e = p
  · simp [hep] at he
  · exact hep (h.sole e p q b' b (by simpa [hep] using he) hc)

theorem set {m : Me} {c : Option (Fin n × Bool)}
    (hp : Stage (locks p) p (update state q t p) m)
    (hq : q ≠ p → Stage (locks q) q t (me q))
    (hc : ∀ r b, c = some (r, b) → m = .running ∧ update state q t r = .used)
    (hfree : ∀ e b, e ≠ p → child e ≠ some (q, b))
    (hsole : ∀ r b, c = some (r, b) → r = q ∨ child p = c) :
    Own (update state q t) locks (update me p m) (update child p c) := by
  refine ⟨fun r => ?_, fun e r b he => ?_, fun e e' r b b' he he' => ?_⟩
  · by_cases hr : r = p
    · subst hr
      simpa using hp
    · by_cases hrq : r = q
      · subst hrq
        simpa [hr] using hq hr
      · simpa [hr, hrq] using h.stage r
  · by_cases hep : e = p
    · subst hep
      simpa using hc r b (by simpa using he)
    · rw [update_of_ne hep] at he ⊢
      have hrq : r ≠ q := fun hrq => hfree e b hep (hrq ▸ he)
      rw [update_of_ne hrq]
      exact h.fresh e r b he
  · -- two processes that fill the same slot are one
    have key : ∀ d d' b b', d = p → d' ≠ p → c = some (r, b) → child d' = some (r, b') → False := by
      intro d d' b b' _ hd' hcr hd'r
      rcases hsole r b hcr with hrq | hsame
      · exact hfree d' b' hd' (hrq ▸ hd'r)
      · exact hd' (h.sole d' p r b' b hd'r (hsame ▸ hcr))
    by_cases hep : e = p
    · by_cases hep' : e' = p
      · rw [hep, hep']
      · rw [hep, update_self] at he
        rw [update_of_ne hep'] at he'
        exact (key e e' b b' hep hep' he he').elim
    · rw [update_of_ne hep] at he
      by_cases hep' : e' = p
      · rw [hep', update_self] at he'
        exact (key e' e b' b hep' hep he' he).elim
      · rw [update_of_ne hep'] at he'
        exact h.sole e e' r b b' he he'

theorem setSelf {m : Me} (hp : state p ≠ .used)
    (hc : child p = none) (hst : Stage (locks p) p t m) :
    Own (update state p t) locks (update me p m) child := by
  have := h.set (p := p) (q := p) (c := none) (t := t) (m := m) (by simpa using hst) (fun hne => (hne rfl).elim)
    (by simp) (fun e b _ => h.not_fresh hp b) (by simp)
  rwa [← hc, update_eq_self] at this

theorem wake (hq : state q = .sleeping) :
    Own (update state q .runnable) locks me child := by
  have hstage := h.stage q
  refine ⟨fun r => ?_, fun e r b he => ?_, h.sole⟩
  · by_cases hr : r = q
    · subst hr
      cases hm : me r with
      | parked => simp [Stage]
      | _ => simp [hm, Stage, hq] at hstage
    · simpa [hr] using h.stage r
  · have hrq : r ≠ q := by
      rintro rfl
      exact h.not_fresh (by simp [hq]) b he
    simpa [hrq] using h.fresh e r b he

end Own

namespace Kin

variable {o : Option (Fin n)}

variable (h : Kin ini state parent child)
include h

theorem set (hu : t = .unused → o = none)
    (hl : t.Live → q ≠ ini → o ≠ none) (ho : ∀ r, o = some r → (update state q t r).Active)
    (hna : ¬ t.Active → q ≠ ini ∧ ∀ r, r ≠ q → parent r ≠ some q)
    (hc : ∀ e b, child e = some (q, b) → o = if b then some e else none) :
    Kin ini (update state q t) (update parent q o) child := by
  have hactive : ∀ r, (state r).Active → (r = q → t.Active) →
      (update state q t r).Active := by
    intro r hr hrq
    by_cases h' : r = q
    · subst h'
      simpa using hrq rfl
    · simpa [h'] using hr
  refine ⟨fun r hr => ?_, fun r hr hne => ?_, fun r e he => ?_, ?_, fun e r b he => ?_⟩
  · by_cases h' : r = q
    · subst h'
      simpa using hu (by simpa using hr)
    · simpa [h'] using h.unused r (by simpa [h'] using hr)
  · by_cases h' : r = q
    · subst h'
      simpa using hl (by simpa using hr) hne
    · simpa [h'] using h.live r (by simpa [h'] using hr) hne
  · by_cases h' : r = q
    · subst h'
      exact ho e (by simpa using he)
    · rw [update_of_ne h'] at he
      apply hactive e (h.active r e he)
      rintro rfl
      by_contra hst
      exact (hna hst).2 r h' he
  · apply hactive ini h.init
    rintro rfl
    by_contra hst
    exact (hna hst).1 rfl
  · by_cases h' : r = q
    · subst h'
      simpa using hc e b he
    · simpa [h'] using h.fresh e r b he

theorem setState (hu : t ≠ .unused) (hl : t.Live → q ≠ ini → parent q ≠ none)
    (hna : ¬ t.Active → q ≠ ini ∧ ∀ r, parent r ≠ some q) :
    Kin ini (update state q t) parent child := by
  have := h.set (q := q) (t := t) (o := parent q) (fun hst => (hu hst).elim) hl ?_
    (fun hst => ⟨(hna hst).1, fun r _ => (hna hst).2 r⟩) (fun e b => h.fresh e q b)
  · rwa [update_eq_self] at this
  · intro r hr
    by_cases h' : r = q
    · subst h'
      by_contra hst
      simp only [update_self] at hst
      exact (hna hst).2 r hr
    · simpa [h'] using h.active q r hr

theorem setActive (hq : (state q).Active) (hst : t.Active) :
    Kin ini (update state q t) parent child := by
  apply h.setState
  · rintro rfl
    simp at hst
  · exact fun _ => h.live q (Or.inl hq)
  · exact fun hna => absurd hst hna

theorem setParent (hu : state q = .unused → o = none) (hl : (state q).Live → q ≠ ini → o ≠ none)
    (ho : ∀ r, o = some r → (state r).Active)
    (hc : ∀ e b, child e = some (q, b) → o = if b then some e else none) :
    Kin ini state (update parent q o) child := by
  have hna : ¬ (state q).Active → q ≠ ini ∧ ∀ r, r ≠ q → parent r ≠ some q :=
    fun hq => ⟨fun hqi => hq (hqi ▸ h.init), fun r _ hr => hq (h.active r q hr)⟩
  have := h.set (q := q) (t := state q) (o := o) hu hl (by simpa using ho) hna hc
  rwa [update_eq_self] at this

theorem setChild {c : Option (Fin n × Bool)}
    (hc : ∀ r b, c = some (r, b) → parent r = if b then some p else none) :
    Kin ini state parent (update child p c) := by
  refine ⟨h.unused, h.live, h.active, h.init, fun e r b he => ?_⟩
  by_cases hep : e = p
  · subst hep
    exact hc r b (by simpa using he)
  · exact h.fresh e r b (by simpa [hep] using he)

theorem childless (hq : ¬ (state q).Active) (r : Fin n) : parent r ≠ some q :=
  fun hr => hq (h.active r q hr)

theorem ne_init (hq : ¬ (state q).Active) : q ≠ ini := by
  rintro rfl
  exact hq h.init

end Kin

theorem Facts.good_none (state : Fin n → ProcState) (parent : Fin n → Option (Fin n))
    (pid xstate : Fin n → Int) (L : Finset (Lock n)) (p : Fin n) :
    (Facts.none : Facts n).Good state parent pid xstate L p := by
  constructor <;> simp [Facts.none]

namespace Watch

variable (h : Watch state parent pid xstate locks facts)
include h

theorem setLocks
    (hnone : .wait ∉ L → facts p = .none) (hprey : ∀ x ∈ (facts p).prey, .proc x.slot ∈ L) :
    Watch state parent pid xstate (update locks p L) facts := by
  refine ⟨fun r hr => ?_, fun r => ?_⟩
  · by_cases h' : r = p
    · subst h'
      exact hnone (by simpa using hr)
    · exact h.none r (by simpa [h'] using hr)
  · by_cases h' : r = p
    · subst h'
      have hgood := h.good r
      rw [update_self]
      exact { hgood with prey := fun x hx => ⟨hprey x hx, (hgood.prey x hx).2⟩ }
    · simpa [h'] using h.good r

theorem setFacts {f : Facts n}
    (hnone : .wait ∉ locks p → f = .none) (hgood : f.Good state parent pid xstate (locks p) p) :
    Watch state parent pid xstate locks (update facts p f) := by
  refine ⟨fun r hr => ?_, fun r => ?_⟩
  · by_cases h' : r = p
    · subst h'
      simpa using hnone hr
    · simpa [h'] using h.none r hr
  · by_cases h' : r = p
    · subst h'
      simpa using hgood
    · simpa [h'] using h.good r

theorem others (hlocks : Locks holder locks)
    (hwait : .wait ∈ locks p) {e : Fin n} (he : e ≠ p) : facts e = .none :=
  h.none e fun hmem => he (hlocks.alone hmem hwait)

theorem renew {f : Facts n} {state' : Fin n → ProcState} {parent' : Fin n → Option (Fin n)}
    {pid' xstate' : Fin n → Int} (hlocks : Locks holder locks) (hwait : .wait ∈ locks p)
    (hgood : f.Good state' parent' pid' xstate' (locks p) p) :
    Watch state' parent' pid' xstate' locks (update facts p f) := by
  refine ⟨fun r hr => ?_, fun r => ?_⟩
  · have h' : r ≠ p := by
      rintro rfl
      exact hr hwait
    simpa [h'] using h.none r hr
  · by_cases h' : r = p
    · subst h'
      simpa using hgood
    · rw [update_of_ne h', h.others hlocks hwait h']
      exact Facts.good_none ..

theorem setState {i x : Int} (hq : state q ≠ .zombie) (hst : t ≠ .zombie) :
    Watch (update state q t) parent (update pid q i)
      (update xstate q x) locks facts := by
  refine ⟨h.none, fun r => ?_⟩
  have hgood := h.good r
  refine { hgood with seen := fun s hs hpar => ?_, prey := fun y hy => ?_ }
  · by_cases h' : s = q
    · subst h'
      simpa using hst
    · simpa [h'] using hgood.seen s hs hpar
  · have h' : y.slot ≠ q := by
      intro heq
      exact hq (heq ▸ (hgood.prey y hy).2.1)
    simpa [h'] using hgood.prey y hy

end Watch

namespace Naps

variable (h : Naps ini state chan parent locks nap facts)
include h

theorem not_napping (hq : ¬ (state q).Active) : nap q = false := by
  by_contra hn
  exact hq (h.active q (by simpa using hn))

theorem setLocks (hp : nap p = true → state p = .running → .proc p ∈ L) :
    Naps ini state chan parent (update locks p L) nap facts := by
  refine { h with drowsy := fun r hn hr => ?_ }
  by_cases h' : r = p
  · subst h'
    simpa using hp hn hr
  · simpa [h'] using h.drowsy r hn hr

/-- What a process knows changes. It may forget that it gives its children to `init` only if it has
woken `init`. -/
theorem setFacts {f : Facts n} (hawake : ∀ r ∈ f.awake, nap r = true → state r = .runnable)
    (hleave : (facts p).leaving = true → f.leaving = true ∨ ini ∈ (facts p).awake) :
    Naps ini state chan parent locks nap (update facts p f) := by
  refine { h with quiet := fun r q hn hr hpar hz => ?_, awake := fun e r he hn => ?_ }
  · obtain ⟨rfl, e, hleaving, hnot⟩ := h.quiet r q hn hr hpar hz
    refine ⟨rfl, e, ?_⟩
    by_cases h' : e = p
    · subst h'
      rw [update_self]
      refine ⟨(hleave hleaving).resolve_right hnot, fun hmem => hr (hawake r hmem hn)⟩
    · simpa [h'] using ⟨hleaving, hnot⟩
  · by_cases h' : e = p
    · subst h'
      exact hawake r (by simpa using he) hn
    · exact h.awake e r (by simpa [h'] using he) hn

theorem setState (hq : nap q = false) (hst : t ≠ .sleeping)
    (hz : t = .zombie → ∀ r, parent q = some r → nap r = true → r ≠ q → state r = .runnable) :
    Naps ini (update state q t) chan parent locks nap facts := by
  have hne : ∀ r, nap r = true → r ≠ q := by
    rintro r hr rfl
    rw [hq] at hr
    cases hr
  refine ⟨fun r hn => ?_, fun r hn => ?_, fun r hn => ?_, fun r hr hc => ?_,
    fun r s hn hr hpar hs => ?_, fun e r he hn => ?_⟩
  · simpa [hne r hn] using h.drowsy r hn
  · simpa [hne r hn] using h.active r hn
  · simpa [hne r hn] using h.channel r hn
  · by_cases h' : r = q
    · subst h'
      exact (hst (by simpa using hr)).elim
    · exact h.named r (by simpa [h'] using hr) hc
  · have h' := hne r hn
    rw [update_of_ne h'] at hr
    by_cases hsq : s = q
    · subst hsq
      exact (hr (hz (by simpa using hs) r hpar hn h')).elim
    · exact h.quiet r s hn hr hpar (by simpa [hsq] using hs)
  · simpa [hne r hn] using h.awake e r he hn

theorem wake : Naps ini (update state q .runnable) chan parent locks nap facts := by
  refine ⟨fun r hn hr => ?_, fun r hn => ?_, fun r hn hr => ?_, fun r hr hc => ?_,
    fun r s hn hr hpar hs => ?_, fun e r he hn => ?_⟩
  all_goals by_cases h' : r = q
  · simp [h'] at hr
  · exact h.drowsy r hn (by simpa [h'] using hr)
  · simp [h']
  · simpa [h'] using h.active r hn
  · simp [h'] at hr
  · exact h.channel r hn (by simpa [h'] using hr)
  · simp [h'] at hr
  · exact h.named r (by simpa [h'] using hr) hc
  · simp [h'] at hr
  · rw [update_of_ne h'] at hr
    by_cases hsq : s = q
    · simp [hsq] at hs
    · exact h.quiet r s hn hr hpar (by simpa [hsq] using hs)
  · simp [h']
  · simpa [h'] using h.awake e r he hn

theorem rise {c : Option (Chan n)} (hz : t ≠ .zombie) (hs : t = .sleeping → c ≠ some (.proc p)) :
    Naps ini (update state p t) (update chan p c) parent locks
      (update nap p false) facts := by
  have hne : ∀ r, update nap p false r = true → r ≠ p := by
    rintro r hr rfl
    simp at hr
  have hnap : ∀ r, update nap p false r = true → nap r = true := by
    intro r hr
    simpa [hne r hr] using hr
  refine ⟨fun r hn => ?_, fun r hn => ?_, fun r hn => ?_, fun r hr hc => ?_,
    fun r s hn hr hpar hs => ?_, fun e r he hn => ?_⟩
  · simpa [hne r hn] using h.drowsy r (hnap r hn)
  · simpa [hne r hn] using h.active r (hnap r hn)
  · simpa [hne r hn] using h.channel r (hnap r hn)
  · by_cases h' : r = p
    · subst h'
      exact (hs (by simpa using hr) (by simpa using hc)).elim
    · simpa [h'] using h.named r (by simpa [h'] using hr) (by simpa [h'] using hc)
  · have h' := hne r hn
    rw [update_of_ne h'] at hr
    by_cases hsp : s = p
    · subst hsp
      exact (hz (by simpa using hs)).elim
    · exact h.quiet r s (hnap r hn) hr hpar (by simpa [hsp] using hs)
  · simpa [hne r hn] using h.awake e r he (hnap r hn)

theorem settle (hp : state p = .running) (hnap : nap p = true) :
    Naps ini (update state p .sleeping) (update chan p (some (.proc p))) parent
      locks nap facts := by
  refine ⟨fun r hn hr => ?_, fun r hn => ?_, fun r hn hr => ?_, fun r hr hc => ?_,
    fun r s hn hr hpar hs => ?_, fun e r he hn => ?_⟩
  all_goals by_cases h' : r = p
  · simp [h'] at hr
  · exact h.drowsy r hn (by simpa [h'] using hr)
  · simp [h']
  · simpa [h'] using h.active r hn
  · simp [h']
  · simpa [h'] using h.channel r hn (by simpa [h'] using hr)
  · rw [h', hnap]
  · exact h.named r (by simpa [h'] using hr) (by simpa [h'] using hc)
  · have hsp : s ≠ p := by
      rintro rfl
      simp at hs
    exact h.quiet r s hn (by simp [h', hp]) hpar (by simpa [hsp] using hs)
  · have hsp : s ≠ p := by
      rintro rfl
      simp at hs
    exact h.quiet r s hn (by simpa [h'] using hr) hpar (by simpa [hsp] using hs)
  · subst h'
    have := h.awake e r he hn
    rw [hp] at this
    cases this
  · simpa [h'] using h.awake e r he hn

theorem setParent {o : Option (Fin n)} (hz : ∀ r, o = some r → state q = .zombie →
      r = ini ∧ ∃ e, (facts e).leaving = true ∧ ini ∉ (facts e).awake) :
    Naps ini state chan (update parent q o) locks nap facts := by
  refine { h with quiet := fun r s hn hr hpar hs => ?_ }
  by_cases h' : s = q
  · subst h'
    exact hz r (by simpa using hpar) hs
  · exact h.quiet r s hn hr (by simpa [h'] using hpar) hs

theorem clearChan (hq : state q ≠ .sleeping) :
    Naps ini state (update chan q none) parent locks nap facts := by
  refine { h with channel := fun r hn hr => ?_, named := fun r hr hc => ?_ }
  all_goals
    have h' : r ≠ q := by
      rintro rfl
      exact hq hr
  · simpa [h'] using h.channel r hn hr
  · exact h.named r hr (by simpa [h'] using hc)

theorem empty (hq : nap q = false) :
    Naps ini (update state q .unused) (update chan q none)
      (update parent q none) locks nap facts :=
  ((h.setState hq (by simp) (by simp)).setParent (by simp)).clearChan (by simp)

theorem doze (hp : state p = .running)
    (hlock : .proc p ∈ locks p) (hseen : ∀ q, parent q = some p → state q ≠ .zombie)
    (hawake : ∀ e, p ∉ (facts e).awake) :
    Naps ini state chan parent locks (update nap p true) facts := by
  refine ⟨fun r hn hr => ?_, fun r hn => ?_, fun r hn hr => ?_, fun r hr hc => ?_,
    fun r s hn hr hpar hs => ?_, fun e r he hn => ?_⟩
  all_goals by_cases h' : r = p
  · rwa [h']
  · exact h.drowsy r (by simpa [h'] using hn) hr
  · simp [h', hp]
  · exact h.active r (by simpa [h'] using hn)
  · rw [h', hp] at hr
    cases hr
  · exact h.channel r (by simpa [h'] using hn) hr
  · simp [h']
  · simpa [h'] using h.named r hr hc
  · subst h'
    exact (hseen s hpar hs).elim
  · exact h.quiet r s (by simpa [h'] using hn) hr hpar hs
  · subst h'
    exact (hawake e he).elim
  · exact h.awake e r he (by simpa [h'] using hn)

end Naps

namespace Story

variable (h : Story ini state pid xstate parent log facts)
include h

theorem setFacts {f : Facts n} (hleave : (facts p).leaving = true → f.leaving = true) :
    Story ini state pid xstate parent log (update facts p f) := by
  refine { h with origin := fun q r hq => ?_ }
  rcases h.origin q r hq with horigin | ⟨hr, e, he, horigin⟩
  · exact Or.inl horigin
  · refine Or.inr ⟨hr, e, ?_, horigin⟩
    by_cases h' : e = p
    · subst h'
      simpa using hleave he
    · simpa [h'] using he

theorem setState {i x : Int} (hq : state q ≠ .zombie) (hst : t ≠ .zombie) :
    Story ini (update state q t) (update pid q i) (update xstate q x)
      parent log facts := by
  refine { h with zombie := fun r hr => ?_, exited := fun r hr => ?_ }
  · by_cases h' : r = q
    · subst h'
      exact (hst (by simpa using hr)).elim
    · simpa [h'] using h.zombie r (by simpa [h'] using hr)
  · have h' : r ≠ q := by
      rintro rfl
      exact hq (h.exited r hr)
    simpa [h'] using h.exited r hr

theorem not_exited (hq : state q ≠ .zombie) : lastExit q log = none := by
  by_contra hne
  exact hq (h.exited q hne)

theorem cons {e : Event n} (hlast : ∀ q, lastExit q (e :: log) = lastExit q log)
    (hparent : ∀ q, parentOf ini q (e :: log) = parentOf ini q log)
    (hvalid : Valid ini log → Valid ini (e :: log)) :
    Story ini state pid xstate parent (e :: log) facts := by
  refine ⟨?_, ?_, ?_, hvalid h.valid⟩
  · simpa only [hlast] using h.zombie
  · simpa only [hlast] using h.exited
  · simpa only [hparent] using h.origin

theorem fork :
    Story ini state pid xstate (update parent q (some p)) (.forked p q :: log) facts := by
  refine ⟨h.zombie, h.exited, fun r s hr => ?_, h.valid⟩
  by_cases h' : r = q
  · subst h'
    exact Or.inl (by simpa [parentOf] using hr)
  · simpa [parentOf, Ne.symm h'] using h.origin r s (by simpa [h'] using hr)

theorem give {f : Facts n} (hp : p ≠ ini) (hq : parent q = some p) (hleave : f.leaving = true) :
    Story ini state pid xstate (update parent q (some ini)) log
      (update facts p f) := by
  have h' := h.setFacts (p := p) (f := f) fun _ => hleave
  refine { h' with origin := fun r s hr => ?_ }
  by_cases hrq : r = q
  · subst hrq
    obtain rfl : ini = s := by simpa using hr
    rcases h.origin r p hq with horigin | ⟨hini, -⟩
    · exact Or.inr ⟨rfl, p, by simpa using hleave, horigin⟩
    · exact (hp hini).elim
  · exact h'.origin r s (by simpa [hrq] using hr)

theorem exit {x : Int} (hp : state p ≠ .zombie) (hbarren : ∀ q, parent q ≠ some p)
    (hothers : ∀ e, e ≠ p → (facts e).leaving = false) :
    Story ini (update state p .zombie) pid (update xstate p x) parent
      (.exited p (pid p) x :: log) (update facts p .none) := by
  refine ⟨fun r hr => ?_, fun r hr => ?_, fun r s hr => Or.inl ?_, h.not_exited hp, h.valid⟩
  · by_cases h' : r = p
    · subst h'
      simp [lastExit]
    · simpa [lastExit, h', Ne.symm h'] using h.zombie r (by simpa [h'] using hr)
  · by_cases h' : r = p
    · simp [h']
    · simpa [h'] using h.exited r (by simpa [lastExit, Ne.symm h'] using hr)
  · have hs : s ≠ p := by
      rintro rfl
      exact hbarren r hr
    rcases h.origin r s hr with horigin | ⟨rfl, e, he, horigin⟩
    · simp [parentOf, horigin, hs]
    · have hep : e = p := by
        by_contra hne
        simp [hothers e hne] at he
      simp [parentOf, horigin, hep]

theorem reap {i : Int} {v : Option Int}
    (hz : state q = .zombie) (hpar : parent q = some p) (hpid : pid q = i)
    (hstatus : ∀ x ∈ v, xstate q = x) (hleave : ∀ e, (facts e).leaving = false) :
    Story ini (update state q .unused) (update pid q 0)
      (update xstate q 0) (update parent q none)
      (.waited p (.reaped q i v) :: log) facts := by
  have horigin : parentOf ini q log = some p := by
    rcases h.origin q p hpar with horigin | ⟨-, e, he, -⟩
    · exact horigin
    · simp [hleave e] at he
  refine ⟨fun r hr => ?_, fun r hr => ?_, fun r s hr => ?_, ?_, horigin, h.valid⟩
  · by_cases h' : r = q
    · simp [h'] at hr
    · simpa [lastExit, h', Ne.symm h'] using h.zombie r (by simpa [h'] using hr)
  · by_cases h' : r = q
    · simp [lastExit, h'] at hr
    · simpa [h'] using h.exited r (by simpa [lastExit, Ne.symm h'] using hr)
  · by_cases h' : r = q
    · simp [h'] at hr
    · exact h.origin r s (by simpa [h'] using hr)
  · exact ⟨xstate q, hpid ▸ h.zombie q hz, fun x hx => (hstatus x hx).symm⟩

end Story

namespace Kills

variable (h : Kills g state pid killed log me doomed)
include h

theorem setMe {m : Me} {d : Bool} (hp : d = true → killed p = true ∧ m = .running) :
    Kills g state pid killed log (update me p m) (update doomed p d) := by
  refine { h with doomed := fun r hr => ?_ }
  by_cases h' : r = p
  · subst h'
    simpa using hp (by simpa using hr)
  · simpa [h'] using h.doomed r (by simpa [h'] using hr)

theorem setPhase {m : Me} (hp : doomed p = false) :
    Kills g state pid killed log (update me p m) doomed := by
  refine { h with doomed := fun r hr => ?_ }
  have h' : r ≠ p := by
    rintro rfl
    simp [hp] at hr
  simpa [h'] using h.doomed r hr

theorem setState (hq : state q ≠ .unused)
    (hst : t ≠ .unused) : Kills g (update state q t) pid killed log me doomed := by
  have hiff : ∀ r, update state q t r = .unused ↔ state r = .unused := by
    intro r
    by_cases h' : r = q
    · subst h'
      simp [hq, hst]
    · simp [h']
  refine { h with zero := ?_, clean := ?_, told := ?_ }
  · simpa only [hiff] using h.zero
  · simpa only [hiff] using h.clean
  · simpa only [ne_eq, hiff] using h.told

theorem take {i j : Int} (hq : state q = .unused) (hme : me q ≠ .running) :
    Kills g (update state q .used) (update pid q i) killed
      (.allocated q j :: log) me doomed := by
  refine ⟨fun r hr => ?_, fun hg r hr => ?_, fun hg r hr => ?_, fun r hr hs => ?_, h.doomed⟩
  all_goals by_cases h' : r = q
  · simp [h'] at hr
  · simpa [h'] using h.zero r (by simpa [h'] using hr)
  · simp [h'] at hr
  · exact h.clean hg r (by simpa [h'] using hr)
  · subst h'
    rw [h.clean hg r hq] at hr
    cases hr
  · simpa [struckOf, Ne.symm h'] using h.struck hg r hr
  · simp [struckOf, h'] at hs
  · exact h.told r (by simpa [h'] using hr) (by simpa [struckOf, Ne.symm h'] using hs)

theorem empty (hme : me q ≠ .running) :
    Kills g (update state q .unused) (update pid q 0)
      (update killed q false) log me doomed := by
  refine ⟨fun r hr => ?_, fun hg r hr => ?_, fun hg r hr => ?_, fun r hr hs => ?_, fun r hr => ?_⟩
  all_goals by_cases h' : r = q
  · simp [h']
  · simpa [h'] using h.zero r (by simpa [h'] using hr)
  · simp [h']
  · simpa [h'] using h.clean hg r (by simpa [h'] using hr)
  · simp [h'] at hr
  · exact h.struck hg r (by simpa [h'] using hr)
  · simp [h'] at hr
  · simpa [h'] using h.told r (by simpa [h'] using hr) hs
  · subst h'
    exact (hme (h.doomed r hr).2).elim
  · simpa [h'] using h.doomed r hr

theorem strike (hq : g → state q ≠ .unused) :
    Kills g state pid (update killed q true) (.struck q :: log) me doomed := by
  refine ⟨h.zero, fun hg r hr => ?_, fun hg r hr => ?_, fun r hr hs => ?_, fun r hr => ?_⟩
  all_goals by_cases h' : r = q
  · subst h'
    exact (hq hg hr).elim
  · simpa [h'] using h.clean hg r hr
  · simp [struckOf, h']
  · simpa [struckOf, Ne.symm h'] using h.struck hg r (by simpa [h'] using hr)
  · simp [h']
  · simpa [h'] using h.told r hr (by simpa [struckOf, Ne.symm h'] using hs)
  · subst h'
    simpa using (h.doomed r hr).2
  · simpa [h'] using h.doomed r hr

theorem cons {e : Event n} (hstruck : ∀ q, struckOf q (e :: log) = struckOf q log) :
    Kills g state pid killed (e :: log) me doomed := by
  refine { h with struck := ?_, told := ?_ }
  · simpa only [hstruck] using h.struck
  · simpa only [hstruck] using h.told

end Kills

namespace Tests

variable (h : Tests g state killed loop testing me probe)
include h

theorem setState (hst : t ≠ .sleeping) :
    Tests g (update state q t) killed loop testing me probe := by
  refine { h with asleep := fun hg r hr => ?_ }
  by_cases h' : r = q
  · subst h'
    exact (hst (by simpa using hr)).elim
  · exact h.asleep hg r (by simpa [h'] using hr)

theorem empty :
    Tests g (update state q .unused) (update killed q false) loop testing me
      probe := by
  refine { h with clear := fun hg r hr => ?_, asleep := fun hg r hr hl => ?_ }
  all_goals by_cases h' : r = q
  · simp [h']
  · simpa [h'] using h.clear hg r hr
  · simp [h']
  · simpa [h'] using h.asleep hg r (by simpa [h'] using hr) hl

theorem strike (hq : state q ≠ .sleeping) (ht : g → testing q = false) :
    Tests g state (update killed q true) loop testing me probe := by
  refine { h with clear := fun hg r hr => ?_, asleep := fun hg r hr hl => ?_ }
  · have h' : r ≠ q := by
      rintro rfl
      simp [ht hg] at hr
    simpa [h'] using h.clear hg r hr
  · have h' : r ≠ q := by
      rintro rfl
      exact hq hr
    simpa [h'] using h.asleep hg r hr hl

theorem settle {b : Bool} (hb : b = true → probe p = true) :
    Tests g (update state p .sleeping) killed (update loop p b)
      (update testing p false) (update me p .parked)
      (update probe p false) := by
  refine ⟨fun r => ?_, fun r hr => ?_, fun hg r hr => ?_, fun hg r hr hl => ?_⟩
  all_goals by_cases h' : r = p
  · simp [h']
  · simpa [h'] using h.test r
  · simp [h'] at hr
  · simpa [h'] using h.running r (by simpa [h'] using hr)
  · simp [h'] at hr
  · exact h.clear hg r (by simpa [h'] using hr)
  · subst h'
    exact h.clear hg r ((h.test r).trans (hb (by simpa using hl)))
  · exact h.asleep hg r (by simpa [h'] using hr) (by simpa [h'] using hl)

theorem setPhase {m : Me} (hm : probe p = true → m = .running) :
    Tests g state killed loop testing (update me p m) probe := by
  refine { h with running := fun r hr => ?_ }
  by_cases h' : r = p
  · subst h'
    simpa using hm hr
  · simpa [h'] using h.running r hr

theorem setMe {m : Me} {b : Bool}
    (hm : b = true → m = .running) (hb : g → b = true → killed p = false) :
    Tests g state killed loop (update testing p b) (update me p m)
      (update probe p b) := by
  refine ⟨fun r => ?_, fun r hr => ?_, fun hg r hr => ?_, h.asleep⟩
  all_goals by_cases h' : r = p
  · simp [h']
  · simpa [h'] using h.test r
  · subst h'
    simpa using hm (by simpa using hr)
  · simpa [h'] using h.running r (by simpa [h'] using hr)
  · subst h'
    exact hb hg (by simpa using hr)
  · exact h.clear hg r (by simpa [h'] using hr)

end Tests

end Xv6.Procs
