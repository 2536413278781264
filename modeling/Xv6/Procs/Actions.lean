import Xv6.Procs.Groups

/-!
# What each action does to the invariant
-/

namespace Xv6.Procs

open Xv6.Foundation Function

set_option autoImplicit false

variable {n : Nat} {nz calm : Prop} {ini p q : Fin n} {l : Hold n} {Q : Unit → Hold n → Prop}
  {ls : Fin n → Hold n} {k : Kernel n} {c : Option (Chan n)}

theorem wp_read {a : Act n} {v : Kernel n → a.Answer} {Q : a.Answer → Hold n → Prop}
    (hexec : ∀ k, exec ini p a k = .ok (v k) k) (hsafe : ∀ k ls, Inv nz calm ini k ls → ls p = l → Orderly p a k)
    (h : ∀ k ls, Inv nz calm ini k ls → ls p = l → Q (v k) l) :
    (rules nz calm ini).wp p (act a) l Q := by
  apply wp_act
  intro k ls hi hl _
  refine ⟨hsafe k ls hi hl, fun r k' he => ?_⟩
  rw [hexec] at he
  cases he
  refine ⟨l, ?_, h k ls hi hl⟩
  rwa [← hl, update_eq_self]

theorem wp_do {a : Act n} {f : Kernel n → Kernel n} {v : a.Answer} {l' : Hold n}
    {Q : a.Answer → Hold n → Prop} (hexec : ∀ k, exec ini p a k = .ok v (f k))
    (hsafe : ∀ k, Orderly p a k) (h : Q v l')
    (hinv : ∀ k ls, Inv nz calm ini k ls → ls p = l → Inv nz calm ini (f k) (update ls p l')) :
    (rules nz calm ini).wp p (act a) l Q := by
  apply wp_act
  intro k ls hi hl _
  refine ⟨hsafe k, fun r k' he => ?_⟩
  rw [hexec] at he
  cases he
  exact ⟨l', hinv k ls hi hl, h⟩

theorem wp_myproc {Q : Fin n → Hold n → Prop} (h : Q p l) :
    (rules nz calm ini).wp p (act .myproc) l Q :=
  wp_read (fun _ => rfl) (fun _ _ _ _ => trivial) fun _ _ _ _ => h

theorem wp_getPid {b : Bool} {Q : Int → Hold n → Prop} (hc : l.child = some (q, b))
    (h : ∀ v, Q v l) : (rules nz calm ini).wp p (act (.getPid q)) l Q := by
  refine wp_read (a := .getPid q) (fun _ => rfl) (fun k ls hi hl => ?_) fun _ _ _ _ => h _
  have hused : (k.proc q).state = .used := (hi.own.fresh p q b (by rw [hl]; exact hc)).2
  simp [Orderly, hused]

theorem wp_stuck : (rules nz calm ini).wp p (act .stuck) l Q := by
  apply wp_act
  intro k ls _ _ _
  exact ⟨trivial, fun r k' he => by cases he⟩

theorem wp_notInit (h : p ≠ ini → Q () l) : (rules nz calm ini).wp p (act .notInit) l Q := by
  apply wp_act
  intro k ls hi hl _
  refine ⟨trivial, fun r k' he => ?_⟩
  simp only [exec] at he
  split at he
  · cases he
  · cases he
    refine ⟨l, ?_, h ‹_›⟩
    rwa [← hl, update_eq_self]

/-! ## Locks -/

theorem wp_acquire {lk : Lock n} (h : lk ∉ l.locks → Q () (l.lock lk)) :
    (rules nz calm ini).wp p (act (.acquire lk)) l Q := by
  apply wp_act
  intro k ls hi hl _
  refine ⟨trivial, fun r k' he => ?_⟩
  subst hl
  simp only [exec] at he
  split_ifs at he with hfree
  cases he
  refine ⟨(ls p).lock lk, ?_, h (hi.locks.not_mem hfree)⟩
  apply Inv.of_update
  · simpa using hi.locks.acquire hfree
  · simpa using hi.own.setLocks (p := p) (L := insert lk (ls p).locks)
      fun hgone => Finset.mem_insert_of_mem (hi.own.gone hgone)
  · simpa using hi.kin
  · simpa using hi.watch.setLocks (p := p) (L := insert lk (ls p).locks)
      (fun hno => hi.watch.none p fun hmem => hno (Finset.mem_insert_of_mem hmem))
      fun x hx => Finset.mem_insert_of_mem ((hi.watch.good p).prey x hx).1
  · simpa using hi.naps.setLocks (p := p) (L := insert lk (ls p).locks)
      fun hn hr => Finset.mem_insert_of_mem (hi.naps.drowsy p hn hr)
  · simpa using hi.story
  · simpa using hi.kills
  · simpa using hi.tests

theorem wp_release {lk : Lock n} (hlk : lk ∈ l.locks) (hw : lk ≠ .wait)
    (hgone : l.me = .gone → lk ≠ .proc p) (hnap : l.nap = true → lk ≠ .proc p)
    (hprey : ∀ x ∈ l.facts.prey, lk ≠ .proc x.slot) (h : Q () (l.unlock lk)) :
    (rules nz calm ini).wp p (act (.release lk)) l Q := by
  apply wp_act
  intro k ls hi hl _
  refine ⟨trivial, fun r k' he => ?_⟩
  subst hl
  have hheld := (hi.locks.iff lk p).mpr hlk
  simp only [exec, hheld, if_pos] at he
  cases he
  refine ⟨(ls p).unlock lk, ?_, h⟩
  have hkeep : ∀ {lk' : Lock n}, lk' ∈ (ls p).locks → lk ≠ lk' → lk' ∈ (ls p).locks.erase lk :=
    fun hmem hne => Finset.mem_erase.mpr ⟨hne.symm, hmem⟩
  apply Inv.of_update
  · simpa using hi.locks.release hheld
  · simpa using hi.own.setLocks (p := p) (L := (ls p).locks.erase lk)
      fun hg => hkeep (hi.own.gone hg) (hgone hg)
  · simpa using hi.kin
  · simpa using hi.watch.setLocks (p := p) (L := (ls p).locks.erase lk)
      (fun hno => hi.watch.none p fun hmem => hno (hkeep hmem hw))
      fun x hx => hkeep ((hi.watch.good p).prey x hx).1 (hprey x hx)
  · simpa using hi.naps.setLocks (p := p) (L := (ls p).locks.erase lk)
      fun hn hr => hkeep (hi.naps.drowsy p hn hr) (hnap hn)
  · simpa using hi.story
  · simpa using hi.kills
  · simpa using hi.tests

theorem wp_release_wait (hlk : .wait ∈ l.locks)
    (hleave : l.facts.leaving = false) (h : Q () ((l.unlock .wait).know .none)) :
    (rules nz calm ini).wp p (act (.release .wait)) l Q := by
  apply wp_act
  intro k ls hi hl _
  refine ⟨trivial, fun r k' he => ?_⟩
  subst hl
  have hheld := (hi.locks.iff .wait p).mpr hlk
  simp only [exec, hheld, if_pos] at he
  cases he
  refine ⟨((ls p).unlock .wait).know .none, ?_, h⟩
  have hkeep : ∀ {q : Fin n}, .proc q ∈ (ls p).locks → .proc q ∈ (ls p).locks.erase .wait :=
    fun hmem => Finset.mem_erase.mpr ⟨by simp, hmem⟩
  have hstill : ∀ {b : Bool}, (ls p).facts.leaving = true → b = true := by simp [hleave]
  apply Inv.of_update
  · simpa using hi.locks.release hheld
  · simpa using hi.own.setLocks (p := p) (L := (ls p).locks.erase .wait)
      fun hg => hkeep (hi.own.gone hg)
  · simpa using hi.kin
  · simpa using (hi.watch.setFacts (p := p) (fun _ => rfl)
      (Facts.good_none ..)).setLocks (p := p) (L := (ls p).locks.erase .wait) (by simp)
      (by simp [Facts.none])
  · simpa using (hi.naps.setFacts (p := p) (f := .none) (by simp [Facts.none])
      fun hl => Or.inl (hstill hl)).setLocks (p := p) (L := (ls p).locks.erase .wait)
      fun hn hr => hkeep (hi.naps.drowsy p hn hr)
  · simpa using hi.story.setFacts (p := p) (f := .none) hstill
  · simpa using hi.kills
  · simpa using hi.tests

/-- `release(&wait_lock)` in the `sleep` of `wait`: the whole table has been seen, so that there is no
ZOMBIE child. -/
theorem wp_release_doze (hlk : .wait ∈ l.locks) (hown : .proc p ∈ l.locks)
    (hme : l.me = .running) (hleave : l.facts.leaving = false) (hseen : ∀ q, q ∈ l.facts.seen)
    (h : Q () { (l.unlock .wait).know .none with nap := true }) :
    (rules nz calm ini).wp p (act (.release .wait)) l Q := by
  apply wp_act
  intro k ls hi hl _
  refine ⟨trivial, fun r k' he => ?_⟩
  subst hl
  have hheld := (hi.locks.iff .wait p).mpr hlk
  simp only [exec, hheld, if_pos] at he
  cases he
  refine ⟨{ ((ls p).unlock .wait).know .none with nap := true }, ?_, h⟩
  have hrun := hi.own.running hme
  have hmem : .proc p ∈ (ls p).locks.erase .wait := Finset.mem_erase.mpr ⟨by simp, hown⟩
  have hstill : ∀ {b : Bool}, (ls p).facts.leaving = true → b = true := by simp [hleave]
  have hforget := hi.naps.setFacts (p := p) (f := .none) (by simp [Facts.none])
    fun hl => Or.inl (hstill hl)
  have hnone : ∀ e, update (fun q => (ls q).facts) p .none e = .none := by
    intro e
    by_cases hep : e = p
    · simp [hep]
    · simpa [hep] using hi.watch.others hi.locks hlk hep
  apply Inv.of_update
  · simpa using hi.locks.release hheld
  · simpa using hi.own.setLocks (p := p) (L := (ls p).locks.erase .wait)
      fun _ => hmem
  · simpa using hi.kin
  · simpa using (hi.watch.setFacts (p := p) (fun _ => rfl)
      (Facts.good_none ..)).setLocks (p := p) (L := (ls p).locks.erase .wait) (by simp)
      (by simp [Facts.none])
  · simpa using (hforget.doze hrun hown
      (fun q hq => (hi.watch.good p).seen q (hseen q) hq)
      (fun e => by simp only [hnone e]; simp [Facts.none])).setLocks (p := p) (L := (ls p).locks.erase .wait)
      fun _ _ => hmem
  · simpa using hi.story.setFacts (p := p) (f := .none) hstill
  · simpa using hi.kills
  · simpa using hi.tests

/-! ## `fork` -/

theorem wp_take {Q : Bool → Hold n → Prop} (hme : l.me = .running) (hc : l.child = none)
    (ht : Q true { l with child := some (q, false) }) (hf : Q false l) :
    (rules nz calm ini).wp p (act (.take q)) l Q := by
  apply wp_act
  intro k ls hi hl _
  refine ⟨trivial, fun r k' he => ?_⟩
  subst hl
  simp only [exec, takeAct] at he
  split_ifs at he with hu
  · cases he
    refine ⟨{ ls p with child := some (q, false) }, ?_, ht⟩
    have hpq : p ≠ q := hi.own.running_ne hme (by simp [hu])
    have hna : ¬ (k.proc q).state.Active := by simp [hu]
    have hparent := hi.kin.unused q hu
    apply Inv.of_update_proc rfl
    · simpa using hi.locks
    · simpa using hi.own.set (p := p) (q := q) (t := .used)
        (c := some (q, false)) (m := (ls p).me) (by simpa [hpq] using hi.own.stage p)
        (fun _ => hi.own.stage_of_vacant (Or.inl hu) (by simp)) (by simp [hme])
        (fun e b _ => hi.own.not_fresh (by simp [hu]) b)
        (by simp)
    · simpa using (hi.kin.setState (q := q) (t := .used) (by simp)
        (by simp [ProcState.Live])
        fun _ => ⟨hi.kin.ne_init hna, hi.kin.childless hna⟩).setChild (p := p)
        (c := some (q, false)) (by simpa using hparent)
    · simpa using hi.watch.setState (q := q) (t := .used)
        (i := k.nextpid) (x := (k.proc q).xstate) (by simp [hu]) (by simp)
    · simpa using hi.naps.setState (q := q) (t := .used)
        (hi.naps.not_napping hna) (by simp) (by simp)
    · simpa using (hi.story.setState (q := q) (t := .used)
        (i := k.nextpid) (x := (k.proc q).xstate) (by simp [hu]) (by simp)).cons
        (e := .allocated q k.nextpid) (fun _ => rfl) (fun _ => rfl)
        fun hv => ⟨hi.story.not_exited (by simp [hu]), hv⟩
    · simpa using hi.kills.take hu (hi.own.not_running (by simp [hu]))
    · simpa using hi.tests.setState (q := q) (t := .used) (by simp)
  · cases he
    refine ⟨ls p, ?_, hf⟩
    rwa [update_eq_self]

theorem wp_freeproc (hc : l.child = some (q, false)) (h : Q () { l with child := none }) :
    (rules nz calm ini).wp p (act (.freeproc q)) l Q := by
  refine wp_do (fun _ => rfl) (fun _ => trivial) h ?_
  rintro k ls hi rfl
  obtain ⟨hme, hu⟩ := hi.own.fresh p q false hc
  have hpq : p ≠ q := hi.own.running_ne hme (by simp [hu])
  have hparent : (k.proc q).parent = none := by simpa using hi.kin.fresh p q false hc
  have hna : ¬ (k.proc q).state.Active := by simp [hu]
  apply Inv.of_update_proc rfl
  · simpa using hi.locks
  · simpa using hi.own.set (p := p) (q := q) (t := .unused) (c := none)
      (m := (ls p).me) (by simpa [hpq] using hi.own.stage p)
      (fun _ => hi.own.stage_of_vacant (Or.inr hu) (by simp)) (by simp)
      (fun e b hep he => hep (hi.own.sole e p q b false he hc)) (by simp)
  · simpa using (hi.kin.setChild (p := p) (c := none) (by simp)).set
      (q := q) (t := .unused) (o := none) (by simp) (by simp [ProcState.Live]) (by simp)
      (fun _ => ⟨hi.kin.ne_init hna, fun r _ => hi.kin.childless hna r⟩)
      fun e b he => (hi.own.forgotten hc e b he).elim
  · have := hi.watch.setState (q := q) (t := .unused) (i := 0) (x := 0) (by simp [hu]) (by simp)
    rw [← update_eq_self q fun q => (k.proc q).parent] at this
    simpa [hparent] using this
  · simpa using hi.naps.empty (hi.naps.not_napping hna)
  · have := hi.story.setState (q := q) (t := .unused) (i := 0) (x := 0) (by simp [hu]) (by simp)
    rw [← update_eq_self q fun q => (k.proc q).parent] at this
    simpa [hparent] using this
  · simpa using hi.kills.empty (hi.own.not_running (by simp [hu]))
  · simpa using hi.tests.empty (q := q)

theorem wp_setParent (hc : l.child = some (q, false))
    (hw : .wait ∈ l.locks) (hfacts : l.facts = .none)
    (h : Q () { l with child := some (q, true) }) :
    (rules nz calm ini).wp p (act (.setParent q)) l Q := by
  refine wp_do (fun _ => rfl) (fun _ => trivial) h ?_
  rintro k ls hi rfl
  obtain ⟨hme, hu⟩ := hi.own.fresh p q false hc
  have hrun := hi.own.running hme
  have hpq : p ≠ q := hi.own.running_ne hme (by simp [hu])
  have hna : ¬ (k.proc q).state.Active := by simp [hu]
  apply Inv.of_update_proc rfl
  · simpa using hi.locks
  · have := hi.own.set (p := p) (q := q) (t := .used) (c := some (q, true)) (m := (ls p).me)
      (by simpa [hpq] using hi.own.stage p) (fun _ => by simpa [hu] using hi.own.stage q)
      (by simp [hme]) (fun e b hep he => hep (hi.own.sole e p q b false he hc)) (by simp)
    rw [← hu] at this
    simpa using this
  · have := ((hi.kin.setChild (p := p) (c := none) (by simp)).set (q := q) (t := .used)
      (o := some p) (by simp) (by simp) (by simp [hpq, hrun])
      (fun _ => ⟨hi.kin.ne_init hna, fun r _ => hi.kin.childless hna r⟩)
      fun e b he => (hi.own.forgotten hc e b he).elim).setChild (p := p) (c := some (q, true)) (by simp)
    rw [← hu] at this
    simpa using this
  · simpa using hi.watch.renew (p := p) (f := (ls p).facts) hi.locks
      hw (hfacts ▸ Facts.good_none ..)
  · simpa using hi.naps.setParent (q := q) (o := some p) (by simp [hu])
  · simpa using hi.story.fork (p := p) (q := q)
  · simpa using hi.kills.cons (e := .forked p q) fun _ => rfl
  · simpa using hi.tests

theorem wp_setRunnable (hc : l.child = some (q, true)) (h : Q () { l with child := none }) :
    (rules nz calm ini).wp p (act (.setRunnable q)) l Q := by
  refine wp_do (fun _ => rfl) (fun _ => trivial) h ?_
  rintro k ls hi rfl
  obtain ⟨hme, hu⟩ := hi.own.fresh p q true hc
  have hpq : p ≠ q := hi.own.running_ne hme (by simp [hu])
  have hparent : (k.proc q).parent = some p := by simpa using hi.kin.fresh p q true hc
  apply Inv.of_update_proc rfl
  · simpa using hi.locks
  · simpa using hi.own.set (p := p) (q := q) (t := .runnable) (c := none)
      (m := (ls p).me) (by simpa [hpq] using hi.own.stage p)
      (fun _ => hi.own.stage_of_vacant (Or.inr hu) (by simp)) (by simp)
      (fun e b hep he => hep (hi.own.sole e p q b true he hc)) (by simp)
  · simpa using (hi.kin.setState (q := q) (t := .runnable) (by simp)
      (by simp [hparent]) (by simp)).setChild (p := p) (c := none) (by simp)
  · simpa using hi.watch.setState (q := q) (t := .runnable)
      (i := (k.proc q).pid) (x := (k.proc q).xstate) (by simp [hu]) (by simp)
  · simpa using hi.naps.setState (q := q) (t := .runnable)
      (hi.naps.not_napping (by simp [hu])) (by simp) (by simp)
  · simpa using hi.story.setState (q := q) (t := .runnable)
      (i := (k.proc q).pid) (x := (k.proc q).xstate) (by simp [hu]) (by simp)
  · simpa using hi.kills.setState (q := q) (t := .runnable) (by simp [hu]) (by simp)
  · simpa using hi.tests.setState (q := q) (t := .runnable) (by simp)

/-! ## `exit` and `wait` -/

theorem wp_giveInit (hw : .wait ∈ l.locks) (hne : p ≠ ini)
    (hc : l.child = none) (hkid : l.facts.kid = some q) (hprey : l.facts.prey = none)
    (hfather : l.facts.father = none) (h : Q () (l.know (l.facts.give ini q))) :
    (rules nz calm ini).wp p (act (.giveInit q)) l Q := by
  refine wp_do (fun _ => rfl) (fun _ => trivial) h ?_
  rintro k ls hi rfl
  have hgood := hi.watch.good p
  have hpar : (k.proc q).parent = some p := hgood.kid q hkid
  have hfree : ∀ e b, (ls e).child ≠ some (q, b) := by
    intro e b he
    have hfresh := hi.kin.fresh e q b he
    cases b with
    | false => simp [hpar] at hfresh
    | true =>
      obtain rfl : p = e := by simpa [hpar] using hfresh
      simp [hc] at he
  apply Inv.of_update_proc rfl
  · simpa using hi.locks
  · simpa using hi.own
  · simpa using hi.kin.setParent (q := q) (o := some ini)
      (fun hu => by simpa [hpar] using hi.kin.unused q hu) (by simp)
      (by simpa using hi.kin.init) fun e b he => (hfree e b he).elim
  · have hnew : ∀ r, update (fun q => (k.proc q).parent) q (some ini) r = some p →
        r ≠ q ∧ (k.proc r).parent = some p := by
      intro r hr
      by_cases h' : r = q
      · subst h'
        exact (hne (by simpa using hr.symm)).elim
      · exact ⟨h', by simpa [h'] using hr⟩
    simpa using hi.watch.renew (p := p) (f := (ls p).facts.give ini q) hi.locks hw
      { barren := fun r hr hpar => by
          rcases Finset.mem_insert.mp hr with rfl | hr
          · exact (hnew r hpar).1 rfl
          · exact hgood.barren r hr (hnew r hpar).2
        seen := fun r hr hpar => hgood.seen r hr (hnew r hpar).2
        kid := by simp [Facts.give]
        father := by simp [Facts.give, hfather]
        prey := by simp [Facts.give, hprey] }
  · have hawake : ∀ r ∈ (ls p).facts.awake.erase ini, (ls r).nap = true →
        (k.proc r).state = .runnable :=
      fun r hr => hi.naps.awake p r (Finset.mem_of_mem_erase hr)
    have hgive := hi.naps.setFacts (p := p) (f := (ls p).facts.give ini q) hawake fun _ => Or.inl rfl
    simpa using hgive.setParent (q := q) (o := some ini) fun r hr _ =>
      ⟨(Option.some.inj hr).symm, p, by simp [Facts.give]⟩
  · simpa using hi.story.give (q := q) (f := (ls p).facts.give ini q) hne hpar
      rfl
  · simpa using hi.kills
  · simpa using hi.tests

theorem wp_setZombie {x : Int} {r : Fin n} (hw : .wait ∈ l.locks)
    (hown : .proc p ∈ l.locks) (hne : p ≠ ini) (hme : l.me = .running) (hc : l.child = none)
    (hnap : l.nap = false) (hprobe : l.probe = false) (hbarren : ∀ q, q ∈ l.facts.barren)
    (hfather : l.facts.father = some r) (hr : r ≠ p → r ∈ l.facts.awake)
    (hinit : l.facts.leaving = true → ini ∈ l.facts.awake)
    (h : Q () { l.know .none with me := .gone, doomed := false }) :
    (rules nz calm ini).wp p (act (.setZombie x)) l Q := by
  refine wp_do (fun _ => rfl) (fun _ => trivial) h ?_
  rintro k ls hi rfl
  have hgood := hi.watch.good p
  have hrun := hi.own.running hme
  have hpar : (k.proc p).parent = some r := hgood.father r hfather
  have hnone : ∀ q, (k.proc q).parent ≠ some p := fun q => hgood.barren q (hbarren q)
  apply Inv.of_update_proc rfl
  · simpa using hi.locks
  · simpa using hi.own.setSelf (p := p) (t := .zombie) (m := .gone)
      (by simp [hrun]) hc ⟨rfl, hown⟩
  · simpa using hi.kin.setState (q := p) (t := .zombie) (by simp)
      (by simp [hpar]) fun _ => ⟨hne, hnone⟩
  · simpa using hi.watch.renew (p := p) hi.locks hw
      (Facts.good_none ..)
  · have hforget := hi.naps.setFacts (p := p) (f := .none) (by simp [Facts.none])
      fun hl => Or.inr (hinit hl)
    simpa using hforget.setState (q := p) (t := .zombie) hnap
      (by simp) fun _ s hs hn hsp => by
        obtain rfl : r = s := by simpa [hpar] using hs
        exact hi.naps.awake p r (hr hsp) hn
  · simpa using hi.story.exit (p := p) (x := x)
      (by simp [hrun]) hnone fun e he => by
      simp [hi.watch.others hi.locks hw he, Facts.none]
  · simpa using ((hi.kills.setState (q := p) (t := .zombie)
      (by simp [hrun]) (by simp)).setMe (p := p) (m := .gone) (d := false) (by simp)).cons
      (e := .exited p (k.proc p).pid x) fun _ => rfl
  · simpa using (hi.tests.setState (q := p) (t := .zombie)
      (by simp)).setPhase (p := p) (m := .gone) (by simp [hprobe])

theorem wp_schedOut_gone (hown : .proc p ∈ l.locks) (hme : l.me = .gone)
    (hc : l.child = none) (hfacts : l.facts = .none) (hprobe : l.probe = false)
    (hdoomed : l.doomed = false) (h : Q () { l.unlock (.proc p) with me := .idle }) :
    (rules nz calm ini).wp p (act .schedOut) l Q := by
  apply wp_act
  intro k ls hi hl _
  refine ⟨trivial, fun _ k' he => ?_⟩
  subst hl
  have hheld := (hi.locks.iff (.proc p) p).mpr hown
  have hz := hi.own.stage p
  simp only [hme, Stage] at hz
  simp only [exec, hheld, if_pos] at he
  cases he
  refine ⟨_, ?_, h⟩
  apply Inv.of_update
  · simpa using hi.locks.release hheld
  · have := hi.own.setSelf (p := p) (t := (k.proc p).state) (m := .idle) (by simp [hz.1]) hc
      (by simp [Stage, hz.1])
    simpa using this.setLocks (p := p) (L := (ls p).locks.erase (.proc p))
      (by simp)
  · simpa using hi.kin
  · simpa using hi.watch.setLocks (p := p) (L := (ls p).locks.erase (.proc p))
      (fun _ => hfacts) (by simp [hfacts, Facts.none])
  · simpa using hi.naps.setLocks (p := p) (L := (ls p).locks.erase (.proc p))
      (by simp [hz.1])
  · simpa using hi.story
  · simpa using hi.kills.setPhase (p := p) (m := .idle) hdoomed
  · simpa using hi.tests.setPhase (p := p) (m := .idle) (by simp [hprobe])

theorem wp_reap {i : Int} {s v : Option Int} (hw : .wait ∈ l.locks)
    (hme : l.me = .running) (hc : l.child = none)
    (hprey : l.facts.prey = some ⟨q, some i, s⟩) (hv : ∀ x ∈ v, s = some x)
    (hleave : l.facts.leaving = false) (h : Q () (l.know .none)) :
    (rules nz calm ini).wp p (act (.reap q i v)) l Q := by
  refine wp_do (fun _ => rfl) (fun _ => trivial) h ?_
  rintro k ls hi rfl
  obtain ⟨hlk, hz, hpar, hpid, hstatus⟩ := (hi.watch.good p).prey _ hprey
  simp only at hlk hz hpar hpid hstatus
  have hna : ¬ (k.proc q).state.Active := by simp [hz]
  have hpq : p ≠ q := hi.own.running_ne hme (by simp [hz])
  have hstage : Stage (ls q).locks q .unused (ls q).me := by
    have := hi.own.stage q
    cases hm : (ls q).me with
    | gone => exact (hpq (hi.locks.alone hlk (hi.own.gone hm))).elim
    | _ => simp [hm, Stage, hz] at this ⊢
  have hfree : ∀ e b, (ls e).child ≠ some (q, b) := fun e b => hi.own.not_fresh (by simp [hz]) b
  have hforget : ∀ e, (update (fun q => (ls q).facts) p .none e).leaving = false := by
    intro e
    by_cases hep : e = p
    · simp [hep, Facts.none]
    · simp [hep, hi.watch.others hi.locks hw hep, Facts.none]
  apply Inv.of_update_proc rfl
  · simpa using hi.locks
  · simpa using hi.own.set (p := p) (q := q) (t := .unused)
      (c := (ls p).child) (m := (ls p).me) (by simpa [hpq] using hi.own.stage p) (fun _ => hstage)
      (by simp [hc]) (fun e b _ => hfree e b) (by simp)
  · simpa using hi.kin.set (q := q) (t := .unused)
      (o := none) (by simp) (by simp [ProcState.Live]) (by simp)
      (fun _ => ⟨hi.kin.ne_init hna, fun r _ => hi.kin.childless hna r⟩)
      fun e b he => (hfree e b he).elim
  · simpa using hi.watch.renew (p := p) hi.locks hw
      (Facts.good_none ..)
  · simpa using (hi.naps.setFacts (p := p) (f := .none)
      (by simp [Facts.none]) (by simp [hleave])).empty (hi.naps.not_napping hna)
  · simpa using (hi.story.setFacts (p := p) (f := .none)
      (by simp [hleave])).reap (v := v) hz hpar (hpid i rfl)
      (fun x hx => hstatus x (hv x hx)) hforget
  · simpa using (hi.kills.empty
      (hi.own.not_running (p := q) (by simp [hz]))).cons (e := .waited p (.reaped q i v)) fun _ => rfl
  · simpa using hi.tests.empty (q := q)

theorem Inv.spare (hi : Inv nz calm ini k ls) : Inv nz calm ini k
      (update ls p ((ls p).know { (ls p).facts with prey := none })) := by
  apply Inv.of_update
  · simpa using hi.locks
  · simpa using hi.own
  · simpa using hi.kin
  · simpa using hi.watch.setFacts (p := p) (f := { (ls p).facts with prey := none })
      (fun hno => by rw [hi.watch.none p hno]; rfl) { hi.watch.good p with prey := by simp }
  · simpa using hi.naps.setFacts (p := p) (f := { (ls p).facts with prey := none })
      (hi.naps.awake p) Or.inl
  · simpa using hi.story.setFacts (p := p) (f := { (ls p).facts with prey := none }) id
  · simpa using hi.kills
  · simpa using hi.tests

theorem wp_report {r : WaitResult n}
    (hr : r = .badAddress ∨ (r = .childless ∧ ∀ q, q ∈ l.facts.barren) ∨
      (r = .killed ∧ l.doomed = true)) (h : Q () (l.know { l.facts with prey := none })) :
    (rules nz calm ini).wp p (act (.report r)) l Q := by
  apply wp_act
  intro k ls hi hl _
  subst hl
  have hplain : Safe p (.report r) k ∧ ∀ q, lastExit q (.waited p r :: k.log) = lastExit q k.log ∧
      parentOf ini q (.waited p r :: k.log) = parentOf ini q k.log ∧
      struckOf q (.waited p r :: k.log) = struckOf q k.log ∧
      (Valid ini k.log → Valid ini (.waited p r :: k.log)) := by
    rcases hr with rfl | ⟨rfl, hb⟩ | ⟨rfl, hd⟩
    · exact ⟨trivial, fun q => ⟨rfl, rfl, rfl, id⟩⟩
    · exact ⟨fun q => (hi.watch.good p).barren q (hb q), fun q => ⟨rfl, rfl, rfl, id⟩⟩
    · exact ⟨(hi.kills.doomed p hd).1, fun q => ⟨rfl, rfl, rfl, id⟩⟩
  obtain ⟨hsafe, hlog⟩ := hplain
  refine ⟨hsafe, fun _ k' he => ?_⟩
  cases he
  refine ⟨_, ?_, h⟩
  have hi' : Inv nz calm ini (k.note (.waited p r)) ls := { hi with
    story := hi.story.cons (fun q => (hlog q).1) (fun q => (hlog q).2.1) (hlog p).2.2.2
    kills := hi.kills.cons fun q => (hlog q).2.2.1 }
  exact hi'.spare

/-! ## `sleep`, `wakeup` and `kill` -/

theorem Inv.wake (hi : Inv nz calm ini k ls) (hq : (k.proc q).state = .sleeping) :
    Inv nz calm ini (k.setProc q { k.proc q with state := .runnable }) ls := by
  rw [← update_eq_self q ls]
  apply Inv.of_update_proc rfl
  · simpa using hi.locks
  · simpa using hi.own.wake hq
  · simpa using hi.kin.setActive (q := q) (t := .runnable) (by simp [hq]) (by simp)
  · simpa using hi.watch.setState (q := q) (t := .runnable)
      (i := (k.proc q).pid) (x := (k.proc q).xstate) (by simp [hq]) (by simp)
  · simpa using hi.naps.wake (q := q)
  · simpa using hi.story.setState (q := q) (t := .runnable)
      (i := (k.proc q).pid) (x := (k.proc q).xstate) (by simp [hq]) (by simp)
  · simpa using hi.kills.setState (q := q) (t := .runnable) (by simp [hq]) (by simp)
  · simpa using hi.tests.setState (q := q) (t := .runnable) (by simp)

theorem Inv.wakeSlot (hi : Inv nz calm ini k ls) : Inv nz calm ini (wakeSlotAct q c k) ls := by
  unfold wakeSlotAct
  split
  · exact hi.wake ‹_ ∧ _›.1
  · exact hi

theorem wp_wakeSlot (h : Q () l) : (rules nz calm ini).wp p (act (.wakeSlot q c)) l Q := by
  refine wp_do (fun _ => rfl) (fun _ => trivial) h ?_
  rintro k ls hi rfl
  rw [update_eq_self]
  exact hi.wakeSlot

theorem wp_wakeSlot_awake (hw : .wait ∈ l.locks) (hq : .proc q ∈ l.locks) (hpq : q ≠ p)
    (h : Q () (l.know { l.facts with awake := insert q l.facts.awake })) :
    (rules nz calm ini).wp p (act (.wakeSlot q (some (.proc q)))) l Q := by
  refine wp_do (fun _ => rfl) (fun _ => trivial) h ?_
  rintro k ls hi rfl
  have hi' := hi.wakeSlot (q := q) (c := some (.proc q))
  have hawake : (ls q).nap = true →
      ((wakeSlotAct q (some (.proc q)) k).proc q).state = .runnable := by
    intro hn
    unfold wakeSlotAct
    rcases hi.naps.active q hn with hr | hr | hr
    · exact (hpq (hi.locks.alone (hi.naps.drowsy q hn hr) hq)).elim
    · simp [hr]
    · simp [hr, hi.naps.channel q hn hr]
  have hgood := hi'.watch.good p
  apply Inv.of_update
  · simpa using hi'.locks
  · simpa using hi'.own
  · simpa using hi'.kin
  · simpa using hi'.watch.setFacts (p := p) (f := { (ls p).facts with
      awake := insert q (ls p).facts.awake }) (fun hno => (hno hw).elim) { hgood with }
  · simpa using hi'.naps.setFacts (p := p) (f := { (ls p).facts with
      awake := insert q (ls p).facts.awake })
      (by simpa using ⟨hawake, hi'.naps.awake p⟩) Or.inl
  · simpa using hi'.story.setFacts (p := p) (f := { (ls p).facts with
      awake := insert q (ls p).facts.awake }) id
  · simpa using hi'.kills
  · simpa using hi'.tests

theorem Inv.strike (hi : Inv nz calm ini k ls)
    (hq : (k.proc q).state ≠ .sleeping) (hnz : nz → (k.proc q).state ≠ .unused)
    (hcalm : calm → k.testing q = false) :
    Inv nz calm ini ((k.setProc q { k.proc q with killed := true }).note (.struck q)) ls := by
  rw [← update_eq_self q ls]
  apply Inv.of_update_proc rfl
  · simpa using hi.locks
  · simpa using hi.own
  · simpa using hi.kin
  · simpa using hi.watch
  · simpa using hi.naps
  · simpa using hi.story.cons (e := .struck q) (fun _ => rfl)
      (fun _ => rfl) id
  · simpa using hi.kills.strike hnz
  · simpa using hi.tests.strike hq hcalm

theorem wp_killSlot {i : Int} {Q : Bool → Hold n → Prop} (h : ∀ b, Q b l) :
    (rules nz calm ini).wp p (act (.killSlot q i)) l Q := by
  apply wp_act
  intro k ls hi hl hguard
  refine ⟨trivial, fun r k' he => ?_⟩
  subst hl
  refine ⟨ls p, ?_, h r⟩
  rw [update_eq_self]
  obtain ⟨hnz, hcalm⟩ := hguard
  simp only [exec, killSlotAct] at he
  split_ifs at he with hpid hs
  · cases he
    have hi' := hi.wake hs
    simpa [Kernel.setProc, hs] using hi'.strike (q := q) (by simp)
      (by simp) fun hg => hcalm hg hpid
  · cases he
    refine hi.strike hs (fun hg hu => hnz hg ?_) fun hg => hcalm hg hpid
    rw [← hpid]
    exact hi.kills.zero q hu
  · cases he
    exact hi

section
variable (hme : l.me = .running)
include hme

theorem wp_trap (hprobe : l.probe = false)
    (h : Q () l) : (rules nz calm ini).wp p (act .trap) l Q := by
  refine wp_do (fun _ => rfl) (fun _ => trivial) h ?_
  rintro k ls hi rfl
  rw [update_eq_self]
  have hrun := hi.own.running hme
  exact hi.strike (by simp [hrun]) (by simp [hrun]) fun _ => (hi.tests.test p).trans hprobe

theorem wp_getKilled {sleeps : Bool} {Q : Bool → Hold n → Prop}
    (ht : Q true { l with probe := false, doomed := true })
    (hf : Q false { l with probe := sleeps, doomed := false }) :
    (rules nz calm ini).wp p (act (.getKilled sleeps)) l Q := by
  apply wp_act
  intro k ls hi hl _
  refine ⟨trivial, fun r k' he => ?_⟩
  subst hl
  cases he
  refine ⟨{ ls p with probe := sleeps && !(k.proc p).killed, doomed := (k.proc p).killed }, ?_, ?_⟩
  · apply Inv.of_update
    · simpa using hi.locks
    · simpa using hi.own
    · simpa using hi.kin
    · simpa using hi.watch
    · simpa using hi.naps
    · simpa using hi.story
    · simpa using hi.kills.setMe (p := p) (m := (ls p).me)
        (d := (k.proc p).killed) fun hk => ⟨hk, hme⟩
    · simpa using hi.tests.setMe (p := p) (m := (ls p).me)
        (b := sleeps && !(k.proc p).killed) (fun _ => hme) (by simp)
  · cases hk : (k.proc p).killed with
    | true => simpa using ht
    | false => simpa using hf

/-- `p->chan = chan; p->state = SLEEPING`. A process sleeps on its own address in `wait` only, and in
a loop after a test of `killed`. -/
theorem wp_setSleeping {c : Chan n} {b : Bool}
    (hc : l.child = none) (hb : b = true → l.probe = true) (hnap : l.nap = true → c = .proc p)
    (hchan : c = .proc p → l.nap = true)
    (h : Q () { l with me := .parked, probe := false, doomed := false }) :
    (rules nz calm ini).wp p (act (.setSleeping c b)) l Q := by
  refine wp_do (fun _ => rfl) (fun _ => trivial) h ?_
  rintro k ls hi rfl
  have hrun := hi.own.running hme
  apply Inv.of_update_proc rfl
  · simpa using hi.locks
  · simpa using hi.own.setSelf (p := p)
      (t := .sleeping) (m := .parked) (by simp [hrun]) hc (by simp [Stage])
  · simpa using hi.kin.setActive (q := p)
      (t := .sleeping) (by simp [hrun]) (by simp)
  · simpa using hi.watch.setState (q := p)
      (t := .sleeping) (i := (k.proc p).pid) (x := (k.proc p).xstate) (by simp [hrun]) (by simp)
  · cases hn : (ls p).nap with
    | true =>
      obtain rfl := hnap hn
      have := hi.naps.settle hrun hn
      simpa [← hn] using this
    | false =>
      have := hi.naps.rise (p := p) (t := .sleeping) (c := some c) (by simp) fun _ heq => by
        simp [hchan (Option.some.inj heq)] at hn
      simpa using this
  · simpa using hi.story.setState (q := p)
      (t := .sleeping) (i := (k.proc p).pid) (x := (k.proc p).xstate) (by simp [hrun]) (by simp)
  · simpa using (hi.kills.setState (q := p)
      (t := .sleeping) (by simp [hrun]) (by simp)).setMe (p := p) (m := .parked) (d := false)
      (by simp)
  · simpa using hi.tests.settle (p := p) hb

theorem wp_clearChan (h : Q () l) : (rules nz calm ini).wp p (act .clearChan) l Q := by
  refine wp_do (fun _ => rfl) (fun _ => trivial) h ?_
  rintro k ls hi rfl
  apply Inv.of_update_proc rfl
  · simpa using hi.locks
  · simpa using hi.own
  · simpa using hi.kin
  · simpa using hi.watch
  · simpa using hi.naps.clearChan (q := p) (by simp [hi.own.running hme])
  · simpa using hi.story
  · simpa using hi.kills
  · simpa using hi.tests

theorem wp_setYield (hc : l.child = none) (hprobe : l.probe = false) (hdoomed : l.doomed = false)
    (h : Q () { l with me := .parked, nap := false }) :
    (rules nz calm ini).wp p (act .setYield) l Q := by
  refine wp_do (fun _ => rfl) (fun _ => trivial) h ?_
  rintro k ls hi rfl
  have hrun := hi.own.running hme
  apply Inv.of_update_proc rfl
  · simpa using hi.locks
  · simpa using hi.own.setSelf (p := p) (t := .runnable) (m := .parked)
      (by simp [hrun]) hc (by simp [Stage])
  · simpa using hi.kin.setActive (q := p) (t := .runnable) (by simp [hrun])
      (by simp)
  · simpa using hi.watch.setState (q := p) (t := .runnable)
      (i := (k.proc p).pid) (x := (k.proc p).xstate) (by simp [hrun]) (by simp)
  · simpa using hi.naps.rise (p := p) (t := .runnable) (c := (k.proc p).chan)
      (by simp) (by simp)
  · simpa using hi.story.setState (q := p) (t := .runnable)
      (i := (k.proc p).pid) (x := (k.proc p).xstate) (by simp [hrun]) (by simp)
  · simpa using (hi.kills.setState (q := p) (t := .runnable) (by simp [hrun])
      (by simp)).setPhase (p := p) (m := .parked) hdoomed
  · simpa using (hi.tests.setState (q := p) (t := .runnable) (by simp)).setPhase
      (p := p) (m := .parked) (by simp [hprobe])

end

theorem wp_schedOut (hown : .proc p ∈ l.locks) (hme : l.me = .parked)
    (hfacts : l.facts = .none) (h : Q () (l.unlock (.proc p))) :
    (rules nz calm ini).wp p (act .schedOut) l Q := by
  apply wp_act
  intro k ls hi hl _
  refine ⟨trivial, fun _ k' he => ?_⟩
  subst hl
  have hheld := (hi.locks.iff (.proc p) p).mpr hown
  have hst := hi.own.stage p
  simp only [hme, Stage] at hst
  simp only [exec, hheld, if_pos] at he
  cases he
  refine ⟨_, ?_, h⟩
  apply Inv.of_update
  · simpa using hi.locks.release hheld
  · simpa using hi.own.setLocks (p := p) (L := (ls p).locks.erase (.proc p))
      (by simp [hme])
  · simpa using hi.kin
  · simpa using hi.watch.setLocks (p := p) (L := (ls p).locks.erase (.proc p))
      (fun _ => hfacts) (by simp [hfacts, Facts.none])
  · simpa using hi.naps.setLocks (p := p) (L := (ls p).locks.erase (.proc p))
      fun _ hr => by simp [hr] at hst
  · simpa using hi.story
  · simpa using hi.kills
  · simpa using hi.tests

theorem wp_schedIn (hme : l.me = .parked) (hc : l.child = none)
    (hprobe : l.probe = false) (hdoomed : l.doomed = false)
    (h : .proc p ∉ l.locks → Q () { l.lock (.proc p) with me := .running, nap := false }) :
    (rules nz calm ini).wp p (act .schedIn) l Q := by
  apply wp_act
  intro k ls hi hl _
  refine ⟨trivial, fun _ k' he => ?_⟩
  subst hl
  simp only [exec] at he
  split_ifs at he with hpick
  obtain ⟨hfree, hst⟩ := hpick
  cases he
  refine ⟨_, ?_, h (hi.locks.not_mem hfree)⟩
  apply Inv.of_update_proc rfl
  · simpa using hi.locks.acquire hfree
  · simpa using (hi.own.setSelf (p := p) (t := .running)
      (m := .running) (by simp [hst]) hc (by simp [Stage])).setLocks (p := p)
      (L := insert (.proc p) (ls p).locks) (by simp)
  · simpa using hi.kin.setActive (q := p) (t := .running)
      (by simp [hst]) (by simp)
  · simpa using (hi.watch.setState (q := p) (t := .running)
      (i := (k.proc p).pid) (x := (k.proc p).xstate) (by simp [hst]) (by simp)).setLocks (p := p)
      (L := insert (.proc p) (ls p).locks)
      (fun hno => hi.watch.none p fun hmem => hno (Finset.mem_insert_of_mem hmem))
      fun x hx => Finset.mem_insert_of_mem ((hi.watch.good p).prey x hx).1
  · simpa using (hi.naps.rise (p := p) (t := .running)
      (c := (k.proc p).chan) (by simp) (by simp)).setLocks (p := p)
      (L := insert (.proc p) (ls p).locks) (by simp)
  · simpa using hi.story.setState (q := p) (t := .running)
      (i := (k.proc p).pid) (x := (k.proc p).xstate) (by simp [hst]) (by simp)
  · simpa using (hi.kills.setState (q := p) (t := .running)
      (by simp [hst]) (by simp)).setPhase (p := p) (m := .running) hdoomed
  · simpa using (hi.tests.setState (q := p) (t := .running)
      (by simp)).setPhase (p := p) (m := .running) (by simp [hprobe])

/-! ## What the holder of `wait_lock` reads -/

/-- An action that only reads, and from which the holder of `wait_lock` learns something. -/
theorem wp_learn {a : Act n} {v : Kernel n → a.Answer} {Q : a.Answer → Hold n → Prop}
    (hexec : ∀ k, exec ini p a k = .ok (v k) k) (hsafe : ∀ k ls, Inv nz calm ini k ls → ls p = l → Orderly p a k) (hw : .wait ∈ l.locks)
    (h : ∀ k ls, Inv nz calm ini k ls → ls p = l → ∃ f : Facts n,
      f.Good (fun q => (k.proc q).state) (fun q => (k.proc q).parent) (fun q => (k.proc q).pid)
        (fun q => (k.proc q).xstate) l.locks p ∧
      f.awake = l.facts.awake ∧ f.leaving = l.facts.leaving ∧ Q (v k) (l.know f)) :
    (rules nz calm ini).wp p (act a) l Q := by
  apply wp_act
  intro k ls hi hl _
  refine ⟨hsafe k ls hi hl, fun r k' he => ?_⟩
  rw [hexec] at he
  cases he
  obtain ⟨f, hgood, hawake, hleave, hq⟩ := h k ls hi hl
  subst hl
  refine ⟨(ls p).know f, ?_, hq⟩
  apply Inv.of_update
  · simpa using hi.locks
  · simpa using hi.own
  · simpa using hi.kin
  · simpa using hi.watch.setFacts (p := p) (fun hno => (hno hw).elim) hgood
  · simpa using hi.naps.setFacts (p := p) (f := f) (hawake ▸ hi.naps.awake p)
      fun hl => Or.inl (hleave.trans hl)
  · simpa using hi.story.setFacts (p := p) (f := f) hleave.trans
  · simpa using hi.kills
  · simpa using hi.tests

variable (hw : .wait ∈ l.locks)
include hw

theorem wp_isChild {Q : Bool → Hold n → Prop} (ht : Q true (l.know { l.facts with kid := some q }))
    (hf : Q false (l.know { l.facts with
      barren := insert q l.facts.barren
      seen := insert q l.facts.seen })) :
    (rules nz calm ini).wp p (act (.isChild q)) l Q := by
  refine wp_learn (a := .isChild q) (fun _ => rfl) (fun _ _ _ _ => trivial) hw fun k ls hi hl => ?_
  have hgood := hi.watch.good p
  rw [hl] at hgood
  by_cases hq : (k.proc q).parent = some p
  · refine ⟨{ l.facts with kid := some q }, { hgood with kid := ?_ }, rfl, rfl,
      by simpa [hq] using ht⟩
    simpa using hq
  · refine ⟨{ l.facts with
        barren := insert q l.facts.barren
        seen := insert q l.facts.seen },
      { hgood with barren := ?_, seen := ?_ }, rfl, rfl, by simpa [hq] using hf⟩
    · simpa using ⟨hq, hgood.barren⟩
    · simpa using ⟨fun hpar => (hq hpar).elim, hgood.seen⟩

theorem wp_getParent {Q : Option (Fin n) → Hold n → Prop} (hme : l.me = .running) (hne : p ≠ ini)
    (h : ∀ r, Q (some r) (l.know { l.facts with father := some r })) :
    (rules nz calm ini).wp p (act .getParent) l Q := by
  refine wp_learn (a := .getParent) (fun _ => rfl) (fun _ _ _ _ => trivial) hw fun k ls hi hl => ?_
  have hgood := hi.watch.good p
  have hrun := hi.own.running (p := p) (by rw [hl, hme])
  rw [hl] at hgood
  obtain ⟨r, hr⟩ := Option.ne_none_iff_exists'.mp (hi.kin.live p (by simp [hrun, ProcState.Live]) hne)
  refine ⟨{ l.facts with father := some r }, { hgood with father := ?_ }, rfl, rfl, ?_⟩
  · simpa using hr
  · simpa [hr] using h r

theorem wp_isZombie {Q : Bool → Hold n → Prop} (hq : .proc q ∈ l.locks)
    (hkid : l.facts.kid = some q)
    (ht : Q true (l.know { l.facts with prey := some ⟨q, none, none⟩ }))
    (hf : Q false (l.know { l.facts with seen := insert q l.facts.seen })) :
    (rules nz calm ini).wp p (act (.isZombie q)) l Q := by
  refine wp_learn (a := .isZombie q) (fun _ => rfl) (fun _ _ _ _ => trivial) hw fun k ls hi hl => ?_
  have hgood := hi.watch.good p
  rw [hl] at hgood
  by_cases hz : (k.proc q).state = .zombie
  · refine ⟨{ l.facts with prey := some ⟨q, none, none⟩ }, { hgood with prey := ?_ }, rfl, rfl,
      by simpa [hz] using ht⟩
    simpa [hz, hq] using hgood.kid q hkid
  · refine ⟨{ l.facts with seen := insert q l.facts.seen }, { hgood with seen := ?_ }, rfl, rfl,
      by simpa [hz] using hf⟩
    simpa using ⟨fun _ => hz, hgood.seen⟩

theorem wp_getPid_prey {s : Option Int} {Q : Int → Hold n → Prop}
    (hprey : l.facts.prey = some ⟨q, none, s⟩)
    (h : ∀ v, Q v (l.know { l.facts with prey := some ⟨q, some v, s⟩ })) :
    (rules nz calm ini).wp p (act (.getPid q)) l Q := by
  refine wp_learn (a := .getPid q) (fun _ => rfl) (fun k ls hi hl => ?_) hw fun k ls hi hl => ?_
  · have hgood := hi.watch.good p
    rw [hl] at hgood
    simp [Orderly, (hgood.prey _ hprey).2.1]
  have hgood := hi.watch.good p
  rw [hl] at hgood
  obtain ⟨hlk, hz, hpar, -, hs⟩ := hgood.prey _ hprey
  refine ⟨{ l.facts with prey := some ⟨q, some (k.proc q).pid, s⟩ }, { hgood with prey := ?_ }, rfl,
    rfl, h (k.proc q).pid⟩
  rintro x hx
  obtain rfl := Option.some.inj hx
  exact ⟨hlk, hz, hpar, fun v hv => Option.some.inj hv, hs⟩

theorem wp_getXstate {i : Option Int} {Q : Int → Hold n → Prop}
    (hprey : l.facts.prey = some ⟨q, i, none⟩)
    (h : ∀ v, Q v (l.know { l.facts with prey := some ⟨q, i, some v⟩ })) :
    (rules nz calm ini).wp p (act (.getXstate q)) l Q := by
  refine wp_learn (a := .getXstate q) (fun _ => rfl) (fun _ _ _ _ => trivial) hw fun k ls hi hl => ?_
  have hgood := hi.watch.good p
  rw [hl] at hgood
  obtain ⟨hlk, hz, hpar, hi', -⟩ := hgood.prey _ hprey
  refine ⟨{ l.facts with prey := some ⟨q, i, some (k.proc q).xstate⟩ }, { hgood with prey := ?_ },
    rfl, rfl, h (k.proc q).xstate⟩
  rintro x hx
  obtain rfl := Option.some.inj hx
  exact ⟨hlk, hz, hpar, hi', fun v hv => Option.some.inj hv⟩

end Xv6.Procs
