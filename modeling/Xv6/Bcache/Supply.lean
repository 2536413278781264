import Xv6.Bcache.Counts

/-!
# The supply of buffers, action by action

The invariant of the cache and the log under any number of processes, with the rule of each action.
`bget` finds a buffer as long as the references of all processes and the blocks recorded in the log
are fewer than `NBUF`.
-/

namespace Xv6.Bcache

open Xv6.Foundation Xv6.Disk Xv6.GroupCommit Function

set_option autoImplicit false

/-- What a process holds: references with the block of each, and, while it commits, the blocks of the
transaction with the number of those it has unpinned. -/
structure Hold where
  refs : Multiset (Nat × Nat)
  commit : Option (List Nat × Nat)

section
variable {P : Type}

structure Pinned (lh : List Nat) (commit : P → Option (List Nat × Nat)) (pins : List Nat) :
    Prop where
  rest : ∀ p bs u, commit p = some (bs, u) → pins = bs.drop u
  all : (∀ p, commit p = none) → pins = lh

/-- At most one process commits, and the log is its own meanwhile. -/
structure Roles (log : Log) (commit : P → Option (List Nat × Nat)) : Prop where
  owner : ∀ p bs u, commit p = some (bs, u) →
    log.lh = bs ∧ log.committing = true ∧ log.outstanding = 0
  alone : ∀ p q, commit p ≠ none → commit q ≠ none → p = q

namespace Roles
variable {log : Log} {commit : P → Option (List Nat × Nat)} (h : Roles log commit)
include h

theorem nobody (hlog : log.committing = false ∨ 1 ≤ log.outstanding) : ∀ p, commit p = none := by
  intro p
  cases hc : commit p with
  | none => rfl
  | some x =>
    obtain ⟨-, hcom, hout⟩ := h.owner p x.1 x.2 hc
    rcases hlog with hlog | hlog
    · rw [hcom] at hlog
      cases hlog
    · omega

theorem pins_le {pins : List Nat} (hp : Pinned log.lh commit pins) :
    pins.length ≤ log.lh.length := by
  by_cases hn : ∀ p, commit p = none
  · rw [hp.all hn]
  · push Not at hn
    obtain ⟨p, hp'⟩ := hn
    obtain ⟨⟨bs, u⟩, hc⟩ := Option.ne_none_iff_exists'.mp hp'
    rw [hp.rest p bs u hc, (h.owner p bs u hc).1, List.length_drop]
    omega

end Roles

theorem Roles.of_none {log : Log} {commit : P → Option (List Nat × Nat)}
    (h : ∀ p, commit p = none) : Roles log commit := by
  constructor
  · intro p bs u hc
    rw [h p] at hc
    cases hc
  · exact fun p _ hc _ => absurd (h p) hc

theorem Pinned.of_none {lh pins : List Nat} {commit : P → Option (List Nat × Nat)}
    (h : ∀ p, commit p = none) (hpins : pins = lh) : Pinned lh commit pins := by
  refine ⟨?_, fun _ => hpins⟩
  intro p bs u hc
  rw [h p] at hc
  cases hc

section Sole
variable [DecidableEq P] {p : P} {commit : P → Option (List Nat × Nat)}

theorem update_commit {c : Option (List Nat × Nat)} (h : ∀ q, q ≠ p → commit q = none) {q : P}
    (hc : update commit p c q ≠ none) : q = p := by
  by_contra hq
  rw [update_of_ne hq, h q hq] at hc
  exact hc rfl

theorem Roles.sole {log : Log} {bs : List Nat} {u : Nat} (h : ∀ q, q ≠ p → commit q = none)
    (hlog : log.lh = bs ∧ log.committing = true ∧ log.outstanding = 0) :
    Roles log (update commit p (some (bs, u))) := by
  constructor
  · intro q bs' u' hc
    obtain rfl := update_commit h (by rw [hc]; simp)
    rw [update_self] at hc
    cases hc
    exact hlog
  · intro q r hq hr
    rw [update_commit h hq, update_commit h hr]

theorem Pinned.sole {lh bs pins : List Nat} {u : Nat} (h : ∀ q, q ≠ p → commit q = none)
    (hpins : pins = bs.drop u) : Pinned lh (update commit p (some (bs, u))) pins := by
  constructor
  · intro q bs' u' hc
    obtain rfl := update_commit h (by rw [hc]; simp)
    rw [update_self] at hc
    cases hc
    exact hpins
  · intro hall
    have := hall p
    rw [update_self] at this
    cases this

omit [DecidableEq P] in
theorem Roles.others {log : Log} (h : Roles log commit) (hp : commit p ≠ none) :
    ∀ q, q ≠ p → commit q = none := by
  intro q hq
  by_contra hc
  exact hq (h.alone q p hc hp)

end Sole

variable [Fintype P]

structure Inv (s : Cache P) (ls : P → Hold) : Prop where
  refs : ∀ p, s.refs p = (ls p).refs.map Prod.fst
  blocks : ∀ p, ∀ x ∈ (ls p).refs, (s.buf x.1).block = some x.2
  roles : Roles s.log fun p => (ls p).commit
  counts : ∃ pins, Counts s pins ∧ Pinned s.log.lh (fun p => (ls p).commit) pins

def inUse (s : Cache P) : Nat := s.log.lh.length + ∑ p, (s.refs p).card

/-- Whenever a block is not cached, fewer than `NBUF` buffers are referred to. -/
def Room (a : Act) (s : Cache P) : Prop :=
  match a with
  | .bget b => s.cached b = none → inUse s < NBUF
  | _ => True

instance (a : Act) (s : Cache P) : Decidable (Room a s) := by
  cases a <;> dsimp only [Room] <;> infer_instance

/-- `bget` finds the block or a buffer for it. -/
def Finds (a : Act) (s : Cache P) : Prop :=
  match a with
  | .bget b => s.cached b ≠ none ∨ s.unused ≠ none
  | _ => True

variable [DecidableEq P]

def supply (P : Type) [Fintype P] [DecidableEq P] (start : Nat) : Logic (machine P start) Hold where
  guard _ a s := Room a s
  inv := Inv
  safe _ a s := Finds a s
  stops e := e ≠ .bgetNoBuffers
  done _ _ l := l = ⟨0, none⟩

section
variable {start : Nat} {p : P} {s s' : Cache P} {ls : P → Hold} {l l' : Hold}
  {Q : Unit → Hold → Prop} {i b : Nat}

theorem Inv.move (h : Inv s ls) (hlog : s'.log = s.log) (hcommit : l'.commit = (ls p).commit)
    (hcounts : ∀ pins, Counts s pins → Counts s' pins)
    (hrefs : s'.refs = update s.refs p (l'.refs.map Prod.fst))
    (hkept : ∀ q, q ≠ p → ∀ x ∈ (ls q).refs, (s'.buf x.1).block = (s.buf x.1).block)
    (hown : ∀ x ∈ l'.refs, (s'.buf x.1).block = some x.2) : Inv s' (update ls p l') := by
  have hsame := field_update_same Hold.commit hcommit
  constructor
  · intro q
    by_cases hq : q = p
    · subst hq
      simp [hrefs]
    · simp [hrefs, hq, h.refs q]
  · intro q x hx
    by_cases hq : q = p
    · subst hq
      rw [update_self] at hx
      exact hown x hx
    · rw [update_of_ne hq] at hx
      rw [hkept q hq x hx]
      exact h.blocks q x hx
  · rw [hsame, hlog]
    exact h.roles
  · obtain ⟨pins, hc, hp⟩ := h.counts
    rw [hsame, hlog]
    exact ⟨pins, hcounts pins hc, hp⟩

theorem Inv.relog (h : Inv s ls) (hrefs : s'.refs = s.refs) (hl : l'.refs = (ls p).refs)
    (hblock : ∀ i, (s'.buf i).block = (s.buf i).block)
    (hroles : Roles s'.log (update (fun q => (ls q).commit) p l'.commit))
    (hcounts : ∃ pins, Counts s' pins ∧
      Pinned s'.log.lh (update (fun q => (ls q).commit) p l'.commit) pins) :
    Inv s' (update ls p l') := by
  have hupdate := field_update Hold.commit ls p l'
  have hsame : ∀ q, (update ls p l' q).refs = (ls q).refs :=
    congrFun (field_update_same Hold.refs hl)
  constructor
  · intro q
    rw [hrefs, hsame, h.refs q]
  · intro q x hx
    rw [hsame] at hx
    rw [hblock]
    exact h.blocks q x hx
  · rwa [hupdate]
  · rwa [hupdate]

omit [DecidableEq P] in
theorem Inv.mem_refs (h : Inv s ls) (hm : (i, b) ∈ (ls p).refs) :
    i ∈ s.refs p ∧ (s.buf i).block = some b := by
  rw [h.refs p]
  exact ⟨Multiset.mem_map_of_mem Prod.fst hm, h.blocks p _ hm⟩

theorem Inv.get (h : Inv s ls) {x : Slot P} (hx : x.block = some b)
    (hkept : ∀ q, ∀ y ∈ (ls q).refs, y.1 = i → x.block = (s.buf i).block)
    (hcounts : ∀ pins, Counts s pins → Counts ((s.setBuf i x).setRefs p (i ::ₘ s.refs p)) pins) :
    Inv ((s.setBuf i x).setRefs p (i ::ₘ s.refs p))
      (update ls p ⟨(i, b) ::ₘ (ls p).refs, (ls p).commit⟩) := by
  have hblock : ∀ q, ∀ y ∈ (ls q).refs,
      (update s.buf i x y.1).block = (s.buf y.1).block := by
    intro q y hy
    by_cases hi : y.1 = i
    · rw [hi, update_self]
      exact hkept q y hy hi
    · rw [update_of_ne hi]
  refine h.move ?_ ?_ ?_ ?_ ?_ ?_
  · rfl
  · rfl
  · exact hcounts
  · show update s.refs p _ = _
    rw [Multiset.map_cons, ← h.refs p]
  · exact fun q _ => hblock q
  · intro y hy
    show (update s.buf i x y.1).block = some y.2
    rcases Multiset.mem_cons.mp hy with rfl | hy
    · rwa [update_self]
    · rw [hblock p y hy]
      exact h.blocks p y hy

/-! ## The actions -/

/-- To show of an action: that `bget` finds a buffer, what an answer leaves, which panic it may end
in. -/
theorem wp_act {a : Act} {Q : a.Answer → Hold → Prop}
    (h : ∀ s ls, Inv s ls → ls p = l → Room a s → Finds a s ∧
      (∀ r s', exec p a s = .ok r s' → ∃ l', Inv s' (update ls p l') ∧ Q r l') ∧
      ∀ e, exec p a s = .panic e → e ≠ .bgetNoBuffers) : (supply P start).wp p (act a) l Q := by
  apply Logic.wp_lift
  intro s ls hinv hl hroom
  obtain ⟨hfinds, hok, hpanic⟩ := h s ls hinv hl hroom
  refine ⟨hfinds, ?_⟩
  split
  · exact hok _ _ ‹_›
  · exact hpanic _ ‹_›
  · trivial

theorem wp_bget {b : Nat} {Q : Nat → Hold → Prop}
    (hq : ∀ i, Q i ⟨(i, b) ::ₘ l.refs, l.commit⟩) : (supply P start).wp p (act (.bget b)) l Q := by
  apply wp_act
  rintro s ls hinv rfl hroom
  obtain ⟨pins, hcounts, hpinned⟩ := hinv.counts
  have hfinds : s.cached b ≠ none ∨ s.unused ≠ none := by
    by_cases hc : s.cached b = none
    · have hle := hinv.roles.pins_le hpinned
      have hlt : s.log.lh.length + ∑ p, (s.refs p).card < NBUF := hroom hc
      exact .inr (hcounts.exists_unused (by omega))
    · exact .inl hc
  refine ⟨hfinds, ?_, ?_⟩
  · intro i s' he
    simp only [exec, bgetSection] at he
    split at he
    · rename_i j hc
      obtain ⟨hj, hb⟩ := hcounts.lt_of_cached hc
      cases he
      exact ⟨_, hinv.get hb (fun _ _ _ _ => rfl) fun _ h => h.hit hj, hq _⟩
    · rename_i hc
      split at he
      · rename_i j hu
        obtain ⟨hj, hzero⟩ := hcounts.lt_of_unused hu
        cases he
        refine ⟨_, hinv.get rfl ?_ fun _ h => h.miss hu hc, hq _⟩
        -- nobody refers to a buffer whose count is 0
        rintro q y hy rfl
        have hpos := refsTo_pos s.refs q y.1 (hinv.mem_refs hy).1
        have := hcounts.refcnt y.1 hj
        omega
      · cases he
  · intro e he
    simp only [exec, bgetSection] at he
    split at he
    · cases he
    · split at he
      · cases he
      · simp_all

theorem wp_plain {a : Act} {Q : a.Answer → Hold → Prop} (hf : ∀ s : Cache P, Finds a s)
    (hexec : ∀ (s : Cache P) r s', exec p a s = .ok r s' → s' = s ∨
      ∃ i x, x.block = (s.buf i).block ∧ x.refcnt = (s.buf i).refcnt ∧ s' = s.setBuf i x)
    (hpanic : ∀ (s : Cache P) e, exec p a s = .panic e → e ≠ .bgetNoBuffers)
    (hq : ∀ r, Q r l) : (supply P start).wp p (act a) l Q := by
  apply wp_act
  rintro s ls hinv rfl -
  refine ⟨hf s, ?_, hpanic s⟩
  intro r s' he
  refine ⟨ls p, ?_, hq r⟩
  rw [update_eq_self]
  rcases hexec s r s' he with rfl | ⟨i, x, hblock, hrefcnt, rfl⟩
  · exact hinv
  · have hb : ∀ j, ((s.setBuf i x).buf j).block = (s.buf j).block := by
      intro j
      by_cases hj : j = i
      · subst hj
        simpa [Cache.setBuf] using hblock
      · simp [Cache.setBuf, hj]
    have hr : ∀ j, ((s.setBuf i x).buf j).refcnt = (s.buf j).refcnt := by
      intro j
      by_cases hj : j = i
      · subst hj
        simpa [Cache.setBuf] using hrefcnt
      · simp [Cache.setBuf, hj]
    obtain ⟨pins, hc, hp⟩ := hinv.counts
    exact ⟨hinv.refs, fun q y hy => (hb y.1).trans (hinv.blocks q y hy), hinv.roles, pins,
      hc.congr rfl rfl hb hr, hp⟩

theorem wp_acquiresleep {i : Nat} (hq : Q () l) :
    (supply P start).wp p (act (.acquiresleep i)) l Q := by
  refine wp_plain (fun _ => ?_) ?_ ?_ (fun _ => hq)
  · trivial
  · intro s r s' he
    simp only [exec] at he
    split at he <;> cases he
    exact .inr ⟨i, { s.buf i with holder := some p }, rfl, rfl, rfl⟩
  · intro s e he
    simp only [exec] at he
    split at he <;> cases he

theorem wp_diskRead {i : Nat} (hq : Q () l) : (supply P start).wp p (act (.diskRead i)) l Q := by
  refine wp_plain (fun _ => ?_) ?_ ?_ (fun _ => hq)
  · trivial
  · intro s r s' he
    cases he
    exact .inr ⟨i, { s.buf i with valid := true }, rfl, rfl, rfl⟩
  · intro s e he
    cases he

theorem wp_bwrite {i : Nat} (hq : Q () l) : (supply P start).wp p (act (.bwrite i)) l Q := by
  refine wp_plain (fun _ => ?_) ?_ ?_ (fun _ => hq)
  · trivial
  · intro s r s' he
    simp only [exec] at he
    split at he <;> cases he
    exact .inl rfl
  · intro s e he
    simp only [exec] at he
    split at he <;> cases he
    decide

theorem wp_releasesleep {i : Nat} (hq : Q () l) :
    (supply P start).wp p (act (.releasesleep i)) l Q := by
  refine wp_plain (fun _ => ?_) ?_ ?_ (fun _ => hq)
  · trivial
  · intro s r s' he
    simp only [exec] at he
    split at he <;> cases he
    exact .inr ⟨i, { s.buf i with holder := none }, rfl, rfl, rfl⟩
  · intro s e he
    simp only [exec] at he
    split at he <;> cases he
    decide

theorem wp_put {F : Multiset (Nat × Nat)} {c : Option (List Nat × Nat)} (hq : Q () ⟨F, c⟩) :
    (supply P start).wp p (act (.put i)) ⟨(i, b) ::ₘ F, c⟩ Q := by
  apply wp_act
  intro s ls hinv hl _
  refine ⟨trivial, ?_, fun e he => by cases he⟩
  intro r s' he
  cases he
  have hm := hinv.mem_refs (p := p) (i := i) (b := b) (by simp [hl])
  have hblock : ∀ j, ((putSection p i s).buf j).block = (s.buf j).block := by
    intro j
    by_cases hj : j = i
    · subst hj
      simp [putSection, Cache.setBuf, Cache.setRefs]
    · simp [putSection, Cache.setBuf, Cache.setRefs, hj]
  refine ⟨⟨F, c⟩, hinv.move rfl (by rw [hl]) (fun pins h => h.put hm.1) ?_ ?_ ?_, hq⟩
  · show update s.refs p ((s.refs p).erase i) = _
    rw [hinv.refs p, hl, Multiset.map_cons, Multiset.erase_cons_head]
  · exact fun q _ x _ => hblock x.1
  · intro x hx
    rw [hblock]
    exact hinv.blocks p x (by rw [hl]; exact Multiset.mem_cons_of_mem hx)

theorem wp_logWrite (hm : (i, b) ∈ l.refs) (hq : Q () l) :
    (supply P start).wp p (act (.logWrite i)) l Q := by
  apply wp_act
  rintro s ls hinv rfl -
  obtain ⟨hi, hb⟩ := hinv.mem_refs hm
  have hget : (s.buf i).block.getD 0 = b := by rw [hb, Option.getD_some]
  refine ⟨trivial, ?_, ?_⟩
  · intro r s' he
    simp only [exec, logWriteAct, hget] at he
    rcases logWriteSection_cases s.log b with ⟨hsec, -⟩ | ⟨hsec, -⟩ | ⟨hsec, -, -, hout⟩
    · simp [hsec] at he
    · simp [hsec] at he
    -- a transaction is open, so nobody commits and every block of the log is pinned
    have hnone := hinv.roles.nobody (.inr hout)
    obtain ⟨pins, hcounts, hpinned⟩ := hinv.counts
    obtain rfl := hpinned.all hnone
    have hnone' := fun q => (congrFun (update_eq_self p fun q => (ls q).commit) q).trans
      (hnone q)
    simp only [hsec] at he
    refine ⟨ls p, ?_, hq⟩
    split at he
    · rename_i hin
      cases he
      refine hinv.relog rfl rfl (fun _ => rfl) (.of_none hnone') ⟨s.log.lh, ?_, .of_none hnone' ?_⟩
      · exact hcounts.congr rfl rfl (fun _ => rfl) fun _ => rfl
      · exact (if_pos hin).symm
    · rename_i hnot
      cases he
      refine hinv.relog rfl rfl (fun j => ?_) (.of_none hnone')
        ⟨s.log.lh ++ [b], hcounts.pin hi hb hnot, .of_none hnone' ?_⟩
      · by_cases hj : j = i
        · subst hj
          simp [Cache.setBuf, Cache.setLog]
        · simp [Cache.setBuf, Cache.setLog, hj]
      · exact (if_neg hnot).symm
  · intro e he
    simp only [exec, logWriteAct, hget] at he
    rcases logWriteSection_cases s.log b with ⟨hsec, -⟩ | ⟨hsec, -⟩ | ⟨hsec, -, -, -⟩
    · rw [hsec] at he
      cases he
      decide
    · rw [hsec] at he
      cases he
      decide
    · simp [hsec] at he

theorem wp_beginOp (hq : Q () l) : (supply P start).wp p (act .beginOp) l Q := by
  apply wp_act
  rintro s ls hinv rfl -
  refine ⟨trivial, ?_, ?_⟩
  · intro r s' he
    simp only [exec] at he
    rcases beginOpPass_cases s.log with ⟨hpass, -⟩ | ⟨hpass, hcom, -⟩
    · rw [hpass] at he
      cases he
    · rw [hpass] at he
      cases he
      have hnone := hinv.roles.nobody (.inl hcom)
      have hnone' := fun q => (congrFun (update_eq_self p fun q => (ls q).commit) q).trans
        (hnone q)
      obtain ⟨pins, hcounts, hpinned⟩ := hinv.counts
      exact ⟨ls p, hinv.relog rfl rfl (fun _ => rfl) (.of_none hnone')
        ⟨pins, hcounts.congr rfl rfl (fun _ => rfl) fun _ => rfl,
          .of_none hnone' (hpinned.all hnone)⟩, hq⟩
  · intro e he
    simp only [exec] at he
    split at he <;> cases he

theorem wp_endOp {Q : Bool → Hold → Prop} (hlast : ∀ bs, Q true ⟨l.refs, some (bs, 0)⟩)
    (hq : Q false l) : (supply P start).wp p (act .endOp) l Q := by
  apply wp_act
  rintro s ls hinv rfl -
  refine ⟨trivial, ?_, ?_⟩
  · intro r s' he
    simp only [exec] at he
    obtain ⟨pins, hcounts, hpinned⟩ := hinv.counts
    rcases endOpSection_cases s.log with ⟨hsec, -⟩ | ⟨hsec, hcom, hout⟩ | ⟨hsec, hcom, -⟩
    · rw [hsec] at he
      cases he
    · rw [hsec] at he
      cases he
      have hnone := hinv.roles.nobody (.inl hcom)
      refine ⟨⟨(ls p).refs, some (s.log.lh, 0)⟩, hinv.relog rfl rfl (fun _ => rfl)
        (.sole (fun q _ => hnone q) ⟨rfl, rfl, hout⟩) ⟨pins, ?_, .sole (fun q _ => hnone q) ?_⟩,
        hlast _⟩
      · exact hcounts.congr rfl rfl (fun _ => rfl) fun _ => rfl
      · rw [hpinned.all hnone, List.drop_zero]
    · rw [hsec] at he
      cases he
      have hnone := hinv.roles.nobody (.inl hcom)
      have hnone' := fun q => (congrFun (update_eq_self p fun q => (ls q).commit) q).trans
        (hnone q)
      exact ⟨ls p, hinv.relog rfl rfl (fun _ => rfl) (.of_none hnone')
        ⟨pins, hcounts.congr rfl rfl (fun _ => rfl) fun _ => rfl,
          .of_none hnone' (hpinned.all hnone)⟩, hq⟩
  · intro e he
    simp only [exec] at he
    rcases endOpSection_cases s.log with ⟨hsec, -⟩ | ⟨hsec, -, -⟩ | ⟨hsec, -, -⟩
    · rw [hsec] at he
      cases he
      decide
    · rw [hsec] at he
      cases he
    · rw [hsec] at he
      cases he

section Commit
variable {F : Multiset (Nat × Nat)} {bs : List Nat} {u : Nat} {Q : Unit → Hold → Prop}

theorem wp_logLength {Q : Nat → Hold → Prop} (hq : Q bs.length ⟨F, some (bs, u)⟩) :
    (supply P start).wp p (act .logLength) ⟨F, some (bs, u)⟩ Q := by
  apply wp_act
  intro s ls hinv hl _
  refine ⟨trivial, ?_, fun e he => by cases he⟩
  intro r s' he
  cases he
  rw [(hinv.roles.owner p bs u (by rw [hl])).1]
  exact ⟨_, by rwa [← hl, update_eq_self], hq⟩

theorem wp_logBlock {tail : Nat} {Q : Nat → Hold → Prop}
    (hq : Q (bs.getD tail 0) ⟨F, some (bs, u)⟩) :
    (supply P start).wp p (act (.logBlock tail)) ⟨F, some (bs, u)⟩ Q := by
  apply wp_act
  intro s ls hinv hl _
  refine ⟨trivial, ?_, fun e he => by cases he⟩
  intro r s' he
  cases he
  rw [(hinv.roles.owner p bs u (by rw [hl])).1]
  exact ⟨_, by rwa [← hl, update_eq_self], hq⟩

theorem wp_bunpin {i b : Nat} (hm : (i, b) ∈ F)
    (hb : bs.drop u = b :: bs.drop (u + 1)) (hq : Q () ⟨F, some (bs, u + 1)⟩) :
    (supply P start).wp p (act (.bunpin i)) ⟨F, some (bs, u)⟩ Q := by
  apply wp_act
  intro s ls hinv hl _
  refine ⟨trivial, ?_, fun e he => by cases he⟩
  intro r s' he
  cases he
  have hc : (ls p).commit = some (bs, u) := by rw [hl]
  obtain ⟨hi, hblock⟩ := hinv.mem_refs (p := p) (by rw [hl]; exact hm)
  have hothers := hinv.roles.others (p := p) (by rw [hc]; simp)
  obtain ⟨pins, hcounts, hpinned⟩ := hinv.counts
  have hpins := (hpinned.rest p bs u hc).trans hb
  refine ⟨⟨F, some (bs, u + 1)⟩, hinv.relog rfl (by rw [hl]) (fun j => ?_)
    (.sole hothers (hinv.roles.owner p bs u hc)) ⟨_, hcounts.unpin hpins hi hblock,
      .sole hothers rfl⟩, hq⟩
  by_cases hj : j = i
  · subst hj
    simp [Cache.setBuf]
  · simp [Cache.setBuf, hj]

theorem wp_clear (hu : u = bs.length) (hq : Q () ⟨F, some ([], 0)⟩) :
    (supply P start).wp p (act .clear) ⟨F, some (bs, u)⟩ Q := by
  apply wp_act
  intro s ls hinv hl _
  refine ⟨trivial, ?_, fun e he => by cases he⟩
  intro r s' he
  cases he
  have hc : (ls p).commit = some (bs, u) := by rw [hl]
  have hothers := hinv.roles.others (p := p) (by rw [hc]; simp)
  obtain ⟨pins, hcounts, hpinned⟩ := hinv.counts
  obtain ⟨-, hcom, hout⟩ := hinv.roles.owner p bs u hc
  refine ⟨⟨F, some ([], 0)⟩, hinv.relog rfl (by rw [hl]) (fun _ => rfl)
    (.sole hothers ⟨rfl, hcom, hout⟩) ⟨pins, ?_, .sole hothers ?_⟩, hq⟩
  · exact hcounts.congr rfl rfl (fun _ => rfl) fun _ => rfl
  · rw [hpinned.rest p bs u hc, hu, List.drop_length, List.drop_nil]

theorem wp_finish (hq : Q () ⟨F, none⟩) :
    (supply P start).wp p (act .finish) ⟨F, some ([], 0)⟩ Q := by
  apply wp_act
  intro s ls hinv hl _
  refine ⟨trivial, ?_, fun e he => by cases he⟩
  intro r s' he
  cases he
  have hc : (ls p).commit = some ([], 0) := by rw [hl]
  have hothers := hinv.roles.others (p := p) (by rw [hc]; simp)
  have hnone : ∀ q, update (fun q => (ls q).commit) p none q = none := by
    intro q
    by_contra hq
    obtain rfl := update_commit hothers hq
    exact hq (update_self ..)
  obtain ⟨pins, hcounts, hpinned⟩ := hinv.counts
  refine ⟨⟨F, none⟩, hinv.relog rfl (by rw [hl]) (fun _ => rfl) (.of_none hnone)
    ⟨pins, hcounts.congr rfl rfl (fun _ => rfl) fun _ => rfl, .of_none hnone ?_⟩, hq⟩
  rw [hpinned.rest p [] 0 hc]
  exact (hinv.roles.owner p [] 0 hc).1.symm

end Commit

end

end

end Xv6.Bcache
