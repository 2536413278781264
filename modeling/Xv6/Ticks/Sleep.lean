import Xv6.Foundation.Outline

/-!
# `sys_sleep` and the clock

`sys_sleep` of `sysproc.c` and `clockintr` of `trap.c`, as sections under `tickslock`. Processes
call `sys_sleep`; the clock interrupts a process, or the scheduler of a CPU, anywhere but under a
lock, and runs `clockintr` in its place. Beside the counter `ticks`, which wraps, the model counts
the clock interrupts themselves.
-/

namespace Xv6.Ticks

open Xv6.Foundation Monitor

set_option autoImplicit false

/-- `count` is the number of clock interrupts so far. -/
structure Clock where
  ticks : BitVec 32
  count : Nat
  deriving DecidableEq

/-- A call of `sys_sleep(n)` that has read `ticks` into `ticks0`, at which time there had been
`start` interrupts. -/
structure Call where
  n : BitVec 32
  ticks0 : BitVec 32
  start : Nat
  deriving DecidableEq

/-- Where a thread was when an interrupt came: in other code, or before an `acquire` of `tickslock`
in `sys_sleep(n)` or in its `sleep`. -/
inductive Interrupted where
  | elsewhere
  | entry (n : BitVec 32)
  | loop (c : Call)
  deriving DecidableEq

/-- Points under `tickslock`: the start of `sys_sleep(n)` and its loop, `ticks++` and the end of
`clockintr`. -/
inductive Point where
  | entry (n : BitVec 32)
  | loop (c : Call)
  | clockintr (back : Interrupted)
  | ticked (back : Interrupted)
  deriving DecidableEq

/-- `sys_sleep` has returned `result`, when there had been `stop` interrupts. -/
structure Returned where
  call : Call
  stop : Nat
  result : Int
  deriving DecidableEq

def Interrupted.point : Interrupted → Option Point
  | .elsewhere => none
  | .entry n => some (.entry n)
  | .loop c => some (.loop c)

/-- The processes, and the schedulers of the CPUs. -/
abbrev Thread (n m : Nat) := Fin n ⊕ Fin m

variable {n m : Nat}

/-- `killed` is what a step finds in `myproc()->killed`. -/
def next (_ : Thread n m) (killed : Bool) (d : Clock) : Point → Next Clock Point Returned
  | .entry n => .goto d (.loop ⟨n, d.ticks, d.count⟩)
  | .loop c =>
    -- The difference is unsigned, and so the comparison is: `n` is converted.
    if d.ticks - c.ticks0 < c.n then
      if killed then .done d none (some ⟨c, d.count, -1⟩) else .sleep (.loop c)
    else .done d none (some ⟨c, d.count, 0⟩)
  | .clockintr back => .wake ⟨d.ticks + 1, d.count + 1⟩ (.ticked back)
  | .ticked back => .done d back.point none

def enters : Thread n m → Option Point → Point → Clock → Bool
  | .inl _, none, .entry _, _ => true
  | _, o, .clockintr back, _ => decide (o = back.point)
  | _, _, _, _ => false

def program (n m : Nat) : Program (Thread n m) Clock Point Bool Returned where
  procs := (List.finRange n).map .inl
  enters := enters
  outer _ _ _ := none
  next := next

def init (t : BitVec 32) : Clock := ⟨t, 0⟩

def ticksAt (t : BitVec 32) (c : Nat) : BitVec 32 := t + BitVec.ofNat 32 c

theorem ticksAt_succ (t : BitVec 32) (c : Nat) : ticksAt t c + 1 = ticksAt t (c + 1) := by
  unfold ticksAt
  rw [BitVec.ofNat_add, BitVec.add_assoc]
  rfl

/-- The difference of two readings is the number of interrupts in between, up to `2 ^ 32`. -/
theorem toNat_ticksAt_sub (t : BitVec 32) {c start : Nat} (h : start ≤ c) :
    (ticksAt t c - ticksAt t start).toNat = (c - start) % 2 ^ 32 := by
  unfold ticksAt
  bv_omega

/-- Where the thread is in `sys_sleep`, when the clock does not interrupt it. -/
def Point.context : Point → Interrupted
  | .entry n => .entry n
  | .loop c => .loop c
  | .clockintr back | .ticked back => back

/-- Only processes call `sys_sleep`, and a call has read the counter when there had been `start`
interrupts. -/
def Interrupted.Fits (t : BitVec 32) (p : Thread n m) (d : Clock) : Interrupted → Prop
  | .elsewhere => True
  | .entry _ => p.isLeft
  | .loop c => p.isLeft ∧ c.ticks0 = ticksAt t c.start ∧ c.start ≤ d.count

def Clock.Counts (t : BitVec 32) (d : Clock) : Prop := d.ticks = ticksAt t d.count

def outline (n m : Nat) (t : BitVec 32) : Outline (Thread n m) Clock Point where
  free := Clock.Counts t
  out p o d := ∀ k, o = some k → k.context.Fits t p d
  inside p k d := k.context.Fits t p d ∧ d.Counts t
  blocked _ := True
  owes _ _ _ := False

variable {t : BitVec 32} {d d' : Clock} {p : Thread n m}

theorem Interrupted.Fits.mono {i : Interrupted} (h : i.Fits t p d) (hd : d.count ≤ d'.count) :
    i.Fits t p d' := by
  cases i with
  | elsewhere => trivial
  | entry n => exact h
  | loop c => exact ⟨h.1, h.2.1, h.2.2.trans hd⟩

theorem spares_of_count_le (hd : d.count ≤ d'.count) : (outline n m t).Spares p d d' :=
  fun _ _ _ ho k hk => (ho k hk).mono hd

theorem Interrupted.context_point {i : Interrupted} {k : Point} (h : i.point = some k) :
    k.context = i := by
  cases i with
  | elsewhere => cases h
  | entry n | loop c =>
    cases h
    rfl

theorem mem_procs (hp : p.isLeft) : p ∈ (program n m).procs := by
  obtain ⟨i, rfl⟩ := Sum.isLeft_iff.mp hp
  exact List.mem_map_of_mem (List.mem_finRange i)

theorem post_next (killed : Bool) {k : Point} (h : (outline n m t).inside p k d) :
    (outline n m t).Post (program n m).procs p k d (next p killed d k) := by
  have same : (outline n m t).Spares p d d := spares_of_count_le (Nat.le_refl _)
  cases k with
  | entry n => exact ⟨⟨⟨h.1, h.2, Nat.le_refl _⟩, h.2⟩, same, fun _ => Or.inl trivial⟩
  | loop c =>
    have hdone (e : Returned) : (outline n m t).Post (program n m).procs p (.loop c) d
        (.done d none (some e)) :=
      ⟨h.2, (fun _ hk => nomatch hk), same, fun _ => trivial⟩
    rw [next]
    split_ifs with hlt hkilled
    · exact hdone _
    · refine ⟨mem_procs h.1.1, h.2, trivial, ?_⟩
      rintro _ ⟨⟩
      exact h.1
    · exact hdone _
  | clockintr back =>
    have hd : d.count ≤ d.count + 1 := Nat.le_succ _
    refine ⟨⟨h.1.mono hd, ?_⟩, spares_of_count_le hd⟩
    show d.ticks + 1 = ticksAt t (d.count + 1)
    rw [← ticksAt_succ, ← h.2]
  | ticked back =>
    refine ⟨h.2, fun k hk => ?_, same, fun _ => trivial⟩
    rw [Interrupted.context_point hk]
    exact h.1

theorem outline_valid (n m : Nat) (t : BitVec 32) : (outline n m t).Valid (program n m) where
  call := by
    rintro p o k d ho he _ ⟨⟩
    cases k with
    | entry n =>
      cases p with
      | inl i => rfl
      | inr i => cases he
    | clockintr back =>
      have hb : o = back.point := by
        cases p <;> cases o <;> simpa [program, enters] using he
      cases hi : back.point with
      | none =>
        cases back with
        | elsewhere => trivial
        | entry n | loop c => cases hi
      | some k' =>
        have hk := ho k' (hb.trans hi)
        rwa [Interrupted.context_point hi] at hk
    | loop c | ticked back => cases p <;> cases o <;> cases he
  outer := by
    intro p x d d' _ ho
    cases ho
  enter := fun p k d hf ho => ⟨ho k rfl, hf⟩
  next := fun p x k d h => post_next x h

variable {s : State (Thread n m) Clock Point} {ev : List Returned}

theorem outlined (h : Reaches (program n m) (init t) ev s) :
    Outlined (outline n m t) (program n m) s := by
  refine Reaches.outlined (outline_valid n m t) ?_ (fun _ _ hk => nomatch hk) h
  show t = t + BitVec.ofNat 32 0
  simp

/-- The number of clock interrupts since the call has read the counter. -/
def Call.elapsed (c : Call) (d : Clock) : Nat := d.count - c.start

theorem loop_test {c : Call} (h : (outline n m t).inside p (.loop c) d) :
    d.ticks - c.ticks0 < c.n ↔ c.elapsed d % 2 ^ 32 < c.n.toNat := by
  obtain ⟨⟨-, h0, hle⟩, hd⟩ := h
  rw [BitVec.lt_def, hd, h0, toNat_ticksAt_sub t hle, Call.elapsed]

theorem toInt_le_toNat (n : BitVec 32) : n.toInt ≤ n.toNat := by
  rw [BitVec.toInt_eq_toNat_cond]
  split <;> omega

theorem toInt_eq_toNat_of_nonneg {n : BitVec 32} (h : 0 ≤ n.toInt) : n.toInt = n.toNat := by
  have hn := n.isLt
  rw [BitVec.toInt_eq_toNat_cond] at h ⊢
  split <;> omega

/-- A result of zero does not come before `max(n, 0)` interrupts. -/
def Returned.NotEarly (e : Returned) : Prop :=
  e.result = 0 → max e.call.n.toInt 0 ≤ (e.stop : Int) - e.call.start

theorem step_notEarly {e : Returned} {s' : State (Thread n m) Clock Point}
    (h : Outlined (outline n m t) (program n m) s) (hs : Step (program n m) s (some e) s') :
    e.NotEarly := by
  intro h0
  cases hs.move with
  | @done p killed k d' back _ hpc hn =>
    have hin := h.at_pc hpc
    cases k with
    | entry n | clockintr back | ticked back => cases hn
    | loop c =>
      have htest := loop_test hin
      have hle : c.start ≤ s.data.count := hin.1.2.2
      have hcmp := toInt_le_toNat c.n
      change next p killed s.data (.loop c) = _ at hn
      rw [next] at hn
      split_ifs at hn with hlt
      · cases hn
        cases h0
      · cases hn
        rw [htest, Call.elapsed] at hlt
        show max c.n.toInt 0 ≤ (s.data.count : Int) - c.start
        omega

/-- A call of `sys_sleep(n)` does not return zero before `max(n, 0)` clock interrupts have come
since it read the counter. Unless it is killed, it returns zero at every check, and so at the first,
that is made after so many and before `2 ^ 32` have come, if `n` is not negative. -/
theorem sys_sleep_waits (h : Reaches (program n m) (init t) ev s) :
    (∀ e ∈ ev, e.NotEarly) ∧
    ∀ p c, s.pc p = .body (.loop c) → 0 ≤ c.n.toInt → c.elapsed s.data < 2 ^ 32 →
      max c.n.toInt 0 ≤ c.elapsed s.data →
      next p false s.data (.loop c) = .done s.data none (some ⟨c, s.data.count, 0⟩) := by
  constructor
  · refine Run.invariant (I := fun ev _ => ∀ e ∈ ev, Returned.NotEarly e) (by simp)
      (fun _ _ _ _ hi _ => hi) (fun ev s s' e hr hi hs => ?_) h
    rw [List.forall_mem_cons]
    exact ⟨step_notEarly (outlined hr) hs, hi⟩
  · intro p c hpc hn hlt hle
    rw [next, if_neg]
    rw [loop_test ((outlined h).at_pc hpc), Nat.mod_eq_of_lt hlt]
    have := toInt_eq_toNat_of_nonneg hn
    omega

def steps (k : Nat) : List (Label (Thread 1 1) Point Bool) := List.replicate k (.run (.inl 0) false)

def tick : List (Label (Thread 1 1) Point Bool) :=
  .call (.inr 0) (.clockintr .elsewhere) :: List.replicate 5 (.run (.inr 0) false)

def calls (n : BitVec 32) : List (Label (Thread 1 1) Point Bool) := [.call (.inl 0) (.entry n)]

/-- `sys_sleep(2)` from the last value of the counter on, up to the check after two interrupts. -/
def acrossWrap : State (Thread 1 1) Clock Point :=
  after (exec (program 1 1)) (calls 2 ++ steps 7 ++ tick ++ steps 7 ++ tick ++ steps 2)
    (boot (init (-1)))

theorem sys_sleep_waits_wrapped :
    acrossWrap.data.ticks = 1 ∧
    next (.inl 0 : Thread 1 1) false acrossWrap.data (.loop ⟨2, -1, 0⟩) =
      .done acrossWrap.data none (some ⟨⟨2, -1, 0⟩, 2, 0⟩) := by
  obtain ⟨ev, hr⟩ : ∃ ev, Reaches (program 1 1) (init (-1)) ev acrossWrap :=
    Run.after (fun l _ _ _ h => ⟨l, h⟩) (by decide +kernel)
  exact ⟨by decide +kernel, (sys_sleep_waits hr).2 (.inl 0) ⟨2, -1, 0⟩ (by rfl) (by decide)
    (by decide +kernel) (by decide +kernel)⟩

/-- The first check of `sys_sleep(-1)`: no interrupt has to come, and the process goes to sleep. -/
def negative : State (Thread 1 1) Clock Point :=
  after (exec (program 1 1)) (calls (-1) ++ steps 2) (boot (init 0))

theorem sys_sleep_negative :
    (∃ ev, Reaches (program 1 1) (init 0) ev negative) ∧
    negative.pc (.inl 0) = .body (.loop ⟨-1, 0, 0⟩) ∧
    max (-1 : BitVec 32).toInt 0 ≤ (⟨-1, 0, 0⟩ : Call).elapsed negative.data ∧
    next (.inl 0 : Thread 1 1) false negative.data (.loop ⟨-1, 0, 0⟩) = .sleep (.loop ⟨-1, 0, 0⟩) :=
  ⟨Run.after (fun l _ _ _ h => ⟨l, h⟩) (by decide +kernel), rfl, by decide +kernel, rfl⟩

end Xv6.Ticks
