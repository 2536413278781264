import Xv6.Foundation.Outline
import Xv6.Foundation.Ring

/-!
# The output buffer of the UART

`uartputc`, `uartstart` and the output half of `uartintr` of `uart.c`, as sections under
`uart_tx_lock`. Processes call `uartputc`; an interrupt finds a process, or the scheduler of a CPU,
anywhere but under a lock, and runs `uartintr` in its place.
-/

namespace Xv6.Uart

open Xv6.Foundation Monitor

set_option autoImplicit false

abbrev Byte := BitVec 8

def UART_TX_BUF_SIZE : Nat := 32

/-- `uart_tx_w` and `uart_tx_r` are `uint64`. -/
def UINT64 : Nat := 2 ^ 64

/-- The buffer, and the bytes that `uartputc` has accepted and that `uartstart` has written to
`THR`, oldest first. -/
structure Tx where
  buf : Nat → Byte
  w : Nat
  r : Nat
  accepted : List Byte
  sent : List Byte

/-- Where a thread was when an interrupt came: in other code, or before an `acquire` of
`uart_tx_lock` in `uartputc(c)` or in its `sleep`. -/
inductive Interrupted where
  | elsewhere
  | putc (c : BitVec 32)
  | loop (c : BitVec 32)
  deriving DecidableEq

/-- Points under `uart_tx_lock`: the test of `panicked` and the loop of `uartputc`, the loop of
`uartstart` and its `WriteReg(THR, c)`. -/
inductive Point where
  | putc (c : BitVec 32)
  | panicked
  | loop (c : BitVec 32)
  | start (back : Interrupted)
  | thr (c : Byte) (back : Interrupted)
  deriving DecidableEq

/-- What a step reads: `panicked`, and `LSR_TX_IDLE`. -/
structure Reads where
  panicked : Bool
  idle : Bool

def Interrupted.point : Interrupted → Option Point
  | .elsewhere => none
  | .putc c => some (.putc c)
  | .loop c => some (.loop c)

def Tx.Full (d : Tx) : Prop := d.w = (d.r + UART_TX_BUF_SIZE) % UINT64

instance (d : Tx) : Decidable d.Full := inferInstanceAs (Decidable (_ = _))

/-- The processes, and the schedulers of the CPUs. -/
abbrev Thread (n m : Nat) := Fin n ⊕ Fin m

variable {n m : Nat}

def next (_ : Thread n m) (x : Reads) (d : Tx) : Point → Next Tx Point Empty
  | .putc c => .goto d (if x.panicked then .panicked else .loop c)
  | .panicked => .goto d .panicked
  | .loop c =>
    if d.Full then .sleep (.loop c)
    else
      .goto { d with
        buf := Function.update d.buf (d.w % UART_TX_BUF_SIZE) (c.setWidth 8)
        w := (d.w + 1) % UINT64
        accepted := d.accepted ++ [c.setWidth 8] } (.start .elsewhere)
  | .start back =>
    if d.w = d.r then .done d back.point none
    else if x.idle = false then .done d back.point none
    else
      .wake { d with r := (d.r + 1) % UINT64 } (.thr (d.buf (d.r % UART_TX_BUF_SIZE)) back)
  | .thr c back => .goto { d with sent := d.sent ++ [c] } (.start back)

def enters : Thread n m → Option Point → Point → Tx → Bool
  | .inl _, none, .putc _, _ => true
  | _, o, .start back, _ => decide (o = back.point)
  | _, _, _, _ => false

def program (n m : Nat) : Program (Thread n m) Tx Point Reads Empty where
  procs := (List.finRange n).map .inl
  enters := enters
  outer _ _ _ := none
  next := next

def init (buf : Nat → Byte) : Tx := ⟨buf, 0, 0, [], []⟩

theorem sized : Ring.Sized UART_TX_BUF_SIZE UINT64 := ⟨by decide, by decide, by decide⟩

/-- The buffer holds what was accepted after `taken`. -/
def Tx.Holds (d : Tx) (taken : List Byte) : Prop :=
  Ring.Tracks UART_TX_BUF_SIZE UINT64 d.buf d.r d.w d.accepted taken

/-- The thread is in `uartputc`, or was when the interrupt came. -/
def Point.inPutc : Point → Bool
  | .putc _ | .loop _ => true
  | .start back | .thr _ back => decide (back ≠ .elsewhere)
  | .panicked => false

/-- Only processes call `uartputc`. -/
def Relies (p : Thread n m) (o : Option Point) : Prop := ∀ k, o = some k → k.inPutc → p.isLeft

/-- What the holder of `uart_tx_lock` knows about the buffer: before `WriteReg(THR, c)` the byte
has left it. -/
def Tx.At (d : Tx) : Point → Prop
  | .thr c _ => d.Holds (d.sent ++ [c])
  | _ => d.Holds d.sent

def outline (n m : Nat) : Outline (Thread n m) Tx Point where
  free d := d.Holds d.sent
  out p o _ := Relies p o ∧ ∀ c back, o ≠ some (.thr c back)
  inside p k d := Relies p (some k) ∧ d.At k
  blocked := Tx.Full
  owes _ _ _ := False

variable {d : Tx} {p : Thread n m}

theorem relies_none : Relies p none := fun _ h => by cases h

theorem Relies.of_not_inPutc {k : Point} (hk : k.inPutc = false) : Relies p (some k) := by
  rintro _ ⟨⟩ h
  rw [hk] at h
  cases h

theorem Relies.mono {k k' : Point} (h : Relies p (some k)) (hk : k'.inPutc → k.inPutc) :
    Relies p (some k') := by
  rintro _ ⟨⟩ hk'
  exact h k rfl (hk hk')

theorem relies_back {back : Interrupted} : Relies p back.point ↔ Relies p (some (.start back)) := by
  cases back with
  | elsewhere => exact ⟨fun _ => .of_not_inPutc rfl, fun _ => relies_none⟩
  | putc c | loop c => exact ⟨fun h => h.mono id, fun h => h.mono id⟩

theorem Interrupted.point_ne_thr (back : Interrupted) (c : Byte) (back' : Interrupted) :
    back.point ≠ some (.thr c back') := by
  cases back <;> simp [Interrupted.point]

theorem mem_procs (hp : p.isLeft) : p ∈ (program n m).procs := by
  obtain ⟨i, rfl⟩ := Sum.isLeft_iff.mp hp
  exact List.mem_map_of_mem (List.mem_finRange i)

theorem post_next (x : Reads) {k : Point} (h : (outline n m).inside p k d) :
    (outline n m).Post (program n m).procs p k d (next p x d k) := by
  cases k with
  | putc c =>
    refine ⟨⟨?_, ?_⟩, fun _ _ _ hr => hr, fun hb => Or.inl (hb.resolve_right id)⟩
    · split_ifs
      · exact .of_not_inPutc rfl
      · exact h.1.mono id
    · split_ifs
      · exact h.2
      · exact h.2
  | panicked => exact ⟨h, fun _ _ _ hr => hr, fun hb => Or.inl (hb.resolve_right id)⟩
  | loop c =>
    by_cases hf : d.Full
    · rw [next, if_pos hf]
      exact ⟨mem_procs (h.1 _ rfl rfl), h.2, hf, h.1, by simp⟩
    · rw [next, if_neg hf]
      refine ⟨⟨.of_not_inPutc rfl, h.2.push sized hf _⟩, fun _ _ _ hr => hr, fun hb => ?_⟩
      exact absurd (hb.resolve_right id) hf
  | start back =>
    have hdone : (outline n m).Post (program n m).procs p (.start back) d
        (.done d back.point none : Next Tx Point Empty) :=
      ⟨h.2, ⟨relies_back.mpr h.1, back.point_ne_thr⟩, fun _ _ _ hr => hr,
        fun hb => hb.resolve_right id⟩
    by_cases he : d.w = d.r
    · rwa [next, if_pos he]
    · rw [next, if_neg he]
      split_ifs
      · exact hdone
      · exact ⟨⟨h.1.mono id, h.2.pop sized (Ne.symm he)⟩, fun _ _ _ hr => hr⟩
  | thr c back =>
    exact ⟨⟨h.1.mono id, h.2⟩, fun _ _ _ hr => hr, fun hb => Or.inl (hb.resolve_right id)⟩

theorem outline_valid (n m : Nat) : (outline n m).Valid (program n m) where
  call := by
    intro p o k d hr he
    cases k with
    | putc c =>
      cases p with
      | inl i => exact ⟨fun _ _ _ => rfl, by simp⟩
      | inr i => cases he
    | start back =>
      have ho : o = back.point := by
        cases p <;> cases o <;> simpa [program, enters] using he
      subst ho
      exact ⟨relies_back.mp hr.1, by simp⟩
    | panicked | loop c | thr c back => cases p <;> cases o <;> cases he
  outer := by
    intro p x d d' _ ho
    cases ho
  enter := by
    intro p k d hf hr
    refine ⟨hr.1, ?_⟩
    cases k with
    | thr c back => exact absurd rfl (hr.2 c back)
    | _ => exact hf
  next := fun p x k d h => post_next x h

variable {s : State (Thread n m) Tx Point} {t : List Empty} {buf : Nat → Byte}

theorem outlined (h : Reaches (program n m) (init buf) t s) :
    Outlined (outline n m) (program n m) s :=
  Reaches.outlined (outline_valid n m) (show (init buf).Holds [] from Ring.Tracks.nil buf)
    (fun _ => ⟨relies_none, by simp⟩) h

/-- Whoever holds `uart_tx_lock`, at most one byte is between the buffer and `THR`. -/
theorem holds (h : Outlined (outline n m) (program n m) s) :
    ∃ c : Option Byte, s.data.Holds (s.data.sent ++ c.toList) ∧ (s.lock = none → c = none) := by
  have settled : s.data.Holds s.data.sent →
      s.data.Holds (s.data.sent ++ (none : Option Byte).toList) := by simp
  cases hl : s.lock with
  | none => exact ⟨none, settled (h.free hl), fun _ => rfl⟩
  | some p =>
    have hh := (h.locks.owner p).mpr hl
    have inside : ∀ k, s.data.At k → ∃ c : Option Byte,
        s.data.Holds (s.data.sent ++ c.toList) ∧ (some p = none → c = none) := by
      intro k hk
      cases k with
      | thr c back => exact ⟨some c, hk, fun h => by cases h⟩
      | _ => exact ⟨none, settled hk, fun _ => rfl⟩
    cases hpc : s.pc p with
    | idle | enter k =>
      rw [hpc] at hh
      cases hh
    | body k | waking todo k => exact inside k (h.at_pc hpc).2
    | sleep stage k =>
      have ha := h.at_pc hpc
      rw [hpc] at hh
      cases stage with
      | entering | locked => exact ⟨none, settled ha.2.1, fun _ => rfl⟩
      | released | set | parked => cases hh

def Tx.buffered (d : Tx) : List Byte :=
  Ring.contents UART_TX_BUF_SIZE UINT64 d.buf d.r d.w

/-- The buffer holds at most `UART_TX_BUF_SIZE` bytes. What was accepted is what was written to
`THR`, followed by at most one byte that the holder of the lock is about to write, followed by what
the buffer holds. While the lock is free, a sleeping writer finds the buffer full. -/
theorem output_fifo (h : Reaches (program n m) (init buf) t s) :
    Ring.count UINT64 s.data.r s.data.w ≤ UART_TX_BUF_SIZE ∧
    s.data.sent <+: s.data.accepted ∧
    (∃ c : Option Byte, s.data.accepted = s.data.sent ++ c.toList ++ s.data.buffered ∧
      (s.lock = none → c = none)) ∧
    (s.lock = none → ∀ p, s.sleeping p → s.data.Full) := by
  have ho := outlined h
  obtain ⟨c, hc, hfree⟩ := holds ho
  have hput := hc.put_eq sized
  refine ⟨hc.count_le sized, ?_, ⟨c, hput, hfree⟩, fun hl p hp => ho.not_left_asleep hl hp⟩
  exact (List.prefix_append _ _).trans hc.taken_prefix

def puts (i : Fin 2) (c : BitVec 32) (idle : Bool) (steps : Nat) :
    List (Label (Thread 2 0) Point Reads) :=
  .call (.inl i) (.putc c) :: List.replicate steps (.run (.inl i) ⟨false, idle⟩)

/-- Process 0 puts a byte while the transmitter is idle. Then the transmitter is busy; both
processes put bytes until the buffer is full, and process 1 sleeps. -/
def putUntilFull : List (Label (Thread 2 0) Point Reads) :=
  puts 0 65 true 9 ++ (List.range 16).flatMap (fun j =>
    puts 0 (66 + BitVec.ofNat 32 j) false 4 ++ puts 1 (97 + BitVec.ofNat 32 j) false 4) ++
    puts 1 33 false 7

def fullRun : State (Thread 2 0) Tx Point × List Empty :=
  (trace (exec (program 2 0)) putUntilFull (boot (init fun _ => 0), [])).get (by decide +kernel)

def afterFull : State (Thread 2 0) Tx Point := fullRun.1

theorem output_fifo_two_writers :
    afterFull.data.sent = [65] ∧ afterFull.data.accepted.take 5 = [65, 66, 97, 67, 98] ∧
      afterFull.data.accepted = afterFull.data.sent ++ afterFull.data.buffered ∧
      afterFull.sleeping (.inl 1) = true ∧ afterFull.data.Full := by
  have htrace : trace (exec (program 2 0)) putUntilFull _ = some fullRun := (Option.some_get _).symm
  have hr : Reaches (program 2 0) (init fun _ => 0) fullRun.2 afterFull :=
    Run.trace (fun l _ _ _ h => ⟨l, h⟩) Run.refl htrace
  have hl : afterFull.lock = none := by decide +kernel
  have hs : afterFull.sleeping (.inl 1) = true := by decide +kernel
  obtain ⟨-, -, ⟨c, hput, hc⟩, hfull⟩ := output_fifo hr
  rw [hc hl] at hput
  exact ⟨by decide +kernel, by decide +kernel, by simpa using hput, hs, hfull hl _ hs⟩

end Xv6.Uart
