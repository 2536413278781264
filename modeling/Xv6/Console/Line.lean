import Mathlib.Data.List.Induction
import Xv6.Console.Model
import Xv6.Foundation.Ring

/-!
# The line discipline

`Line` is what the console is for: a queue of committed characters and the line being edited. The ring
of `console.c` follows it in every run, whatever the indices have wrapped to.
-/

namespace Xv6.Console

open Xv6.Foundation

set_option autoImplicit false

/-- The committed characters, and the line that can still be edited. -/
structure Line where
  queue : List Byte
  edit : List Byte

namespace Line

def empty : Line := ⟨[], []⟩

def size (l : Line) : Nat := l.queue.length + l.edit.length

theorem size_mk (queue edit : List Byte) :
    (⟨queue, edit⟩ : Line).size = queue.length + edit.length := rfl

def accept (c : Byte) (l : Line) : Line :=
  if endsLine c ∨ l.size + 1 = INPUT_BUF then ⟨l.queue ++ (l.edit ++ [c]), []⟩
  else ⟨l.queue, l.edit ++ [c]⟩

def input (c : Byte) (l : Line) : Line :=
  if c = ctrlP then l
  else if c = ctrlU then ⟨l.queue, []⟩
  else if c = ctrlH ∨ c = delete then ⟨l.queue, l.edit.dropLast⟩
  else if c ≠ 0 ∧ l.size < INPUT_BUF then l.accept (translate c)
  else l

variable {P : Type}

/-- A reader takes the first committed character; what it does otherwise changes nothing. -/
inductive Step : Line → Option (Event P) → Line → Prop where
  | stay (l : Line) : Step l none l
  | input (l : Line) (c : Byte) : Step l (some (.input c)) (l.input c)
  | call (l : Line) (p : P) (n : Nat) : Step l (some (.call p n)) l
  | deliver (p : P) {c : Byte} (queue edit : List Byte) (h : c ≠ ctrlD) :
      Step ⟨c :: queue, edit⟩ (some (.deliver p c)) ⟨queue, edit⟩
  | eof (p : P) (queue edit : List Byte) : Step ⟨ctrlD :: queue, edit⟩ (some (.eof p)) ⟨queue, edit⟩
  | ret (l : Line) (p : P) (r : Int) : Step l (some (.ret p r)) l

structure Ok (l : Line) : Prop where
  bound : l.size ≤ INPUT_BUF
  edit_plain : ∀ c ∈ l.edit, endsLine c = false
  full : l.size = INPUT_BUF → l.edit = []

end Line

structure Shows (k : Cons) (l : Line) : Prop where
  r_lt : k.r < 2 ^ 32
  w_eq : k.w = (k.r + l.queue.length) % 2 ^ 32
  e_eq : k.e = (k.w + l.edit.length) % 2 ^ 32
  window : Ring.Window INPUT_BUF (2 ^ 32) k.buf k.r (l.queue ++ l.edit)

theorem sized : Ring.Sized INPUT_BUF (2 ^ 32) := ⟨by decide, by decide, by decide⟩

namespace Shows
variable {k : Cons} {l : Line} {queue edit : List Byte}

section
variable (h : Shows k l)
include h

theorem size_le : l.size ≤ 128 := by
  have := h.window.length_le
  rwa [List.length_append] at this

theorem e_eq_add : k.e = (k.r + l.size) % 2 ^ 32 := by
  rw [h.e_eq, h.w_eq, Nat.mod_add_mod, Line.size, Nat.add_assoc]

theorem used_eq : (k.e + 2 ^ 32 - k.r) % 2 ^ 32 = l.size := by
  have := h.size_le
  have := h.r_lt
  have := h.e_eq_add
  omega

theorem edit_eq : (k.e + 2 ^ 32 - k.w) % 2 ^ 32 = l.edit.length := by
  have := h.size_le
  have := h.e_eq
  have := h.w_eq
  have := Nat.le_add_left l.edit.length l.queue.length
  rw [Line.size] at *
  omega

theorem queue_empty_iff : k.r = k.w ↔ l.queue = [] := by
  have := h.size_le
  have := h.w_eq
  have := h.r_lt
  rw [Line.size] at *
  rw [← List.length_eq_zero_iff]
  omega

theorem edit_empty_iff : k.e = k.w ↔ l.edit = [] := by
  have := h.edit_eq
  have := h.e_eq
  have := h.w_eq
  have := h.size_le
  rw [Line.size] at *
  rw [← List.length_eq_zero_iff]
  omega

end

theorem empty (buf : Nat → Byte) : Shows ⟨buf, 0, 0, 0⟩ Line.empty :=
  ⟨Nat.two_pow_pos 32, rfl, rfl, .nil _ _⟩

theorem erase {c : Byte} (h : Shows k ⟨queue, edit ++ [c]⟩) :
    Shows k.erase ⟨queue, edit⟩ ∧ k.buf (decr k.e % INPUT_BUF) = c := by
  have he := h.e_eq_add
  have hw := h.w_eq
  have hle := h.size_le
  have hr := h.r_lt
  simp only [Line.size, List.length_append, List.length_singleton] at he hle hw
  have hprev : decr k.e = (k.r + (queue.length + edit.length)) % 2 ^ 32 := by
    rw [decr]
    split <;> omega
  have hwin := h.window
  rw [← List.append_assoc] at hwin
  refine ⟨⟨h.r_lt, h.w_eq, ?_, hwin.of_append⟩, ?_⟩
  · rw [Cons.erase_e, hprev, Cons.erase_w, hw, Nat.mod_add_mod, Nat.add_assoc]
  · rw [hprev, ← List.length_append]
    have hst := hwin.stored (queue ++ edit).length (by simp)
    rw [Ring.slot] at hst
    rw [hst]
    simp

/-- The loop of `C('U')` stops only at `w`, since no character of the line is a newline. -/
theorem killLine {queue : List Byte} {edit : List Byte} (h : Shows k ⟨queue, edit⟩)
    (hplain : ∀ c ∈ edit, endsLine c = false) : Shows (k.killLine edit.length) ⟨queue, []⟩ := by
  induction edit using List.reverseRecOn generalizing k with
  | nil => exact h
  | append_singleton edit c ih =>
    obtain ⟨hsh, hc⟩ := h.erase
    have hne : c ≠ newline := by
      rintro rfl
      exact absurd (hplain newline (by simp)) (by decide)
    have hew : k.e ≠ k.w := by
      intro he
      exact absurd (h.edit_empty_iff.mp he) (by simp)
    rw [List.length_append, List.length_singleton, Cons.killLine, if_pos ⟨hew, by rwa [hc]⟩]
    exact ih hsh fun d hd => hplain d (List.mem_append_left _ hd)

theorem store (h : Shows k l) (hlt : l.size < INPUT_BUF) (c : Byte) :
    Shows (k.store c) ⟨l.queue, l.edit ++ [c]⟩ := by
  have hwin := h.window.push sized (by rwa [List.length_append]) c
  refine ⟨h.r_lt, h.w_eq, ?_, ?_⟩
  · rw [Cons.store_e, h.e_eq, Nat.mod_add_mod, Cons.store_w, List.length_append,
      List.length_singleton, Nat.add_assoc]
  · show Ring.Window _ _ (Function.update k.buf (k.e % INPUT_BUF) c) k.r (l.queue ++ (l.edit ++ [c]))
    rw [h.e_eq_add, ← List.append_assoc]
    rwa [Ring.slot, List.length_append] at hwin

theorem commit (h : Shows k l) : Shows k.commit ⟨l.queue ++ l.edit, []⟩ := by
  refine ⟨h.r_lt, ?_, ?_, ?_⟩
  · rw [Cons.commit_w, Cons.commit_r, h.e_eq_add, List.length_append, Line.size]
  · have := h.e_eq_add
    rw [Cons.commit_e, Cons.commit_w, List.length_nil, Nat.add_zero, this, Nat.mod_mod]
  · rw [List.append_nil]
    exact h.window

theorem take {c : Byte} (h : Shows k ⟨c :: queue, edit⟩) :
    k.buf (k.r % INPUT_BUF) = c ∧ Shows k.take ⟨queue, edit⟩ := by
  have hw := h.w_eq
  have hr := h.r_lt
  have hfront := h.window.front
  rw [Ring.slot, Nat.add_zero, Nat.mod_eq_of_lt hr] at hfront
  refine ⟨hfront, Nat.mod_lt _ (by decide), ?_, h.e_eq, h.window.pop⟩
  rw [Cons.take_w, Cons.take_r, hw, Nat.mod_add_mod]
  simp only [List.length_cons, Nat.add_assoc, Nat.add_comm 1]

theorem take_putBack (h : Shows k l) : k.take.putBack = k := by
  have hr := h.r_lt
  have hback : decr ((k.r + 1) % 2 ^ 32) = k.r := by
    rw [decr]
    split <;> omega
  rw [Cons.putBack, Cons.take_r, hback]
  rfl

end Shows

end Xv6.Console
