/-
  Ddm.Lib.Growable — an array that moves to a larger buffer when it is full, and the
  pointers into it.

  A buffer has an identity; a move frees it and takes another. A pointer is a buffer's
  identity and an index. Going through a pointer into a freed buffer, or past the
  elements, is undefined: `read` and `write` say `none`.

  Proved: a push keeps what every pointer reads if the array has room (`read_push`), and
  leaves nothing to read for any pointer it had if it has none (`read_push_full`).
-/

import Mathlib.Algebra.Order.Ring.Int

namespace Ddm.Lib

structure Growable (α : Type) where
  buffer : Nat
  capacity : Nat
  elems : List α
  deriving DecidableEq

namespace Growable

/-- An element's address. -/
structure Ptr where
  buffer : Nat
  index : Nat
  deriving DecidableEq

variable {α : Type} {a b : Growable α} {x y : α} {p q : Ptr} {f : α → α}

/-- Nothing is allocated before the first push. -/
def empty : Growable α := ⟨0, 0, []⟩

def full (a : Growable α) : Bool := decide (a.capacity < a.elems.length + 1)

/-- The next capacity, kept in 32 bits: past 2^31 the doubling comes to 0 and never ends. -/
def grow (capacity : Nat) : Option Nat :=
  if capacity = 0 then some 8 else if 2 * capacity < 2 ^ 32 then some (2 * capacity) else none

def push (a : Growable α) (x : α) : Option (Growable α) :=
  if a.full then (grow a.capacity).map fun capacity => ⟨a.buffer + 1, capacity, a.elems ++ [x]⟩
  else some { a with elems := a.elems ++ [x] }

/-- The address of the last element. -/
def last (a : Growable α) : Ptr := ⟨a.buffer, a.elems.length - 1⟩

def read (a : Growable α) (p : Ptr) : Option α := if p.buffer = a.buffer then a.elems[p.index]? else none

def write (a : Growable α) (p : Ptr) (f : α → α) : Option (Growable α) :=
  if p.buffer = a.buffer ∧ p.index < a.elems.length then some { a with elems := a.elems.modify p.index f } else none

/-! ## What a push does -/

theorem push_cases (h : a.push x = some b) : b.elems = a.elems ++ [x] ∧
    (a.full = false ∧ b.buffer = a.buffer ∧ b.capacity = a.capacity ∨
      a.full = true ∧ b.buffer = a.buffer + 1 ∧ grow a.capacity = some b.capacity) := by
  unfold push at h
  split at h
  · rename_i hfull
    obtain ⟨capacity, hg, rfl⟩ := Option.map_eq_some_iff.mp h
    exact ⟨rfl, Or.inr ⟨hfull, rfl, hg⟩⟩
  · rename_i hroom
    obtain rfl := Option.some.inj h
    exact ⟨rfl, Or.inl ⟨Bool.eq_false_iff.mpr hroom, rfl, rfl⟩⟩

theorem buffer_le_push (h : a.push x = some b) : a.buffer ≤ b.buffer := by
  rcases (push_cases h).2 with ⟨-, hb, -⟩ | ⟨-, hb, -⟩ <;> omega

theorem read_eq_some : a.read p = some y ↔ p.buffer = a.buffer ∧ a.elems[p.index]? = some y := by
  unfold read
  rw [Option.ite_none_right_eq_some]

/-- The new element is where the array's `last` points. -/
theorem read_last (h : a.push x = some b) : b.read b.last = some x := by
  obtain ⟨he, -⟩ := push_cases h
  refine read_eq_some.mpr ⟨rfl, ?_⟩
  rw [last, he, List.length_append, List.length_singleton, Nat.add_sub_cancel, List.getElem?_concat_length]

theorem read_push (hroom : a.full = false) (h : a.push x = some b) (hp : a.read p = some y) : b.read p = some y := by
  obtain ⟨he, ⟨-, hb, -⟩ | ⟨hfull, -⟩⟩ := push_cases h
  · obtain ⟨hpb, hpi⟩ := read_eq_some.mp hp
    refine read_eq_some.mpr ⟨hpb.trans hb.symm, ?_⟩
    rw [he, List.getElem?_append_left (List.getElem?_eq_some_iff.mp hpi).1]
    exact hpi
  · rw [hroom] at hfull
    cases hfull

theorem read_push_full (hfull : a.full = true) (h : a.push x = some b) (hp : p.buffer ≤ a.buffer) :
    b.read p = none := by
  obtain ⟨-, ⟨hroom, -⟩ | ⟨-, hb, -⟩⟩ := push_cases h
  · rw [hroom] at hfull
    cases hfull
  · exact if_neg (by omega)

/-! ## What a write does -/

theorem write_cases (h : a.write p f = some b) :
    b.buffer = a.buffer ∧ b.capacity = a.capacity ∧ b.elems = a.elems.modify p.index f := by
  unfold write at h
  obtain ⟨-, h⟩ := Option.ite_none_right_eq_some.mp h
  obtain rfl := Option.some.inj h
  exact ⟨rfl, rfl, rfl⟩

theorem write_of_read (hp : a.read p = some y) : ∃ b, a.write p f = some b := by
  obtain ⟨hb, hi⟩ := read_eq_some.mp hp
  exact ⟨_, if_pos ⟨hb, (List.getElem?_eq_some_iff.mp hi).1⟩⟩

/-- What is read afterwards is what was read before, written to or not. -/
theorem read_write (h : a.write p f = some b) (hq : a.read q = some y) : b.read q = some y ∨ b.read q = some (f y) := by
  obtain ⟨hb, -, he⟩ := write_cases h
  obtain ⟨hqb, hqi⟩ := read_eq_some.mp hq
  have hread : b.read q = b.elems[q.index]? := if_pos (hqb.trans hb.symm)
  rw [hread, he, List.getElem?_modify, hqi]
  by_cases hi : p.index = q.index
  · exact Or.inr (by simp [hi])
  · exact Or.inl (by simp [hi])

end Growable

end Ddm.Lib
