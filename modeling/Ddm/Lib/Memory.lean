/-
  Ddm.Lib.Memory — one object of memory, written in place and read as a string.

  A write that would leave the object has no result (`none`), and neither has a read that
  finds no terminator in it. Offsets and lengths are what the C passes, so they can be
  negative; a negative length turned into a `size_t` is larger than any object.

  Proved: a write behind a known start (`writeAt_append`, `memcpy_append`), that the size
  of the object never changes, and what is read back.
-/

import Ddm.Lib.Bytes

namespace Ddm.Lib

/-! ## Writing -/

def writeAt (mem : Bytes) (off : Int) (src : Bytes) : Option Bytes :=
  if 0 ≤ off ∧ off + src.length ≤ mem.length then
    some (mem.take off.toNat ++ src ++ mem.drop (off.toNat + src.length))
  else none

/-- `memcpy(mem + off, src, n)`. -/
def memcpy (mem : Bytes) (off : Int) (src : Bytes) (n : Int) : Option Bytes :=
  if 0 ≤ n ∧ n ≤ src.length then writeAt mem off (src.take n.toNat) else none

/-- `vsnprintf(mem + off, size, …)` of a text: how long the text is, and as much of it as
    there is room for. An `int` has to hold the length. -/
def vsnprintf (mem : Bytes) (off : Int) (size : Nat) (text : Bytes) : Option (Int × Bytes) :=
  if 2 ^ 31 ≤ text.length then some (-1, mem)
  else if size = 0 then some (text.length, mem)
  else (writeAt mem off (text.take (size - 1) ++ [0])).map fun mem => ((text.length : Int), mem)

theorem length_writeAt {mem mem' src : Bytes} {off : Int} (h : writeAt mem off src = some mem') :
    mem'.length = mem.length := by
  unfold writeAt at h
  split at h
  · rename_i hin
    rw [← Option.some.inj h]
    simp only [List.length_append, List.length_take, List.length_drop]
    omega
  · cases h

theorem length_memcpy {mem mem' src : Bytes} {off n : Int} (h : memcpy mem off src n = some mem') :
    mem'.length = mem.length := by
  unfold memcpy at h
  split at h
  · exact length_writeAt h
  · cases h

/-- A write right behind `start`. -/
theorem writeAt_append {start rest src : Bytes} {off : Int} (ho : off = start.length)
    (h : src.length ≤ rest.length) : writeAt (start ++ rest) off src = some (start ++ src ++ rest.drop src.length) := by
  subst ho
  have hin : 0 ≤ (start.length : Int) ∧ (start.length : Int) + src.length ≤ (start ++ rest).length := by
    rw [List.length_append]
    omega
  rw [writeAt, if_pos hin, Int.toNat_natCast, List.take_left, ← List.drop_drop, List.drop_left]

theorem memcpy_append {start rest src : Bytes} {off n : Int} (ho : off = start.length) (h0 : 0 ≤ n)
    (hsrc : n ≤ src.length) (h : n ≤ rest.length) :
    memcpy (start ++ rest) off src n = some (start ++ src.take n.toNat ++ rest.drop n.toNat) := by
  have hlen : (src.take n.toNat).length = n.toNat := by
    rw [List.length_take]
    omega
  rw [memcpy, if_pos ⟨h0, hsrc⟩, writeAt_append ho (by omega), hlen]

/-- A whole source. -/
theorem memcpy_all {start rest src : Bytes} {off n : Int} (ho : off = start.length) (hn : n = src.length)
    (h : src.length ≤ rest.length) :
    memcpy (start ++ rest) off src n = some (start ++ src ++ rest.drop src.length) := by
  rw [memcpy_append ho (by omega) (by omega) (by omega), hn, Int.toNat_natCast, List.take_length]

theorem memcpy_negative {mem src : Bytes} {off n : Int} (h : n < 0) : memcpy mem off src n = none :=
  if_neg fun hn => absurd hn.1 (by omega)

theorem memcpy_too_long {mem src : Bytes} {off n : Int} (h : (mem.length : Int) < off + n) :
    memcpy mem off src n = none := by
  unfold memcpy
  split
  · rename_i hn
    refine if_neg fun hin => ?_
    have hlen : ((src.take n.toNat).length : Int) = n := by
      rw [List.length_take]
      omega
    omega
  · rfl

/-- The text, cut to leave room for its terminator, which is written as well. -/
theorem vsnprintf_append {start rest text : Bytes} {off : Int} {size : Nat} (ho : off = start.length)
    (hs : 0 < size) (h : size ≤ rest.length) (hlen : text.length < 2 ^ 31) :
    ∃ more, (text.take (size - 1) ++ 0 :: more).length = rest.length ∧
      vsnprintf (start ++ rest) off size text =
        some ((text.length : Int), start ++ (text.take (size - 1) ++ 0 :: more)) := by
  have hshort : (text.take (size - 1) ++ [0]).length ≤ rest.length := by
    rw [List.length_append, List.length_take, List.length_singleton]
    omega
  refine ⟨rest.drop (text.take (size - 1) ++ [0]).length, ?_, ?_⟩
  · rw [List.length_append, List.length_singleton] at hshort
    simp only [List.length_append, List.length_cons, List.length_drop, List.length_nil]
    omega
  · rw [vsnprintf, if_neg (by omega), if_neg (by omega), writeAt_append ho hshort]
    simp

/-! ## Reading -/

/-- The string at `i`. -/
def stringAt (mem : Bytes) (i : Nat) : Option Bytes :=
  if 0 ∈ mem.drop i then some ((mem.drop i).takeWhile (· != 0)) else none

/-- A text without NUL is read whole, from its first byte or a later one. -/
theorem stringAt_append {before text rest : Bytes} (h : 0 ∉ text) {i : Nat} (hi : i = before.length) :
    stringAt (before ++ (text ++ 0 :: rest)) i = some text := by
  subst hi
  have hall : ∀ b ∈ text, (b != 0) = true := fun b hb => by
    have hne : b ≠ 0 := fun e => h (e ▸ hb)
    simpa using hne
  rw [stringAt, List.drop_left, if_pos (by simp), List.takeWhile_append_of_pos hall]
  simp

theorem stringAt_eq_none {mem : Bytes} (h : 0 ∉ mem) : stringAt mem 0 = none :=
  if_neg h

/-- The text `s` is to be read from `i` on. -/
structure Pending (mem : Bytes) (i : Nat) (s : Bytes) : Prop where
  noNul : 0 ∉ s
  text : ∃ before after, mem = before ++ (s ++ 0 :: after) ∧ i = before.length

theorem Pending.stringAt {mem s : Bytes} {i : Nat} (h : Pending mem i s) : Lib.stringAt mem i = some s := by
  obtain ⟨before, after, hmem, hi⟩ := h.text
  rw [hmem]
  exact stringAt_append h.noNul hi

theorem Pending.nul_mem {mem s : Bytes} {i : Nat} (h : Pending mem i s) : 0 ∈ mem := by
  obtain ⟨before, after, hmem, -⟩ := h.text
  rw [hmem]
  simp

theorem Pending.drop {mem front back : Bytes} {i : Nat} (h : Pending mem i (front ++ back)) :
    Pending mem (i + front.length) back := by
  obtain ⟨before, after, hmem, hi⟩ := h.text
  refine ⟨fun h0 => h.noNul (List.mem_append_right _ h0), before ++ front, after, ?_, ?_⟩
  · rw [hmem]
    simp only [List.append_assoc]
  · rw [hi, List.length_append]

end Ddm.Lib
