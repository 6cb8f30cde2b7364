/-
  Ddm.Lib.Protobuf — messages of length-delimited fields in the protobuf wire format.

  A varint is the base-128 digits of a number, the least first, each but the last with
  its high bit set. A field is the varint of its number and wire type, the varint of its
  length, and its bytes; a message is its fields one after the other. The reader takes
  length-delimited fields alone.

  Proved: the reader gives back a number (`readVarint_varint`), a field
  (`readField_field`) and a message (`readFields_fields`).
-/

import Ddm.Lib.Bytes

namespace Ddm.Lib.Protobuf

/-! ## Varints -/

/-- The digits of `n`, at most `fuel + 1` of them. -/
def varintFrom : Nat → Nat → Bytes
  | 0, n => [(n % 128).toUInt8]
  | fuel + 1, n => if n < 128 then [n.toUInt8] else (n % 128 + 128).toUInt8 :: varintFrom fuel (n / 128)

def varint (n : Nat) : Bytes := varintFrom n n

def readVarint : Bytes → Option (Nat × Bytes)
  | [] => none
  | b :: rest =>
    if b.toNat < 128 then some (b.toNat, rest)
    else (readVarint rest).map fun (n, rest) => (b.toNat - 128 + 128 * n, rest)

theorem toUInt8_toNat {n : Nat} (h : n < 256) : n.toUInt8.toNat = n := Nat.mod_eq_of_lt h

theorem readVarint_varintFrom (fuel : Nat) : ∀ (n : Nat) (rest : Bytes), n ≤ fuel →
    readVarint (varintFrom fuel n ++ rest) = some (n, rest) := by
  have hlast : ∀ (n : Nat) (rest : Bytes), n < 128 → readVarint ([n.toUInt8] ++ rest) = some (n, rest) := by
    intro n rest h
    rw [List.singleton_append, readVarint, toUInt8_toNat (by omega), if_pos h]
  induction fuel with
  | zero =>
    intro n rest h
    obtain rfl : n = 0 := by omega
    exact hlast 0 rest (by omega)
  | succ fuel ih =>
    intro n rest h
    rw [varintFrom]
    split
    · rename_i hn
      exact hlast n rest hn
    · rw [List.cons_append, readVarint, toUInt8_toNat (by omega), if_neg (by omega), ih _ rest (by omega)]
      simp only [Option.map_some, Option.some.injEq, Prod.mk.injEq, and_true]
      omega

theorem readVarint_varint (n : Nat) (rest : Bytes) : readVarint (varint n ++ rest) = some (n, rest) :=
  readVarint_varintFrom n n rest (Nat.le_refl n)

theorem varint_ne_nil (n : Nat) : varint n ≠ [] := by
  cases n with
  | zero => simp [varint, varintFrom]
  | succ n => rw [varint, varintFrom]; split <;> simp

/-! ## Fields -/

/-- Wire type 2. -/
def field (number : Nat) (value : Bytes) : Bytes := varint (8 * number + 2) ++ varint value.length ++ value

def readField (b : Bytes) : Option (Nat × Bytes × Bytes) := do
  let (key, b) ← readVarint b
  if key % 8 = 2 then
    let (len, b) ← readVarint b
    if len ≤ b.length then some (key / 8, b.take len, b.drop len) else none
  else none

theorem readField_field (number : Nat) (value rest : Bytes) :
    readField (field number value ++ rest) = some (number, value, rest) := by
  have hkey : (8 * number + 2) % 8 = 2 := by omega
  have hnum : (8 * number + 2) / 8 = number := by omega
  have hlen : value.length ≤ (value ++ rest).length := by rw [List.length_append]; omega
  simp only [readField, field, List.append_assoc, readVarint_varint, Option.bind_eq_bind, Option.bind_some, if_pos hkey,
    if_pos hlen, List.take_left, List.drop_left, hnum]

theorem length_field (number : Nat) (value : Bytes) : value.length + 2 ≤ (field number value).length := by
  have h1 := List.length_pos_iff.mpr (varint_ne_nil (8 * number + 2))
  have h2 := List.length_pos_iff.mpr (varint_ne_nil value.length)
  rw [field, List.length_append, List.length_append]
  omega

/-! ## Messages -/

def fields (l : List (Nat × Bytes)) : Bytes := l.flatMap fun f => field f.1 f.2

/-- At most `fuel` fields. -/
def readFieldsFrom : Nat → Bytes → Option (List (Nat × Bytes))
  | _, [] => some []
  | 0, _ => none
  | fuel + 1, b => do
    let (number, value, b) ← readField b
    let l ← readFieldsFrom fuel b
    some ((number, value) :: l)

def readFields (b : Bytes) : Option (List (Nat × Bytes)) := readFieldsFrom b.length b

theorem readFieldsFrom_fields (l : List (Nat × Bytes)) : ∀ fuel, l.length ≤ fuel →
    readFieldsFrom fuel (fields l) = some l := by
  induction l with
  | nil => intro fuel _; cases fuel <;> rfl
  | cons f l ih =>
    intro fuel h
    cases fuel with
    | zero => simp at h
    | succ fuel =>
      have hpos := length_field f.1 f.2
      have hread : readField (fields (f :: l)) = some (f.1, f.2, fields l) := readField_field f.1 f.2 (fields l)
      cases hb : fields (f :: l) with
      | nil =>
        have : (fields (f :: l)).length = (field f.1 f.2).length + (fields l).length := List.length_append
        rw [hb, List.length_nil] at this
        omega
      | cons x b =>
        rw [hb] at hread
        simp only [readFieldsFrom, hread, Option.bind_eq_bind, Option.bind_some,
          ih fuel (Nat.le_of_succ_le_succ h)]

/-- A message has at least a byte for each field. -/
theorem length_fields (l : List (Nat × Bytes)) : l.length ≤ (fields l).length := by
  induction l with
  | nil => exact Nat.le_refl 0
  | cons f l ih =>
    have hpos := length_field f.1 f.2
    have : (fields (f :: l)).length = (field f.1 f.2).length + (fields l).length := List.length_append
    rw [List.length_cons]
    omega

theorem readFields_fields (l : List (Nat × Bytes)) : readFields (fields l) = some l :=
  readFieldsFrom_fields l _ (length_fields l)

end Ddm.Lib.Protobuf
