/-
  Ddm.Lib.Bytes — byte strings, C strings, `char[n]` buffers with `snprintf`, what `%d`
  prints, and 32-bit words in network order.

  A `CStr` is the bytes before the terminator, none of them NUL. A `CharBuf n` is what
  a `char[n]` holds after `snprintf(buf, n, …)`: a string that leaves room for the
  terminator. `snprintf` cuts what does not fit, silently, which is what its callers
  here rely on or overlook.
-/

import Mathlib.Algebra.Order.Ring.Int
import Mathlib.Data.List.TakeWhile

namespace Ddm.Lib

abbrev Bytes := List UInt8

@[ext]
structure CStr where
  chars : Bytes
  noNul : 0 ∉ chars
  deriving DecidableEq

namespace CStr

def length (s : CStr) : Nat := s.chars.length

instance : Append CStr where
  append s t := ⟨s.chars ++ t.chars, by simp [s.noNul, t.noNul]⟩

@[simp] theorem chars_append (s t : CStr) : (s ++ t).chars = s.chars ++ t.chars := rfl
@[simp] theorem length_append (s t : CStr) : (s ++ t).length = s.length + t.length := by
  simp [length]

theorem append_assoc (s t u : CStr) : s ++ t ++ u = s ++ (t ++ u) := by ext1; simp

def take (n : Nat) (s : CStr) : CStr := ⟨s.chars.take n, fun h => s.noNul (List.mem_of_mem_take h)⟩

@[simp] theorem chars_take (n : Nat) (s : CStr) : (s.take n).chars = s.chars.take n := rfl

theorem length_take (n : Nat) (s : CStr) : (s.take n).length = min n s.length := by
  simp [length]

theorem take_of_length_le {n : Nat} {s : CStr} (h : s.length ≤ n) : s.take n = s := by
  ext1; exact List.take_of_length_le h

/-- A string constant of the source. -/
def lit (s : String) (h : (s.toList.map Char.toUInt8).contains 0 = false := by exact Eq.refl false) : CStr :=
  ⟨s.toList.map Char.toUInt8, by simpa using h⟩

/-- The string at the start of a byte buffer: up to its first NUL. -/
def ofBytes (b : Bytes) : CStr :=
  ⟨b.takeWhile (· != 0), fun h => by simpa using List.mem_takeWhile_imp h⟩

theorem ofBytes_chars (s : CStr) : ofBytes s.chars = s := by
  ext1
  refine List.takeWhile_eq_self_iff.mpr fun x hx => ?_
  have : x ≠ 0 := fun e => s.noNul (e ▸ hx)
  simpa using this

end CStr

/-! ## Buffers -/

/-- A `char[n]` holding a terminated string. -/
@[ext]
structure CharBuf (n : Nat) where
  str : CStr
  fits : str.length < n
  deriving DecidableEq

/-- `snprintf(buf, n, …)` of a formatted string. -/
def snprintf (n : Nat) [NeZero n] (s : CStr) : CharBuf n :=
  ⟨s.take (n - 1), by rw [CStr.length_take]; have := NeZero.ne n; omega⟩

theorem snprintf_str {n : Nat} [NeZero n] {s : CStr} (h : s.length < n) : (snprintf n s).str = s :=
  CStr.take_of_length_le (by omega)

theorem snprintf_fit {n : Nat} [NeZero n] (b : CharBuf n) : snprintf n b.str = b :=
  CharBuf.ext (snprintf_str b.fits)

/-! ## `%d` -/

theorem digit_bounds {n : Nat} {c : Char} (h : c ∈ Nat.toDigits 10 n) : 48 ≤ c.toNat ∧ c.toNat ≤ 57 := by
  have hd := Nat.isDigit_of_mem_toDigits (by decide) (by decide) h
  simp only [Char.isDigit, Bool.and_eq_true, decide_eq_true_eq] at hd
  exact ⟨UInt32.le_iff_toNat_le.mp hd.1, UInt32.le_iff_toNat_le.mp hd.2⟩

/-- A digit's byte keeps its code. -/
theorem digit_toUInt8 {n : Nat} {c : Char} (h : c ∈ Nat.toDigits 10 n) : c.toUInt8.toNat = c.toNat := by
  have := digit_bounds h
  show c.val.toNat % 2 ^ 8 = c.val.toNat
  exact Nat.mod_eq_of_lt (by show c.toNat < 2 ^ 8; omega)

/-- What `%d` prints. -/
def decimalBytes (n : Int) : Bytes :=
  (if n < 0 then [45] else []) ++ (Nat.toDigits 10 n.natAbs).map Char.toUInt8

theorem decimalBytes_mem {n : Int} {b : UInt8} (h : b ∈ decimalBytes n) :
    b = 45 ∨ 48 ≤ b.toNat ∧ b.toNat ≤ 57 := by
  rcases List.mem_append.mp h with h | h
  · split at h
    · exact Or.inl (by simpa using h)
    · cases h
  · obtain ⟨c, hc, rfl⟩ := List.mem_map.mp h
    rw [digit_toUInt8 hc]; exact Or.inr (digit_bounds hc)

def decimal (n : Int) : CStr :=
  ⟨decimalBytes n, fun h => by rcases decimalBytes_mem h with h | h <;> simp at h⟩

/-- The digits read back from their bytes. -/
theorem digits_of_bytes (n : Nat) :
    ((Nat.toDigits 10 n).map Char.toUInt8).map (fun b => Char.ofNat b.toNat) = Nat.toDigits 10 n := by
  rw [List.map_map]
  conv => rhs; rw [← List.map_id (Nat.toDigits 10 n)]
  refine List.map_congr_left fun c hc => ?_
  show Char.ofNat c.toUInt8.toNat = c
  rw [digit_toUInt8 hc, Char.ofNat_toNat]

theorem digits_injective {a b : Nat} (h : (Nat.toDigits 10 a).map Char.toUInt8 = (Nat.toDigits 10 b).map Char.toUInt8) :
    a = b := by
  have hc : Nat.toDigits 10 a = Nat.toDigits 10 b := by rw [← digits_of_bytes a, h, digits_of_bytes b]
  rw [← Nat.ofDigitChars_ten_toDigits (n := a), hc, Nat.ofDigitChars_ten_toDigits]

theorem decimal_injective {a b : Int} (h : decimal a = decimal b) : a = b := by
  have h := congrArg CStr.chars h
  have pos : ∀ n m : Nat, [45] ++ (Nat.toDigits 10 n).map Char.toUInt8 ≠ (Nat.toDigits 10 m).map Char.toUInt8 := by
    intro n m e
    have hm : (45 : UInt8) ∈ (Nat.toDigits 10 m).map Char.toUInt8 := by rw [← e]; simp
    obtain ⟨c, hc, he⟩ := List.mem_map.mp hm
    have := digit_toUInt8 hc; have := digit_bounds hc; rw [he] at *; simp at *; omega
  simp only [decimal, decimalBytes] at h
  split at h <;> split at h
  · have := digits_injective (by simpa using h); omega
  · exact absurd h (pos _ _)
  · exact absurd h.symm (pos _ _)
  · have := digits_injective (by simpa using h); omega

/-! ## C integers -/

/-- A `size_t` passed as an `int`. -/
def toInt (n : Nat) : Int := if n % 2 ^ 32 < 2 ^ 31 then (n % 2 ^ 32 : Nat) else (n % 2 ^ 32 : Nat) - 2 ^ 32

theorem toInt_small {n : Nat} (h : n < 2 ^ 31) : toInt n = n := by
  rw [toInt, if_pos] <;> omega

/-- An `int` used as a `size_t`. -/
def sizeT (n : Int) : Nat := (n % 2 ^ 64).toNat

theorem sizeT_natCast {n : Nat} (h : n < 2 ^ 31) : sizeT n = n := by
  unfold sizeT
  omega

/-- What an `int` holds. -/
def FitsInt (n : Int) : Prop := -2 ^ 31 ≤ n ∧ n < 2 ^ 31

/-- What a `long` holds. -/
def FitsLong (n : Int) : Prop := -2 ^ 63 ≤ n ∧ n < 2 ^ 63

instance (n : Int) : Decidable (FitsInt n) := inferInstanceAs (Decidable (_ ∧ _))
instance (n : Int) : Decidable (FitsLong n) := inferInstanceAs (Decidable (_ ∧ _))

/-! ## Network order -/

/-- The bytes `htonl` leaves in memory. -/
def be32 (n : Nat) : Bytes :=
  [(n / 2 ^ 24).toUInt8, (n / 2 ^ 16).toUInt8, (n / 2 ^ 8).toUInt8, n.toUInt8]

/-- `ntohl` of the first four bytes. -/
def ofBe32 : Bytes → Nat
  | a :: b :: c :: d :: _ => a.toNat * 2 ^ 24 + b.toNat * 2 ^ 16 + c.toNat * 2 ^ 8 + d.toNat
  | _ => 0

@[simp] theorem length_be32 (n : Nat) : (be32 n).length = 4 := rfl

theorem ofBe32_be32 (n : Nat) (r : Bytes) : ofBe32 (be32 n ++ r) = n % 2 ^ 32 := by
  show (n / 2 ^ 24 % 2 ^ 8) * 2 ^ 24 + (n / 2 ^ 16 % 2 ^ 8) * 2 ^ 16 + (n / 2 ^ 8 % 2 ^ 8) * 2 ^ 8 + n % 2 ^ 8 = _
  omega

theorem ofBe32_lt (b : Bytes) : ofBe32 b < 2 ^ 32 := by
  unfold ofBe32
  split
  · rename_i a b c d r
    have := a.toNat_lt; have := b.toNat_lt; have := c.toNat_lt; have := d.toNat_lt
    omega
  · omega

/-- Four bytes are the word they are read as. -/
theorem be32_ofBe32 {b : Bytes} (h : 4 ≤ b.length) : be32 (ofBe32 b) = b.take 4 := by
  match b, h with
  | a :: b :: c :: d :: r, _ =>
    have hbyte : ∀ (x : UInt8) (n : Nat), n % 2 ^ 8 = x.toNat → n.toUInt8 = x := fun x n hn =>
      UInt8.toNat_inj.mp hn
    have := a.toNat_lt; have := b.toNat_lt; have := c.toNat_lt; have := d.toNat_lt
    show [_, _, _, _] = [a, b, c, d]
    rw [ofBe32, hbyte a _ (by omega), hbyte b _ (by omega), hbyte c _ (by omega), hbyte d _ (by omega)]

end Ddm.Lib
