/-
  Ddm.Conf.ConfigItem — `get_config_item_int`: a number in the configuration is a product,
  as in `16*1024`.

  The value is copied into `char str[200]` by its own length, which the line limit of the
  ini parser lets grow to five times that, and the copy is taken apart by `strtok_r`.
  `result_value` is an `int`; its overflow has no result either.

  Proved: the copy stays in the buffer, terminated, and the product is that of the
  non-empty parts, for every value of less than 200 bytes and for no other
  (`getConfigItemInt_iff`).
-/

import Ddm.Conf.Substitute
import Ddm.Lib.Tokens

namespace Ddm.Conf

open Ddm.Lib

abbrev strSize : Nat := 200

/-! ## `atoi` -/

/-- `isspace` -/
def isSpace (c : UInt8) : Bool := c == 32 || 9 ≤ c && c ≤ 13

def isDigit (c : UInt8) : Bool := 48 ≤ c && c ≤ 57

/-- `strtol(s, NULL, 10)`: what does not fit in a `long` is cut to its limits. -/
def strtol (s : Bytes) : Int :=
  let digits (s : Bytes) : Nat := (s.takeWhile isDigit).foldl (fun n c => 10 * n + (c.toNat - 48)) 0
  match s.dropWhile isSpace with
  | 45 :: s => max (-2 ^ 63) (-(digits s : Int))
  | 43 :: s => min (2 ^ 63 - 1) (digits s)
  | s => min (2 ^ 63 - 1) (digits s)

/-- The low 32 bits of the `long`. -/
def atoi (s : Bytes) : Int := (strtol s).bmod (2 ^ 32)

example : atoi (CStr.lit " -12*").chars = -12 := by decide

/-! ## The product -/

def star : UInt8 := 42

/-- The loop over the tokens, each turn from the call for the next one. -/
def productLoop : Nat → Bytes → Nat → Int → Except Stop (Int × Bytes)
  | 0, _, _, _ => .error .outOfFuel
  | fuel + 1, str, ptrptr, resultValue =>
    match strtokR star str ptrptr with
    | none => .error .outOfBounds
    | some (none, _, str) => .ok (resultValue, str)
    | some (some result, ptrptr, str) =>
      match stringAt str result with
      | none => .error .outOfBounds
      | some token =>
        if FitsInt (resultValue * atoi token) then productLoop fuel str ptrptr (resultValue * atoi token)
        else .error .overflow

/-- The product, and what `str` holds in the end. -/
def itemProduct (fuel : Nat) (value : CStr) : Except Stop (Int × Bytes) :=
  match memcpy (List.replicate strSize 0) 0 value.chars value.length with
  | none => .error .outOfBounds
  | some str => productLoop fuel str 0 1

/-- `value` is what the dictionary holds for the item. -/
def getConfigItemInt (fuel : Nat) (value : Option CStr) (defaultValue : Int) : Except Stop Int :=
  match value with
  | some value => (itemProduct fuel value).map (·.1)
  | none => .ok defaultValue

/-! ## What it is to return -/

def product (resultValue : Int) (tokens : List Bytes) : Int := tokens.foldl (fun r t => r * atoi t) resultValue

/-- Every partial product is an `int`. -/
def ProductFits : Int → List Bytes → Prop
  | _, [] => True
  | resultValue, t :: tokens => FitsInt (resultValue * atoi t) ∧ ProductFits (resultValue * atoi t) tokens

def decidableProductFits : (r : Int) → (tokens : List Bytes) → Decidable (ProductFits r tokens)
  | _, [] => isTrue trivial
  | r, t :: tokens =>
    have := decidableProductFits (r * atoi t) tokens
    inferInstanceAs (Decidable (FitsInt (r * atoi t) ∧ ProductFits (r * atoi t) tokens))

instance (r : Int) (tokens : List Bytes) : Decidable (ProductFits r tokens) := decidableProductFits r tokens

/-- The copy is made and read inside `str`, which stays terminated, and the product is
    that of the non-empty parts. -/
structure ItemOk (fuel : Nat) (value : CStr) : Prop where
  inside : itemProduct fuel value ≠ .error .outOfBounds
  product : ProductFits 1 (parts star value.chars) → ∀ defaultValue,
    getConfigItemInt fuel (some value) defaultValue = .ok (product 1 (parts star value.chars)) ∧
      ∃ str, itemProduct fuel value = .ok (product 1 (parts star value.chars), str) ∧ str.length = strSize ∧ 0 ∈ str

theorem productLoop_spec (fuel : Nat) : ∀ {str s : Bytes} {ptrptr : Nat} (resultValue : Int), Pending str ptrptr s →
    s.length < fuel →
    productLoop fuel str ptrptr resultValue ≠ .error .outOfBounds ∧
      (ProductFits resultValue (parts star s) → ∃ str',
        productLoop fuel str ptrptr resultValue = .ok (product resultValue (parts star s), str') ∧
          str'.length = str.length ∧ 0 ∈ str') := by
  induction fuel with
  | zero => intro str s ptrptr r _ hfuel; exact absurd hfuel (Nat.not_lt_zero _)
  | succ fuel ih =>
    intro str s ptrptr r h hfuel
    obtain ⟨found, hcall, htoken⟩ : ∃ found, strtokR star str ptrptr = some found ∧ Token star str s found :=
      strtokR_spec h
    rw [productLoop, hcall]
    cases htoken with
    | none hparts =>
      rw [hparts]
      exact ⟨(fun he => by cases he), fun _ => ⟨str, rfl, rfl, h.nul_mem⟩⟩
    | some hparts htext hpending hlen hshort =>
      obtain ⟨hin, hproduct⟩ := ih (r * atoi _) hpending (by omega)
      rw [hparts]
      simp only [htext]
      split
      · refine ⟨hin, fun hfits => ?_⟩
        obtain ⟨str', hrun, hlen', hnul⟩ := hproduct hfits.2
        exact ⟨str', hrun, hlen'.trans hlen, hnul⟩
      · rename_i hover
        exact ⟨(fun he => by cases he), fun hfits => absurd hfits.1 hover⟩

section Item

variable {fuel : Nat} {value : CStr}

theorem itemOk_of_short (hfuel : value.length < fuel) (h : value.length < strSize) : ItemOk fuel value := by
  have hzeros : (List.replicate strSize (0 : UInt8)).drop value.length =
      0 :: List.replicate (strSize - value.length - 1) 0 := by
    rw [List.drop_replicate, show strSize - value.length = strSize - value.length - 1 + 1 by omega,
      List.replicate_succ]
    rfl
  have hcopy : memcpy (List.replicate strSize 0) 0 value.chars value.length =
      some (value.chars ++ 0 :: List.replicate (strSize - value.length - 1) 0) := by
    have hall := @memcpy_all [] (List.replicate strSize 0) value.chars 0 value.length rfl rfl
      (by rw [List.length_replicate]; exact Nat.le_of_lt h)
    rw [← hzeros]
    exact hall
  have hpending : Pending (value.chars ++ 0 :: List.replicate (strSize - value.length - 1) 0) 0 value.chars :=
    ⟨value.noNul, [], _, rfl, rfl⟩
  obtain ⟨hin, hproduct⟩ := productLoop_spec fuel 1 hpending hfuel
  have hrun : itemProduct fuel value =
      productLoop fuel (value.chars ++ 0 :: List.replicate (strSize - value.length - 1) 0) 0 1 := by
    rw [itemProduct, hcopy]
  refine ⟨by rw [hrun]; exact hin, fun hfits defaultValue => ?_⟩
  obtain ⟨str, hok, hlen, hnul⟩ := hproduct hfits
  rw [← hrun] at hok
  refine ⟨?_, str, hok, ?_, hnul⟩
  · rw [getConfigItemInt, hok]
    rfl
  · rw [hlen, length_memcpy hcopy, List.length_replicate]

/-- 200 bytes leave no terminator, more leave the buffer. -/
theorem itemProduct_long (hfuel : value.length < fuel) (h : strSize ≤ value.length) :
    itemProduct fuel value = .error .outOfBounds := by
  rw [itemProduct]
  rcases Nat.eq_or_lt_of_le h with he | hlt
  · have hcopy : memcpy (List.replicate strSize 0) 0 value.chars value.length = some value.chars := by
      have hall := @memcpy_all [] (List.replicate strSize 0) value.chars 0 value.length rfl rfl
        (by rw [List.length_replicate]; exact Nat.le_of_eq he.symm)
      rw [List.drop_of_length_le (by rw [List.length_replicate]; exact h), List.append_nil] at hall
      exact hall
    obtain ⟨n, rfl⟩ : ∃ n, fuel = n + 1 := ⟨fuel - 1, by omega⟩
    have hread : strtokR star value.chars 0 = none := by
      rw [strtokR, stringAt_eq_none value.noNul]
      rfl
    rw [hcopy]
    show productLoop (n + 1) value.chars 0 1 = _
    rw [productLoop, hread]
  · have hcopy : memcpy (List.replicate strSize 0) 0 value.chars value.length = none :=
      memcpy_too_long (by rw [List.length_replicate]; omega)
    rw [hcopy]

theorem getConfigItemInt_iff (hfuel : value.length < fuel) : ItemOk fuel value ↔ value.length < strSize := by
  constructor
  · intro h
    by_contra hlong
    exact h.inside (itemProduct_long hfuel (Nat.not_lt.mp hlong))
  · exact itemOk_of_short hfuel

end Item

/-- A value with room in the buffer; the empty parts do not count. -/
theorem getConfigItemInt_iff_sample : ItemOk 10 (CStr.lit "16**1024*") :=
  (getConfigItemInt_iff (by decide)).mpr (by decide)

example : getConfigItemInt 10 (some (CStr.lit "16**1024*")) 60 = .ok 16384 := by decide +kernel

/-- A 1 behind 199 zeros is not terminated in the buffer, and behind more it leaves it. -/
def paddedOne (zeros : Nat) : CStr := ⟨List.replicate zeros 48 ++ [49], by simp [List.mem_replicate]⟩

theorem length_paddedOne (zeros : Nat) : (paddedOne zeros).length = zeros + 1 := by
  rw [CStr.length, paddedOne, List.length_append, List.length_replicate, List.length_singleton]

theorem long_value_overruns :
    itemProduct 201 (paddedOne 199) = .error .outOfBounds ∧ itemProduct 221 (paddedOne 219) = .error .outOfBounds := by
  constructor
  · exact itemProduct_long (by rw [length_paddedOne]; decide) (by rw [length_paddedOne])
  · exact itemProduct_long (by rw [length_paddedOne]; decide) (by rw [length_paddedOne]; decide)

end Ddm.Conf
