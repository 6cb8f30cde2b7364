/-
  Ddm.Registry.UrlCodec — `url_encode.c`, the same file in the agent and in the
  provider's extension: a services definition travels as a ZooKeeper node name.

  Proved: decoding gives what the text stands for (`urlDecode_iff`); a byte's encoding
  decodes to the byte whatever follows (`decode_encodeByte`), so decoding an encoded text
  gives the text (`decode_encodeBytes`); encoding never shortens and decoding never
  lengthens; an encoded text has no `/`.
-/

import Ddm.Lib.PercentText

namespace Ddm.Registry.UrlCodec

open Ddm.Lib

def hexchars : List UInt8 := [48, 49, 50, 51, 52, 53, 54, 55, 56, 57, 65, 66, 67, 68, 69, 70]

def isxdigit (c : UInt8) : Bool := (48 ≤ c && c ≤ 57) || (65 ≤ c && c ≤ 70) || (97 ≤ c && c ≤ 102)

def tolower (c : UInt8) : UInt8 := if 65 ≤ c ∧ c ≤ 90 then c + 32 else c

/-- One digit of `hextoint`. -/
def hexDigit (c : UInt8) : Int :=
  let c := tolower c
  if 48 ≤ c ∧ c ≤ 57 then (c.toNat : Int) - 48 else (c.toNat : Int) - 97 + 10

def hextoint (a b : UInt8) : Int := hexDigit a * 16 + hexDigit b

/-! ## Encoding -/

/-- `url_encode` writes this byte as an escape. -/
def escaped (c : UInt8) : Bool :=
  (c < 48 && c != 45 && c != 46) || (c < 65 && c > 57) || (c > 90 && c < 97 && c != 95) || c > 122

def encodeByte (c : UInt8) : Bytes :=
  if c = 32 then [43]
  else if escaped c then [37, hexchars.getD (c >>> 4).toNat 0, hexchars.getD (c &&& 15).toNat 0]
  else [c]

def encodeBytes (s : Bytes) : Bytes := s.flatMap encodeByte

/-- `url_encode(s, len)`; `none` where `3 * len + 1` overflows an `int` or is negative,
    so that `calloc` gets no size the code could mean. -/
def urlEncode (s : Bytes) (len : Int) : Option Bytes :=
  if 0 ≤ len ∧ 3 * len + 1 < 2 ^ 31 then some (encodeBytes (s.take len.toNat)) else none

/-! ## Decoding -/

/-- A byte that starts no escape. -/
def decodePlain (c : UInt8) : UInt8 := if c = 43 then 32 else c

/-- `url_decode(str, strlen(str))`: the bytes before the terminator it writes. -/
def urlDecode : Bytes → Bytes
  | [] => []
  | [c] => [decodePlain c]
  | [c, a] => decodePlain c :: urlDecode [a]
  | c :: a :: b :: r =>
    if c = 37 && isxdigit a && isxdigit b then UInt8.ofInt (hextoint a b) :: urlDecode r
    else decodePlain c :: urlDecode (a :: b :: r)

/-! ## What is decoded -/

theorem hexDigit_table : ∀ n < 256, isxdigit (UInt8.ofNat n) = (JsonText.hexDigit (UInt8.ofNat n)).isSome ∧
    ∀ x ∈ JsonText.hexDigit (UInt8.ofNat n), hexDigit (UInt8.ofNat n) = (x : Int) := by
  decide +kernel

theorem isxdigit_eq (c : UInt8) : isxdigit c = (JsonText.hexDigit c).isSome := by
  have h := (hexDigit_table c.toNat c.toNat_lt).1
  rwa [UInt8.ofNat_toNat] at h

theorem hexDigit_eq {c : UInt8} {x : Nat} (hx : JsonText.hexDigit c = some x) : hexDigit c = (x : Int) := by
  have h := (hexDigit_table c.toNat c.toNat_lt).2 x
  rw [UInt8.ofNat_toNat] at h
  exact h hx

theorem hextoint_eq {a b : UInt8} {x y : Nat} (ha : JsonText.hexDigit a = some x) (hb : JsonText.hexDigit b = some y) :
    UInt8.ofInt (hextoint a b) = UInt8.ofNat (x * 16 + y) := by
  rw [hextoint, hexDigit_eq ha, hexDigit_eq hb]
  refine UInt8.toNat_inj.mp ?_
  show (UInt8.ofNat (((x : Int) * 16 + y) % 256).toNat).toNat = _
  rw [UInt8.toNat_ofNat', UInt8.toNat_ofNat']
  omega

theorem decoded_plain {c : UInt8} {s t : Bytes} (he : c = 37 → ¬PercentText.Escape s) (h : PercentText.Decoded s t) :
    PercentText.Decoded (c :: s) (decodePlain c :: t) := by
  unfold decodePlain
  split
  · rename_i hc
    subst hc
    exact .blank h
  · rename_i hc
    exact .plain hc he h

theorem decoded_urlDecode (s : Bytes) : PercentText.Decoded s (urlDecode s) := by
  induction s using urlDecode.induct with
  | case1 => exact .nil
  | case2 c => exact decoded_plain (fun _ ⟨_, _, _, _, _, h, _⟩ => nomatch h) .nil
  | case3 c a ih => exact decoded_plain (fun _ ⟨_, _, _, _, _, h, _⟩ => nomatch h) ih
  | case4 c a b r h ih =>
    rw [urlDecode, if_pos h]
    rw [Bool.and_eq_true, Bool.and_eq_true, decide_eq_true_eq, isxdigit_eq, isxdigit_eq] at h
    obtain ⟨⟨rfl, ha⟩, hb⟩ := h
    obtain ⟨x, hx⟩ := Option.isSome_iff_exists.mp ha
    obtain ⟨y, hy⟩ := Option.isSome_iff_exists.mp hb
    rw [hextoint_eq hx hy]
    exact .escape hx hy ih
  | case5 c a b r h ih =>
    rw [urlDecode, if_neg h]
    refine decoded_plain (fun hc hescape => h ?_) ih
    obtain ⟨_, _, _, x, y, he, hx, hy⟩ := hescape
    cases he
    rw [isxdigit_eq, isxdigit_eq, hx, hy, hc]
    rfl

theorem urlDecode_iff {s t : Bytes} : urlDecode s = t ↔ PercentText.Decoded s t := by
  constructor
  · intro h
    exact h ▸ decoded_urlDecode s
  · intro h
    exact (decoded_urlDecode s).unique h

/-! ## The round trip -/

theorem urlDecode_plain {c : UInt8} (h : c ≠ 37) (r : Bytes) : urlDecode (c :: r) = decodePlain c :: urlDecode r := by
  match r with
  | [] => rfl
  | [_] => rfl
  | _ :: _ :: _ => simp [urlDecode, h]

theorem hex_spec : ∀ n < 256,
    let c := UInt8.ofNat n
    let a := hexchars.getD (c >>> 4).toNat 0
    let b := hexchars.getD (c &&& 15).toNat 0
    isxdigit a = true ∧ isxdigit b = true ∧ UInt8.ofInt (hextoint a b) = c ∧ a ≠ 47 ∧ b ≠ 47 ∧ a ≠ 0 ∧ b ≠ 0 := by
  decide +kernel

/-- The two digits of a byte are hexadecimal digits and read back as the byte. -/
theorem hex_byte (c : UInt8) :
    let a := hexchars.getD (c >>> 4).toNat 0
    let b := hexchars.getD (c &&& 15).toNat 0
    isxdigit a = true ∧ isxdigit b = true ∧ UInt8.ofInt (hextoint a b) = c ∧ a ≠ 47 ∧ b ≠ 47 ∧ a ≠ 0 ∧ b ≠ 0 := by
  have h := hex_spec c.toNat c.toNat_lt
  rwa [UInt8.ofNat_toNat] at h

theorem decode_encodeByte (c : UInt8) (r : Bytes) : urlDecode (encodeByte c ++ r) = c :: urlDecode r := by
  unfold encodeByte
  split
  · rename_i e; subst e; exact urlDecode_plain (by decide) r
  · split
    · obtain ⟨ha, hb, hc, -⟩ := hex_byte c
      show urlDecode (37 :: _ :: _ :: r) = _
      rw [urlDecode, if_pos (by simp only [ha, hb]; decide), hc]
    · rename_i hsp hesc
      have h37 : c ≠ 37 := fun e => hesc (by rw [e]; decide)
      have h43 : c ≠ 43 := fun e => hesc (by rw [e]; decide)
      show urlDecode (c :: r) = _
      rw [urlDecode_plain h37, decodePlain, if_neg h43]

theorem decode_encodeBytes (s r : Bytes) : urlDecode (encodeBytes s ++ r) = s ++ urlDecode r := by
  induction s with
  | nil => rfl
  | cons c s ih =>
    show urlDecode ((encodeByte c ++ encodeBytes s) ++ r) = _
    rw [List.append_assoc, decode_encodeByte, ih, List.cons_append]

/-! ## Lengths and characters -/

theorem length_urlDecode (s : Bytes) : (urlDecode s).length ≤ s.length := by
  induction s using urlDecode.induct with
  | case1 => simp [urlDecode]
  | case2 c => simp [urlDecode]
  | case3 c a ih => simp only [urlDecode, List.length_cons] at ih ⊢; omega
  | case4 c a b r h ih => rw [urlDecode, if_pos h]; simp only [List.length_cons]; omega
  | case5 c a b r h ih => rw [urlDecode, if_neg h]; simp only [List.length_cons] at ih ⊢; omega

theorem length_encodeByte_pos (c : UInt8) : 0 < (encodeByte c).length := by
  unfold encodeByte; split
  · decide
  · split <;> simp

theorem length_encodeBytes (s : Bytes) : s.length ≤ (encodeBytes s).length := by
  induction s with
  | nil => simp
  | cons c s ih =>
    have := length_encodeByte_pos c
    simp only [encodeBytes, List.flatMap_cons, List.length_append, List.length_cons] at ih ⊢
    omega

/-- An encoded byte holds neither the path separator nor a NUL. -/
theorem encodeByte_clean {c x : UInt8} (h0 : c ≠ 0) (h : x ∈ encodeByte c) : x ≠ 47 ∧ x ≠ 0 := by
  unfold encodeByte at h
  split at h
  · simp only [List.mem_singleton] at h; subst h; decide
  · split at h
    · obtain ⟨-, -, -, ha, hb, ha0, hb0⟩ := hex_byte c
      simp only [List.mem_cons, List.not_mem_nil, or_false] at h
      rcases h with rfl | rfl | rfl
      · decide
      · exact ⟨ha, ha0⟩
      · exact ⟨hb, hb0⟩
    · rename_i hesc
      simp only [List.mem_singleton] at h; subst h
      exact ⟨fun e => hesc (by rw [e]; decide), h0⟩

theorem encodeBytes_clean {s : Bytes} (h0 : 0 ∉ s) {x : UInt8} (h : x ∈ encodeBytes s) : x ≠ 47 ∧ x ≠ 0 := by
  obtain ⟨c, hc, hx⟩ := List.mem_flatMap.mp h
  exact encodeByte_clean (fun e => h0 (e ▸ hc)) hx

/-! ## A cut encoding -/

theorem encodeBytes_cons (c : UInt8) (s : Bytes) : encodeBytes (c :: s) = encodeByte c ++ encodeBytes s := rfl

theorem encodeBytes_append (s t : Bytes) : encodeBytes (s ++ t) = encodeBytes s ++ encodeBytes t :=
  List.flatMap_append

/-- A cut falls into the encoding of one byte, or before it. -/
theorem encodeBytes_take {s : Bytes} {m : Nat} (h : m < (encodeBytes s).length) :
    ∃ a c b p q, s = a ++ c :: b ∧ encodeByte c = p ++ q ∧ q ≠ [] ∧ (encodeBytes s).take m = encodeBytes a ++ p := by
  induction s generalizing m with
  | nil => simp [encodeBytes] at h
  | cons c s ih =>
    rw [encodeBytes_cons] at h ⊢
    by_cases hm : m < (encodeByte c).length
    · refine ⟨[], c, s, (encodeByte c).take m, (encodeByte c).drop m, rfl, (List.take_append_drop ..).symm, ?_, ?_⟩
      · simpa using hm
      · rw [List.take_append_of_le_length (by omega)]; rfl
    · have hm' : m - (encodeByte c).length < (encodeBytes s).length := by
        rw [List.length_append] at h; omega
      obtain ⟨a, d, b, p, q, rfl, hpq, hq, ht⟩ := ih hm'
      refine ⟨c :: a, d, b, p, q, rfl, hpq, hq, ?_⟩
      rw [List.take_append, ht, List.take_of_length_le (by omega), encodeBytes_cons, List.append_assoc]

/-- Part of a byte's encoding decodes to the byte, and to all that followed it, only for
    a `%` before what its own digits start with. -/
theorem urlDecode_part {c : UInt8} {b p q : Bytes} (h : encodeByte c = p ++ q) (hq : q ≠ []) :
    urlDecode p = c :: b ↔ c = 37 ∧ (p = [37] ∧ b = [] ∨ p = [37, 50] ∧ b = [50]) := by
  unfold encodeByte at h
  split at h
  · obtain rfl : p = [] := by
      rcases List.append_eq_singleton_iff.mp h.symm with ⟨hp, -⟩ | ⟨-, hq'⟩
      · exact hp
      · exact absurd hq' hq
    simp [urlDecode]
  · split at h
    · match p, h with
      | [], _ => simp [urlDecode]
      | [x], h =>
        obtain ⟨rfl, -⟩ := List.cons.inj h
        simp [urlDecode, decodePlain, eq_comm]
      | [x, y], h =>
        obtain ⟨rfl, ht⟩ := List.cons.inj h
        obtain ⟨rfl, -⟩ := List.cons.inj ht
        have hplain : decodePlain (hexchars.getD (c >>> 4).toNat 0) = hexchars.getD (c >>> 4).toNat 0 :=
          if_neg fun e => absurd (hex_byte c).1 (by rw [e]; decide)
        have h37 : decodePlain 37 = 37 := rfl
        simp only [urlDecode, hplain, h37, List.cons.injEq, and_true]
        constructor
        · intro h
          obtain ⟨rfl, rfl⟩ := h
          exact ⟨rfl, Or.inr ⟨⟨trivial, rfl⟩, rfl⟩⟩
        · intro h
          rcases h with ⟨rfl, ⟨h, -⟩ | ⟨⟨-, -⟩, rfl⟩⟩
          · cases h.2
          · exact ⟨rfl, rfl⟩
      | x :: y :: z :: r, h =>
        have := congrArg List.length h
        simp only [List.length_cons, List.length_append, List.length_nil] at this
        exact absurd (List.eq_nil_of_length_eq_zero (by omega : q.length = 0)) hq
    · obtain rfl : p = [] := by
        rcases List.append_eq_singleton_iff.mp h.symm with ⟨hp, -⟩ | ⟨-, hq'⟩
        · exact hp
        · exact absurd hq' hq
      simp [urlDecode]

/-- A cut encoding decodes to the whole text only where the cut took just the digits of
    a last `%`, or the last two characters of a last `%2`. -/
theorem urlDecode_take {s : Bytes} {m : Nat} : urlDecode ((encodeBytes s).take m) = s ↔
    (encodeBytes s).length ≤ m ∨
      (encodeBytes s).length = m + 2 ∧ ∃ a, s = a ++ [37] ∨ s = a ++ [37, 50] := by
  have hwhole : ∀ s, urlDecode (encodeBytes s) = s := fun s => by
    have := decode_encodeBytes s []
    rwa [List.append_nil, urlDecode, List.append_nil] at this
  constructor
  · intro h
    by_cases hm : (encodeBytes s).length ≤ m
    · exact Or.inl hm
    · obtain ⟨a, c, b, p, q, rfl, hpq, hq, ht⟩ := encodeBytes_take (by omega : m < (encodeBytes s).length)
      have hlen := congrArg List.length ht
      rw [ht, decode_encodeBytes] at h
      obtain ⟨rfl, ⟨rfl, rfl⟩ | ⟨rfl, rfl⟩⟩ := (urlDecode_part hpq hq).mp (List.append_cancel_left h)
      · refine Or.inr ⟨?_, a, Or.inl rfl⟩
        rw [encodeBytes_append, encodeBytes_cons] at hlen hm ⊢
        simp only [List.length_take, List.length_append, List.length_cons, List.length_nil,
          show (encodeByte 37).length = 3 from rfl, show (encodeBytes []).length = 0 from rfl] at hlen hm ⊢
        omega
      · refine Or.inr ⟨?_, a, Or.inr rfl⟩
        rw [encodeBytes_append, encodeBytes_cons] at hlen hm ⊢
        simp only [List.length_take, List.length_append, List.length_cons, List.length_nil,
          show (encodeByte 37).length = 3 from rfl, show (encodeBytes [50]).length = 1 from rfl] at hlen hm ⊢
        omega
  · intro h
    rcases h with h | ⟨h, a, rfl | rfl⟩
    · rw [List.take_of_length_le h]; exact hwhole s
    · rw [encodeBytes_append] at h ⊢
      have hm : m = (encodeBytes a).length + 1 := by
        rw [List.length_append, show (encodeBytes [37]).length = 3 from rfl] at h; omega
      rw [hm, List.take_length_add_append, decode_encodeBytes]; rfl
    · rw [encodeBytes_append] at h ⊢
      have hm : m = (encodeBytes a).length + 2 := by
        rw [List.length_append, show (encodeBytes [37, 50]).length = 4 from rfl] at h; omega
      rw [hm, List.take_length_add_append, decode_encodeBytes]; rfl

/-- The encoded text as a string again. -/
def encodeStr (s : CStr) : CStr := ⟨encodeBytes s.chars, fun h => (encodeBytes_clean s.noNul h).2 rfl⟩

end Ddm.Registry.UrlCodec
