/-
  Ddm.CJson.Strings — `parse_string`: the first loop sizes the block, the second writes it.
  They agree on where a string ends only while four ordinary bytes follow every `\u`.

  Proved: with such escapes no byte is read behind the text and none written behind the
  block (`unescape_fits`), and a string of the format gives the bytes it stands for, less
  U+0000 (`parseString_chars`). Without them the heap is overrun: `"\u"` in front of any
  five ordinary bytes is a fault whatever follows (`parseString_overrun`).
-/

import Ddm.CJson.Parse
import Ddm.Lib.JsonText

namespace Ddm.CJson

open Ddm.Lib Ddm.Registry.Json

@[simp] theorem ok_bind {α β : Type} (a : α) (f : α → Reads β) : (Except.ok a >>= f : Reads β) = f a := rfl

@[simp] theorem error_bind {α β : Type} (e : Stop) (f : α → Reads β) :
    (Except.error e >>= f : Reads β) = .error e := rfl

@[simp] theorem deref_cons (c : UInt8) (t : Bytes) : deref (c :: t) = c := rfl

theorem ne_nil_of_deref {t : Bytes} {c : UInt8} (h : deref t = c) (hc : c ≠ 0) : ∃ u, t = c :: u := by
  cases t with
  | nil => exact absurd h.symm hc
  | cons d u => exact ⟨u, congrArg (· :: u) h⟩

theorem advance_append (w t : Bytes) : advance w.length (w ++ t) = .ok t := by
  unfold advance
  rw [if_pos (by simp), List.drop_left]

/-! ## Escapes that keep the loops together -/

/-- A byte both loops pass as one. -/
def Ordinary (c : UInt8) : Prop := c ≠ 34 ∧ c ≠ 92

/-- Every backslash of the text has its byte, and every `\u` four ordinary ones. -/
inductive WellEscaped : Bytes → Prop where
  | nil : WellEscaped []
  | plain {c : UInt8} {t : Bytes} (hc : c ≠ 92) (h : WellEscaped t) : WellEscaped (c :: t)
  | short {e : UInt8} {t : Bytes} (he : e ≠ 117) (h : WellEscaped t) : WellEscaped (92 :: e :: t)
  | unit {a b c d : UInt8} {t : Bytes} (ha : Ordinary a) (hb : Ordinary b) (hc : Ordinary c) (hd : Ordinary d)
      (h : WellEscaped t) : WellEscaped (92 :: 117 :: a :: b :: c :: d :: t)

theorem WellEscaped.tail {c : UInt8} {t : Bytes} (h : WellEscaped (c :: t)) (hc : c ≠ 92) : WellEscaped t := by
  cases h with
  | plain _ h => exact h
  | short => exact absurd rfl hc
  | unit => exact absurd rfl hc

/-- The first loop over bytes it does not stop at. -/
theorem stringLen_ordinary {w : Bytes} (hw : ∀ c ∈ w, Ordinary c) (t : Bytes) :
    stringLen (w ++ t) = (stringLen t).map (· + w.length) := by
  induction w with
  | nil =>
    show stringLen t = (stringLen t).map id
    cases stringLen t <;> rfl
  | cons c w ih =>
    have hc := hw c (List.mem_cons_self ..)
    show stringLen (c :: (w ++ t)) = _
    rw [stringLen.eq_def]
    simp only [if_neg hc.1, if_neg hc.2]
    rw [ih fun x hx => hw x (List.mem_cons_of_mem _ hx)]
    cases stringLen t with
    | error e => rfl
    | ok n => show Except.ok _ = Except.ok _; simp only [List.length_cons]; congr 1

theorem stringLen_escape (e : UInt8) (t : Bytes) : stringLen (92 :: e :: t) = (stringLen t).map (· + 1) := by
  rw [stringLen.eq_def]
  simp

/-- A turn of the second loop that writes no more than it passes, and passes what the
    first loop does. -/
structure Turned (ptr w ptr' : Bytes) : Prop where
  turn : turn ptr = .ok (w, ptr')
  shorter : ptr'.length < ptr.length
  sized : ∃ k, w.length ≤ k ∧ stringLen ptr = (stringLen ptr').map (· + k)

/-- The first loop ends, and in any block larger than what it counted the second writes
    `out` and ends on `rest`. -/
def Copies (ptr out rest : Bytes) : Prop :=
  ∃ len, stringLen ptr = .ok len ∧
    ∀ fuel room, ptr.length < fuel → len < room → unescape fuel room ptr = .ok (out, rest)

theorem Copies.stop {ptr : Bytes} (h : deref ptr = 34 ∨ ptr = []) : Copies ptr [] ptr := by
  have hlen : stringLen ptr = .ok 0 := by
    rcases h with hq | rfl
    · obtain ⟨t, rfl⟩ := ne_nil_of_deref hq (by decide)
      rw [stringLen.eq_def]; simp
    · rfl
  refine ⟨0, hlen, fun fuel room hf hr => ?_⟩
  match fuel, hf with
  | fuel + 1, _ => rw [unescape, if_pos h, if_neg (by omega)]

theorem Copies.turned {ptr w ptr' out rest : Bytes} (ht : Turned ptr w ptr') (hend : ¬ (deref ptr = 34 ∨ ptr = []))
    (h : Copies ptr' out rest) : Copies ptr (w ++ out) rest := by
  obtain ⟨k, hk, hsize⟩ := ht.sized
  obtain ⟨len, hlen, hrun⟩ := h
  have hshort := ht.shorter
  refine ⟨len + k, by rw [hsize, hlen]; rfl, fun fuel room hf hr => ?_⟩
  match fuel, hf with
  | fuel + 1, hf =>
    rw [unescape, if_neg hend, ht.turn]
    simp only [ok_bind]
    rw [if_neg (by omega), hrun fuel (room - w.length) (by omega) (by omega)]
    rfl

theorem stringLen_le {t : Bytes} {len : Nat} (h : stringLen t = .ok len) : len ≤ t.length := by
  have step : ∀ {u : Bytes} {len : Nat}, (stringLen u).map (· + 1) = .ok len →
      ∃ m, stringLen u = .ok m ∧ len = m + 1 := by
    intro u len h
    cases hu : stringLen u with
    | error e => rw [hu] at h; cases h
    | ok m => rw [hu] at h; exact ⟨m, rfl, (Except.ok.inj h).symm⟩
  fun_induction stringLen t generalizing len with
  | case1 => cases h; exact Nat.le_refl _
  | case2 => cases h; exact Nat.zero_le _
  | case3 => cases h
  | case4 d u _ ih =>
    obtain ⟨m, hm, rfl⟩ := step h
    have := ih hm
    simp; omega
  | case5 c t hq hb ih =>
    obtain ⟨m, hm, rfl⟩ := step h
    have := ih hm
    simp; omega

/-- The block of a text that an `int` holds the length of. -/
theorem parseString_copies {t out rest : Bytes} (h : Copies t out rest) (hint : t.length + 1 < 2 ^ 31) :
    parseString (34 :: t) = .ok (.ofBytes out, if deref rest = 34 then rest.tail else rest) := by
  obtain ⟨len, hlen, hrun⟩ := h
  have hle := stringLen_le hlen
  unfold parseString
  rw [if_neg (by simp)]
  show (stringLen t >>= _) = _
  rw [hlen, ok_bind, if_neg (by omega), List.tail_cons, hrun _ _ (by simp) (Nat.lt_succ_self len)]
  rfl

theorem encode_length (uc : Nat) : (encode uc).length ≤ 4 := by
  unfold encode
  split
  · exact (by decide : 1 ≤ 4)
  · split
    · exact (by decide : 2 ≤ 4)
    · split
      · exact (by decide : 3 ≤ 4)
      · exact Nat.le_refl 4

theorem pair_length (uc uc2 : Nat) : (pair uc uc2).length ≤ 4 := by
  unfold pair
  split
  · exact Nat.zero_le 4
  · exact encode_length _

theorem turn_escape {e : UInt8} {t w p : Bytes} (h : escaped (e :: t) = .ok (w, p)) :
    turn (92 :: e :: t) = (advance 1 p).map (w, ·) := by
  unfold turn
  simp only [deref_cons, ne_eq, not_true, if_false, List.tail_cons, h, ok_bind]
  cases advance 1 p <;> rfl

theorem escaped_u (t : Bytes) : escaped (117 :: t) = transcode (117 :: t) := by
  unfold escaped
  simp

/-- The first loop over an escape with its four bytes. -/
theorem stringLen_unit {a b c d : UInt8} (ha : Ordinary a) (hb : Ordinary b) (hc : Ordinary c) (hd : Ordinary d)
    (t : Bytes) : stringLen (92 :: 117 :: a :: b :: c :: d :: t) = (stringLen t).map (· + 5) := by
  have h := stringLen_ordinary (w := [a, b, c, d]) (by simp [ha, hb, hc, hd]) t
  rw [stringLen_escape]
  show (stringLen ([a, b, c, d] ++ t)).map (· + 1) = _
  rw [h]
  cases stringLen t <;> rfl

theorem transcode_unit (a b c d : UInt8) (t : Bytes) :
    transcode (117 :: a :: b :: c :: d :: t) = surrogates (parseHex4 (a :: b :: c :: d :: t)) (d :: t) := by
  unfold transcode
  have h4 : advance 4 (117 :: a :: b :: c :: d :: t) = .ok (d :: t) := advance_append [117, a, b, c] (d :: t)
  rw [h4]; rfl

/-- Where four bytes follow `\u`: the next escape is taken along when it is looked at as
    the second half. -/
theorem surrogates_cases (uc : Nat) (d : UInt8) (t : Bytes) :
    (∃ w, w.length ≤ 4 ∧ surrogates uc (d :: t) = .ok (w, d :: t)) ∨
    ∃ t', t = 92 :: 117 :: t' ∧ ∃ w, w.length ≤ 4 ∧ surrogates uc (d :: t) = (advance 6 (d :: t)).map (w, ·) := by
  unfold surrogates
  split
  · exact Or.inl ⟨[], Nat.zero_le _, rfl⟩
  · split
    · split
      · exact Or.inl ⟨[], Nat.zero_le _, rfl⟩
      · rename_i hsecond
        have h1 : deref t = 92 := Decidable.not_not.mp fun h => hsecond (Or.inl h)
        have h2 : deref t.tail = 117 := Decidable.not_not.mp fun h => hsecond (Or.inr h)
        obtain ⟨t₁, rfl⟩ := ne_nil_of_deref h1 (by decide)
        obtain ⟨t₂, rfl⟩ := ne_nil_of_deref h2 (by decide)
        refine Or.inr ⟨t₂, rfl, ?_⟩
        exact ⟨_, pair_length uc _, rfl⟩
    · exact Or.inl ⟨_, encode_length _, rfl⟩

theorem turned_unit {a b c d : UInt8} {t : Bytes} (ha : Ordinary a) (hb : Ordinary b) (hc : Ordinary c)
    (hd : Ordinary d) (ht : WellEscaped t) :
    ∃ w ptr', Turned (92 :: 117 :: a :: b :: c :: d :: t) w ptr' ∧ WellEscaped ptr' := by
  have hsize := stringLen_unit ha hb hc hd
  rcases surrogates_cases (parseHex4 (a :: b :: c :: d :: t)) d t with ⟨w, hw, htr⟩ | ⟨t', rfl, w, hw, htr⟩
  · rw [← transcode_unit, ← escaped_u] at htr
    exact ⟨w, t, ⟨turn_escape htr, by simp; omega, 5, by omega, hsize t⟩, ht⟩
  · cases ht with
    | plain h => exact absurd rfl h
    | short h => exact absurd rfl h
    | @unit e f g h u he hf hg hh hu =>
      have h6 : advance 6 (d :: 92 :: 117 :: e :: f :: g :: h :: u) = .ok (h :: u) :=
        advance_append [d, 92, 117, e, f, g] (h :: u)
      rw [h6, ← transcode_unit, ← escaped_u] at htr
      refine ⟨w, u, ⟨turn_escape htr, by simp; omega, 10, by omega, ?_⟩, hu⟩
      rw [hsize, stringLen_unit he hf hg hh]
      cases stringLen u <;> rfl

theorem escaped_short {e : UInt8} (he : e ≠ 117) (t : Bytes) : escaped (e :: t) = .ok ([escapeByte e], e :: t) := by
  unfold escaped
  exact if_neg he

theorem turned_short {e : UInt8} (he : e ≠ 117) (t : Bytes) : Turned (92 :: e :: t) [escapeByte e] t :=
  ⟨turn_escape (escaped_short he t), by simp only [List.length_cons]; omega, 1, Nat.le_refl _, stringLen_escape e t⟩

theorem turned_plain {c : UInt8} (hc : Ordinary c) (t : Bytes) : Turned (c :: t) [c] t :=
  ⟨by simp [turn, hc.2], by simp, 1, Nat.le_refl _, stringLen_ordinary (w := [c]) (by simpa using hc) t⟩

/-- Every turn of the second loop inside a string. -/
theorem turned {ptr : Bytes} (h : WellEscaped ptr) (hend : ¬ (deref ptr = 34 ∨ ptr = [])) :
    ∃ w ptr', Turned ptr w ptr' ∧ WellEscaped ptr' := by
  cases h with
  | nil => exact absurd (Or.inr rfl) hend
  | @plain c t hc ht => exact ⟨_, t, turned_plain ⟨fun e => hend (Or.inl e), hc⟩ t, ht⟩
  | short he ht => exact ⟨_, _, turned_short he _, ht⟩
  | unit ha hb hc hd ht => exact turned_unit ha hb hc hd ht

/-- With such escapes the second loop fits into the block the first one measured and ends
    on the quote or the terminator, having read nothing behind the text. -/
theorem unescape_fits {ptr : Bytes} (h : WellEscaped ptr) :
    ∃ out rest, Copies ptr out rest ∧ WellEscaped rest ∧ rest.length ≤ ptr.length := by
  induction hn : ptr.length using Nat.strongRecOn generalizing ptr with
  | ind n ih =>
    by_cases hend : deref ptr = 34 ∨ ptr = []
    · exact ⟨[], ptr, .stop hend, h, by omega⟩
    · obtain ⟨w, ptr', ht, hw⟩ := turned h hend
      have hshort := ht.shorter
      obtain ⟨out, rest, hc, hr, hle⟩ := ih ptr'.length (by omega) hw rfl
      exact ⟨w ++ out, rest, hc.turned ht hend, hr, by omega⟩

/-! ## A short `\u`

    `ptr+=4` does not look at what it passes. Where it passes the quote, the second loop
    goes on behind the string the first one measured. -/

theorem advance_error {n : Nat} {t : Bytes} {e : Stop} (h : advance n t = .error e) : e = .fault := by
  unfold advance at h
  split at h
  · cases h
  · cases h; rfl

theorem advance_length {n : Nat} {t u : Bytes} (h : advance n t = .ok u) : u.length + n = t.length := by
  unfold advance at h
  split at h
  · cases h; simp; omega
  · cases h

theorem surrogates_spec (uc : Nat) (ptr : Bytes) :
    surrogates uc ptr = .error .fault ∨ ∃ w p, surrogates uc ptr = .ok (w, p) ∧ p.length ≤ ptr.length := by
  unfold surrogates
  split
  · exact Or.inr ⟨[], ptr, rfl, Nat.le_refl _⟩
  · split
    · split
      · exact Or.inr ⟨[], ptr, rfl, Nat.le_refl _⟩
      · cases h : advance 6 ptr with
        | error e => obtain rfl := advance_error h; exact Or.inl rfl
        | ok p =>
          have := advance_length h
          exact Or.inr ⟨_, p, rfl, by omega⟩
    · exact Or.inr ⟨_, ptr, rfl, Nat.le_refl _⟩

theorem escaped_spec (ptr : Bytes) :
    escaped ptr = .error .fault ∨ ∃ w p, escaped ptr = .ok (w, p) ∧ p.length ≤ ptr.length := by
  unfold escaped
  split
  · unfold transcode
    simp only
    cases h : advance 4 ptr with
    | error e => obtain rfl := advance_error h; exact Or.inl rfl
    | ok p =>
      have := advance_length h
      rcases surrogates_spec (parseHex4 ptr.tail) p with h | ⟨w, q, hq, hle⟩
      · exact Or.inl h
      · exact Or.inr ⟨w, q, hq, by omega⟩
  · exact Or.inr ⟨_, ptr, rfl, Nat.le_refl _⟩

/-- A turn moves on, or reads behind the text. -/
theorem turn_spec {ptr : Bytes} (hn : ptr ≠ []) :
    turn ptr = .error .fault ∨ ∃ w p, turn ptr = .ok (w, p) ∧ p.length < ptr.length := by
  obtain ⟨c, t, rfl⟩ := List.exists_cons_of_ne_nil hn
  by_cases hc : c = 92
  · subst hc
    rcases escaped_spec t with h | ⟨w, p, h, hle⟩
    · left; unfold turn; simp [h]
    · unfold turn
      simp only [deref_cons, ne_eq, not_true, if_false, List.tail_cons, h, ok_bind]
      cases ha : advance 1 p with
      | error e => obtain rfl := advance_error ha; exact Or.inl rfl
      | ok q =>
        have := advance_length ha
        exact Or.inr ⟨w, q, rfl, by simp; omega⟩
  · exact Or.inr ⟨[c], t, by simp [turn, hc], by simp⟩

/-- A full block: the loop cannot come to its end without a fault, be it the terminator's. -/
theorem unescape_full {fuel : Nat} {ptr : Bytes} (hf : ptr.length < fuel) :
    unescape fuel 0 ptr = .error .fault := by
  induction fuel generalizing ptr with
  | zero => exact absurd hf (Nat.not_lt_zero _)
  | succ fuel ih =>
    rw [unescape]
    split
    · rfl
    · rename_i hend
      rcases turn_spec (fun e => hend (Or.inr e)) with h | ⟨w, p, h, hlt⟩
      · rw [h]; rfl
      · rw [h]
        simp only [ok_bind]
        split
        · rfl
        · rw [Nat.zero_sub, ih (by omega)]; rfl

theorem unescape_ordinary {c : UInt8} (hc : Ordinary c) (fuel room : Nat) (t : Bytes) :
    unescape (fuel + 1) (room + 1) (c :: t) = (unescape fuel room t).map fun p => (c :: p.1, p.2) := by
  have hend : ¬ (deref (c :: t) = 34 ∨ c :: t = []) := by simpa using hc.1
  rw [unescape, if_neg hend, (turned_plain hc t).turn]
  simp only [ok_bind]
  rw [if_neg (by simp)]
  show (unescape fuel room t >>= _) = _
  cases unescape fuel room t <;> rfl

/-- `"\u"` in front of five ordinary bytes: the first loop ends on the quote and counts one
    byte, the second passes the quote and fills the block of two. -/
theorem parseString_overrun {a b c d e : UInt8} (hd : Ordinary d) (he : Ordinary e) (r : Bytes) :
    parseString (34 :: 92 :: 117 :: 34 :: a :: b :: c :: d :: e :: r) = .error .fault := by
  have hlen : stringLen (92 :: 117 :: 34 :: a :: b :: c :: d :: e :: r) = .ok 1 := by
    rw [stringLen_escape, stringLen.eq_def]
    simp [Except.map]
  have hzero : parseHex4 (34 :: a :: b :: c :: d :: e :: r) = 0 := by
    have hq : hexValue 34 = none := by decide
    simp only [parseHex4, hq]
  have h4 : advance 4 (117 :: 34 :: a :: b :: c :: d :: e :: r) = .ok (c :: d :: e :: r) :=
    advance_append [117, 34, a, b] (c :: d :: e :: r)
  have hturn : turn (92 :: 117 :: 34 :: a :: b :: c :: d :: e :: r) = .ok ([], d :: e :: r) := by
    refine (turn_escape (p := c :: d :: e :: r) (w := []) ?_).trans (by rfl)
    rw [escaped_u]
    unfold transcode
    rw [List.tail_cons, hzero, h4, ok_bind]
    rfl
  unfold parseString
  rw [if_neg (by simp), List.tail_cons, hlen, ok_bind, if_neg (by decide)]
  have hend : ¬ (deref (92 :: 117 :: 34 :: a :: b :: c :: d :: e :: r) = 34 ∨
    92 :: 117 :: 34 :: a :: b :: c :: d :: e :: r = []) := by simp
  show (unescape ((r.length + 8) + 1) 2 _ >>= _) = _
  rw [unescape, if_neg hend, hturn]
  simp only [ok_bind, List.length_nil, Nat.not_lt_zero, if_false, Nat.sub_zero]
  rw [unescape_ordinary hd (r.length + 7) 1, unescape_ordinary he (r.length + 6) 0, unescape_full (by omega)]
  rfl

/-! ## The bytes of a character -/

theorem toUInt8_congr {m n : Nat} (h : m % 256 = n % 256) : m.toUInt8 = n.toUInt8 := UInt8.toNat_inj.mp h

theorem tailByte_eq (uc : Nat) : tailByte uc = (uc % 64 + 128).toUInt8 := by
  have small : ∀ m < 256, (m ||| 0x80) &&& 0xBF = m % 64 + 128 := by decide +kernel
  have h : ((uc ||| 0x80) &&& 0xBF) % 2 ^ 8 = (uc % 2 ^ 8 ||| 0x80) &&& 0xBF := by
    rw [Nat.and_mod_two_pow, Nat.or_mod_two_pow]
  rw [small (uc % 2 ^ 8) (Nat.mod_lt _ (by decide))] at h
  refine toUInt8_congr ?_
  omega

/-- The lead byte's bits do not overlap its mark. -/
theorem mark_eq : (∀ x < 32, x ||| firstByteMark 2 = x + 192) ∧ (∀ x < 16, x ||| firstByteMark 3 = x + 224) ∧
    ∀ x < 8, x ||| firstByteMark 4 = x + 240 := by decide

theorem toNat_lt (ch : Char) : ch.toNat < 0x110000 := by
  have := ch.valid
  show ch.val.toNat < _
  unfold UInt32.isValidChar Nat.isValidChar at this
  omega

/-- Lean's encoder over the number of the character. -/
def utf8 (v : Nat) : Bytes :=
  if v ≤ 0x7f then [v.toUInt8]
  else if v ≤ 0x7ff then [(v / 64 % 32 + 192).toUInt8, (v % 64 + 128).toUInt8]
  else if v ≤ 0xffff then [(v / 4096 % 16 + 224).toUInt8, (v / 64 % 64 + 128).toUInt8, (v % 64 + 128).toUInt8]
  else [(v / 262144 % 8 + 240).toUInt8, (v / 4096 % 64 + 128).toUInt8, (v / 64 % 64 + 128).toUInt8,
    (v % 64 + 128).toUInt8]

example (ch : Char) : String.utf8EncodeChar ch = utf8 ch.toNat := rfl

theorem encode_eq {v : Nat} (hv : v < 0x110000) : encode v = utf8 v := by
  obtain ⟨h2, h3, h4⟩ := mark_eq
  unfold encode utf8
  simp only [tailByte_eq, Nat.shiftRight_eq_div_pow]
  by_cases h7 : v < 0x80
  · rw [if_pos h7, if_pos (show v ≤ 0x7f by omega)]
    exact congrArg (fun n : Nat => [n.toUInt8]) (Nat.or_zero v)
  · rw [if_neg h7, if_neg (show ¬ v ≤ 0x7f by omega)]
    by_cases h11 : v < 0x800
    · rw [if_pos h11, if_pos (show v ≤ 0x7ff by omega), h2 _ (by omega), Nat.mod_eq_of_lt (a := v / 64) (by omega)]
    · rw [if_neg h11, if_neg (show ¬ v ≤ 0x7ff by omega)]
      by_cases h16 : v < 0x10000
      · rw [if_pos h16, if_pos (show v ≤ 0xffff by omega), h3 _ (by omega), Nat.mod_eq_of_lt (a := v / 4096) (by omega)]
      · rw [if_neg h16, if_neg (show ¬ v ≤ 0xffff by omega), h4 _ (by omega),
          Nat.mod_eq_of_lt (a := v / 262144) (by omega)]

/-- The source's encoder is Lean's. -/
theorem encode_char (ch : Char) : encode ch.toNat = String.utf8EncodeChar ch := encode_eq (toNat_lt ch)

theorem filter_utf8 (v : Nat) (hv : v < 0x110000) : (utf8 v).filter (· ≠ 0) = if v = 0 then [] else utf8 v := by
  have hne : ∀ n : Nat, 0 < n → n < 256 → n.toUInt8 ≠ 0 := by
    intro n h1 h2 h
    have : n % 256 = 0 := congrArg UInt8.toNat h
    omega
  split
  · subst v; rfl
  · refine List.filter_eq_self.mpr fun b hb => decide_eq_true ?_
    unfold utf8 at hb
    split at hb
    · obtain rfl := List.mem_singleton.mp hb
      exact hne v (by omega) (by omega)
    · split at hb
      · simp only [List.mem_cons, List.not_mem_nil, or_false] at hb
        rcases hb with rfl | rfl <;> exact hne _ (by omega) (by omega)
      · split at hb
        · simp only [List.mem_cons, List.not_mem_nil, or_false] at hb
          rcases hb with rfl | rfl | rfl <;> exact hne _ (by omega) (by omega)
        · simp only [List.mem_cons, List.not_mem_nil, or_false] at hb
          rcases hb with rfl | rfl | rfl | rfl <;> exact hne _ (by omega) (by omega)

/-! ## The strings of the format -/

open JsonText

theorem hexDigit_spec {c : UInt8} {n : Nat} (h : hexDigit c = some n) : Ordinary c ∧ hexValue c = some n ∧ n < 16 := by
  have e34 : (c = 34) = (c.toNat = 34) := by simp [← UInt8.toNat_inj]
  have e92 : (c = 92) = (c.toNat = 92) := by simp [← UInt8.toNat_inj]
  unfold hexDigit at h
  unfold hexValue Ordinary
  simp only [ne_eq, e34, e92, UInt8.le_iff_toNat_le, UInt8.reduceToNat] at *
  generalize c.toNat = m at *
  grind

/-- Four digits are read as the number they spell, and none of them ends a string. -/
theorem parseHex4_spec {ds : Bytes} {n : Nat} (h : Hex4 ds n) : ∃ a b c d, ds = [a, b, c, d] ∧
    (Ordinary a ∧ Ordinary b ∧ Ordinary c ∧ Ordinary d) ∧ n < 0x10000 ∧ ∀ t, parseHex4 (ds ++ t) = n := by
  obtain ⟨ha, hb, hc, hd⟩ := h
  rename_i a b c d w x y z
  obtain ⟨oa, va, la⟩ := hexDigit_spec ha
  obtain ⟨ob, vb, lb⟩ := hexDigit_spec hb
  obtain ⟨oc, vc, lc⟩ := hexDigit_spec hc
  obtain ⟨od, vd, ld⟩ := hexDigit_spec hd
  refine ⟨a, b, c, d, rfl, ⟨oa, ob, oc, od⟩, by omega, fun t => ?_⟩
  show parseHex4 (a :: b :: c :: d :: t) = _
  simp only [parseHex4, va, vb, vc, vd, Nat.shiftLeft_eq]

theorem not_surrogate (ch : Char) : ¬ (0xD800 ≤ ch.toNat ∧ ch.toNat ≤ 0xDFFF) := by
  have h : ch.val.toNat.isValidChar := ch.valid
  unfold Nat.isValidChar at h
  show ¬ (0xD800 ≤ ch.val.toNat ∧ ch.val.toNat ≤ 0xDFFF)
  omega

/-- The bytes of a character less U+0000: what the source writes for it. -/
def written (ch : Char) : Bytes := (String.utf8EncodeChar ch).filter (· ≠ 0)

theorem written_eq (ch : Char) : written ch = if ch.toNat = 0 then [] else encode ch.toNat := by
  rw [encode_char]
  exact filter_utf8 _ (toNat_lt ch)

theorem turned_char {ds : Bytes} {ch : Char} (h : Hex4 ds ch.toNat) (t : Bytes) :
    Turned (92 :: 117 :: (ds ++ t)) (written ch) t := by
  obtain ⟨a, b, c, d, rfl, ⟨ha, hb, hc, hd⟩, hlt, hread⟩ := parseHex4_spec h
  have hs := not_surrogate ch
  have htr : escaped (117 :: a :: b :: c :: d :: t) = .ok (written ch, d :: t) := by
    rw [escaped_u, transcode_unit]
    show surrogates (parseHex4 ([a, b, c, d] ++ t)) _ = _
    rw [hread, written_eq]
    unfold surrogates
    split
    · rename_i hz
      rw [if_pos (by omega)]
    · rename_i hz
      rw [if_neg (by omega), if_neg (by omega)]
  have hlen : (written ch).length ≤ 4 := by
    rw [written_eq]
    split
    · exact Nat.zero_le 4
    · exact encode_length _
  exact ⟨turn_escape htr, by simp; omega, 5, by omega, stringLen_unit ha hb hc hd t⟩

/-- The halves put together again. -/
theorem pair_char {ch : Char} (h : 0x10000 ≤ ch.toNat) :
    pair (0xD800 + (ch.toNat - 0x10000) / 0x400) (0xDC00 + (ch.toNat - 0x10000) % 0x400) = written ch := by
  have hlt := toNat_lt ch
  rw [written_eq, if_neg (by omega)]
  unfold pair
  rw [if_neg (by omega)]
  have hmod : ∀ n, n &&& 0x3FF = n % 2 ^ 10 := fun n => Nat.and_two_pow_sub_one_eq_mod n 10
  rw [hmod, hmod, ← Nat.shiftLeft_add_eq_or_of_lt (by omega), Nat.shiftLeft_eq]
  refine congrArg encode ?_
  omega

theorem turned_pair {hi lo : Bytes} {ch : Char} (hbig : 0x10000 ≤ ch.toNat)
    (hh : Hex4 hi (0xD800 + (ch.toNat - 0x10000) / 0x400)) (hl : Hex4 lo (0xDC00 + (ch.toNat - 0x10000) % 0x400))
    (t : Bytes) : Turned (92 :: 117 :: (hi ++ 92 :: 117 :: (lo ++ t))) (written ch) t := by
  obtain ⟨a, b, c, d, rfl, ⟨ha, hb, hc, hd⟩, -, hread⟩ := parseHex4_spec hh
  obtain ⟨e, f, g, h, rfl, ⟨he, hf, hg, hh⟩, -, hread2⟩ := parseHex4_spec hl
  have hlt := toNat_lt ch
  have htr : escaped (117 :: a :: b :: c :: d :: 92 :: 117 :: e :: f :: g :: h :: t) = .ok (written ch, h :: t) := by
    have h6 : advance 6 (d :: 92 :: 117 :: e :: f :: g :: h :: t) = .ok (h :: t) :=
      advance_append [d, 92, 117, e, f, g] (h :: t)
    rw [escaped_u, transcode_unit]
    show surrogates (parseHex4 ([a, b, c, d] ++ 92 :: 117 :: e :: f :: g :: h :: t)) _ = _
    rw [hread]
    unfold surrogates
    rw [if_neg (by omega), if_pos (by omega), if_neg (by simp), h6]
    show Except.ok (pair _ (parseHex4 ([e, f, g, h] ++ t)), h :: t) = _
    rw [hread2, pair_char hbig]
  have hlen : (written ch).length ≤ 4 := by
    rw [← pair_char hbig]
    exact pair_length _ _
  refine ⟨turn_escape htr, by simp; omega, 10, by omega, ?_⟩
  show stringLen (92 :: 117 :: a :: b :: c :: d :: 92 :: 117 :: e :: f :: g :: h :: t) = _
  rw [stringLen_unit ha hb hc hd, stringLen_unit he hf hg hh]
  cases stringLen t <;> rfl

theorem shortEscape_spec {e c : UInt8} (h : shortEscape e = some c) : e ≠ 117 ∧ escapeByte e = c ∧ c ≠ 0 := by
  unfold shortEscape at h
  repeat' split at h
  all_goals first
    | cases h
      subst e
      decide
    | cases h

/-- A string of the format up to its quote is copied as the bytes it stands for. -/
theorem copies_chars {t v : Bytes} (h : Chars t v) (r : Bytes) :
    Copies (t ++ 34 :: r) (v.filter (· ≠ 0)) (34 :: r) := by
  induction h with
  | nil => exact .stop (Or.inl rfl)
  | @plain c t v hc hq hb h ih =>
    have hne : c ≠ 0 := by intro e; subst e; exact absurd hc (by decide)
    rw [List.filter_cons_of_pos (by simpa using hne)]
    exact ih.turned (turned_plain ⟨hq, hb⟩ _) (by simpa using hq)
  | @short e c t v he h ih =>
    obtain ⟨hu, rfl, hne⟩ := shortEscape_spec he
    rw [List.filter_cons_of_pos (by simpa using hne)]
    exact ih.turned (turned_short hu _) (by simp)
  | @unit ds t v ch hd h ih =>
    rw [List.filter_append]
    have ht := turned_char hd (t ++ 34 :: r)
    rw [← List.append_assoc] at ht
    exact ih.turned ht (by simp)
  | @pair hi lo t v ch hbig hh hl h ih =>
    rw [List.filter_append]
    have ht := turned_pair hbig hh hl (t ++ 34 :: r)
    have hassoc : 92 :: 117 :: (hi ++ 92 :: 117 :: (lo ++ t)) ++ 34 :: r
        = 92 :: 117 :: (hi ++ 92 :: 117 :: (lo ++ (t ++ 34 :: r))) := by simp
    rw [hassoc]
    exact ih.turned ht (by simp)

/-- The string a text spells, as a C string: U+0000 is left out. -/
def dropNul (v : Bytes) : CStr := ⟨v.filter (· ≠ 0), by simp⟩

theorem parseString_chars {t v : Bytes} (h : Chars t v) (r : Bytes) (hint : (t ++ 34 :: r).length + 1 < 2 ^ 31) :
    parseString (34 :: (t ++ 34 :: r)) = .ok (dropNul v, r) := by
  rw [parseString_copies (copies_chars h r) hint, if_pos (deref_cons 34 r)]
  exact congrArg (fun s => Except.ok (s, r)) (CStr.ofBytes_chars (dropNul v))

end Ddm.CJson
