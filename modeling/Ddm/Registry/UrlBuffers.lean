/-
  Ddm.Registry.UrlBuffers — what `url_encode` and `url_decode` do to their buffers.

  `Ddm.Registry.UrlCodec` has the bytes they make. Here the decoder runs over the memory
  at `str` with its counter, and what it reads and stores is kept; the encoder's output
  is compared with the `3 * len + 1` bytes it allocates.

  Proved: the decoder stores the decoded bytes and a terminator and reads nothing else
  than the string (`decodeLoop_spec`); it stays inside the `len` bytes it allocates if
  and only if an escape decodes (`decode_inBounds_iff`). A text makes the round trip if
  and only if the encoder's allocation fits an `int` (`round_trip_iff`).
-/

import Ddm.Registry.UrlCodec

namespace Ddm.Registry.UrlCodec

open Ddm.Lib

/-- The offsets a call reads from `str`, and the bytes it stores from `dest` on. -/
structure Trace where
  reads : List Nat
  stored : Bytes
  deriving DecidableEq

def Trace.after (t : Trace) (reads : List Nat) (b : UInt8) : Trace := ⟨reads ++ t.reads, b :: t.stored⟩

/-- The condition of the second branch; `&&` reads no further than the first part that
    fails. -/
def lookAhead (str : Nat → UInt8) (len data : Nat) : Bool × List Nat :=
  if str data = 37 && 2 ≤ len then
    if isxdigit (str (data + 1)) then (isxdigit (str (data + 2)), [data + 1, data + 2]) else (false, [data + 1])
  else (false, [])

/-- The `while (len--)` loop, and the terminator. -/
def decodeLoop (str : Nat → UInt8) : Nat → Nat → Trace
  | 0, _ => ⟨[], [0]⟩
  | len + 1, data =>
    let (escape, reads) := lookAhead str len data
    if escape then
      (decodeLoop str (len - 2) (data + 3)).after (data :: reads) (.ofInt (hextoint (str (data + 1)) (str (data + 2))))
    else (decodeLoop str len (data + 1)).after (data :: reads) (decodePlain (str data))
termination_by len => len
decreasing_by all_goals omega

/-- `url_decode(str, len)`. For a negative `len` there is no memory, and the first store
    goes to NULL. -/
def urlDecodeAt (str : Nat → UInt8) (len : Int) : Trace :=
  if 0 ≤ len then decodeLoop str len.toNat 0 else ⟨[0], [decodePlain (str 0)]⟩

/-- Only the string is read, and only the `len` bytes of `malloc(len)` are written. -/
def InBounds (len : Int) (t : Trace) : Prop := (∀ i ∈ t.reads, (i : Int) < len) ∧ (t.stored.length : Int) ≤ len

/-- The memory holds these bytes from `data` on. -/
def Holds (str : Nat → UInt8) : Nat → Bytes → Prop
  | _, [] => True
  | data, b :: bytes => str data = b ∧ Holds str (data + 1) bytes

/-- A `%` and two hexadecimal digits stand somewhere. -/
def HasEscape (s : Bytes) : Prop := ∃ p a b r, s = p ++ 37 :: a :: b :: r ∧ isxdigit a = true ∧ isxdigit b = true

/-! ## The decoder over memory -/

theorem lookAhead_short {str : Nat → UInt8} {len data : Nat} (h : len < 2) : lookAhead str len data = (false, []) := by
  unfold lookAhead
  rw [if_neg]
  rw [Bool.and_eq_true, decide_eq_true_eq, decide_eq_true_eq]
  omega

theorem lookAhead_reads {str : Nat → UInt8} {len data i : Nat} (h : i ∈ (lookAhead str len data).2) :
    data < i ∧ i ≤ data + len := by
  unfold lookAhead at h
  split at h
  · rename_i hc
    rw [Bool.and_eq_true, decide_eq_true_eq, decide_eq_true_eq] at hc
    split at h
    · simp only [List.mem_cons, List.not_mem_nil, or_false] at h
      omega
    · simp only [List.mem_cons, List.not_mem_nil, or_false] at h
      omega
  · cases h

theorem lookAhead_escape {str : Nat → UInt8} {data : Nat} {c a b : UInt8} {r : Bytes}
    (h : Holds str data (c :: a :: b :: r)) :
    (lookAhead str (r.length + 2) data).1 = (decide (c = 37) && isxdigit a && isxdigit b) := by
  obtain ⟨rfl, rfl, rfl, -⟩ := h
  unfold lookAhead
  by_cases hc : str data = 37
  · rw [if_pos (by simp [hc])]
    split
    · simp_all
    · simp_all
  · rw [if_neg (by simp [hc])]
    simp [hc]

theorem decodeLoop_plain {str : Nat → UInt8} {len data : Nat} (h : (lookAhead str len data).1 = false) :
    decodeLoop str (len + 1) data =
      (decodeLoop str len (data + 1)).after (data :: (lookAhead str len data).2) (decodePlain (str data)) := by
  simp only [decodeLoop, h, Bool.false_eq_true, if_false]

theorem decodeLoop_escape {str : Nat → UInt8} {len data : Nat} (h : (lookAhead str len data).1 = true) :
    decodeLoop str (len + 1) data = (decodeLoop str (len - 2) (data + 3)).after (data :: (lookAhead str len data).2)
      (.ofInt (hextoint (str (data + 1)) (str (data + 2)))) := by
  simp only [decodeLoop, h, if_true]

/-- What the loop does with a string at `data`. -/
structure Decodes (bytes : Bytes) (data : Nat) (t : Trace) : Prop where
  stored : t.stored = urlDecode bytes ++ [0]
  reads : ∀ i ∈ t.reads, data ≤ i ∧ i < data + bytes.length

theorem Decodes.plain {str : Nat → UInt8} {data : Nat} {c : UInt8} {bytes : Bytes} (hc : str data = c)
    (hl : (lookAhead str bytes.length data).1 = false) (hd : urlDecode (c :: bytes) = decodePlain c :: urlDecode bytes)
    (h : Decodes bytes (data + 1) (decodeLoop str bytes.length (data + 1))) :
    Decodes (c :: bytes) data (decodeLoop str (c :: bytes).length data) := by
  rw [List.length_cons, decodeLoop_plain hl, hc]
  refine ⟨by rw [Trace.after, h.stored, hd]; rfl, fun i hi => ?_⟩
  rw [List.length_cons]
  rcases List.mem_append.mp hi with hi | hi
  · rcases List.mem_cons.mp hi with rfl | hi
    · omega
    · have := lookAhead_reads hi
      omega
  · have := h.reads i hi
    omega

/-- The loop over a string stores the decoded bytes, and reads the string alone. -/
theorem decodeLoop_spec {str : Nat → UInt8} (bytes : Bytes) : ∀ data, Holds str data bytes →
    Decodes bytes data (decodeLoop str bytes.length data) := by
  induction bytes using urlDecode.induct with
  | case1 =>
    intro data _
    rw [List.length_nil, decodeLoop]
    exact ⟨rfl, fun i hi => by cases hi⟩
  | case2 c =>
    intro data h
    refine Decodes.plain h.1 (by rw [lookAhead_short (by simp)]) rfl ?_
    rw [List.length_nil, decodeLoop]
    exact ⟨rfl, fun i hi => by cases hi⟩
  | case3 c a ih =>
    intro data h
    exact Decodes.plain h.1 (by rw [lookAhead_short (by simp)]) rfl (ih (data + 1) h.2)
  | case4 c a b r h ih =>
    intro data hm
    have hesc : (lookAhead str (r.length + 2) data).1 = true := (lookAhead_escape hm).trans h
    obtain ⟨-, rfl, rfl, hr⟩ := hm
    have ht := ih (data + 3) hr
    show Decodes _ data (decodeLoop str (r.length + 2 + 1) data)
    rw [decodeLoop_escape hesc, Nat.add_sub_cancel]
    refine ⟨by rw [Trace.after, ht.stored, urlDecode, if_pos h]; rfl, fun i hi => ?_⟩
    simp only [List.length_cons]
    rcases List.mem_append.mp hi with hi | hi
    · rcases List.mem_cons.mp hi with rfl | hi
      · omega
      · have := lookAhead_reads hi
        omega
    · have := ht.reads i hi
      omega
  | case5 c a b r h ih =>
    intro data hm
    have hplain : (lookAhead str (r.length + 2) data).1 = false := (lookAhead_escape hm).trans (Bool.eq_false_iff.mpr h)
    exact Decodes.plain hm.1 hplain (by rw [urlDecode, if_neg h]) (ih (data + 1) hm.2)

/-! ## Staying inside -/

theorem hasEscape_cons {c : UInt8} {s : Bytes} : HasEscape (c :: s) ↔
    (c = 37 ∧ ∃ a b r, s = a :: b :: r ∧ isxdigit a = true ∧ isxdigit b = true) ∨ HasEscape s := by
  constructor
  · intro h
    obtain ⟨p, a, b, r, he, ha, hb⟩ := h
    cases p with
    | nil =>
      obtain ⟨rfl, rfl⟩ := List.cons.inj he
      exact Or.inl ⟨rfl, a, b, r, rfl, ha, hb⟩
    | cons x p =>
      obtain ⟨-, rfl⟩ := List.cons.inj he
      exact Or.inr ⟨p, a, b, r, rfl, ha, hb⟩
  · intro h
    rcases h with ⟨rfl, a, b, r, rfl, ha, hb⟩ | ⟨p, a, b, r, rfl, ha, hb⟩
    · exact ⟨[], a, b, r, rfl, ha, hb⟩
    · exact ⟨c :: p, a, b, r, rfl, ha, hb⟩

/-- Decoding shortens exactly the strings with an escape in them. -/
theorem length_urlDecode_lt (s : Bytes) : (urlDecode s).length < s.length ↔ HasEscape s := by
  have hnil : ¬HasEscape [] := fun h => by
    obtain ⟨p, a, b, r, he, -⟩ := h
    exact absurd he (by simp)
  induction s using urlDecode.induct with
  | case1 => exact iff_of_false (by simp [urlDecode]) hnil
  | case2 c =>
    rw [hasEscape_cons]
    exact iff_of_false (by simp [urlDecode]) (by simp [hnil])
  | case3 c a ih =>
    have hrest : (urlDecode [a]).length < [a].length ↔ HasEscape [a] := ih
    rw [hasEscape_cons, ← hrest]
    simp [urlDecode]
  | case4 c a b r h ih =>
    rw [urlDecode, if_pos h]
    rw [Bool.and_eq_true, Bool.and_eq_true, decide_eq_true_eq] at h
    refine iff_of_true ?_ (hasEscape_cons.mpr (Or.inl ⟨h.1.1, a, b, r, rfl, h.1.2, h.2⟩))
    have := length_urlDecode r
    simp only [List.length_cons]
    omega
  | case5 c a b r h ih =>
    have hno : ¬(c = 37 ∧ ∃ a' b' r', a :: b :: r = a' :: b' :: r' ∧ isxdigit a' = true ∧ isxdigit b' = true) := by
      intro hh
      obtain ⟨hc, a', b', r', he, ha, hb⟩ := hh
      simp only [List.cons.injEq] at he
      exact h (by simp [hc, he.1, he.2.1, ha, hb])
    have hrest : (urlDecode (a :: b :: r)).length < (a :: b :: r).length ↔ HasEscape (a :: b :: r) := ih
    rw [urlDecode, if_neg h, hasEscape_cons, or_iff_right hno, ← hrest, List.length_cons, List.length_cons]
    omega

theorem Holds.take {mem : Nat → UInt8} {bytes : Bytes} : ∀ {data : Nat} (n : Nat), Holds mem data bytes →
    Holds mem data (bytes.take n) := by
  induction bytes with
  | nil => intro data n _; rw [List.take_nil]; exact trivial
  | cons b bytes ih =>
    intro data n h
    cases n with
    | zero => exact trivial
    | succ n => exact ⟨h.1, ih n h.2⟩

/-- A length that is not negative as an `int` is at most the length. -/
theorem toInt_toNat_le {n : Nat} (h : 0 ≤ toInt n) : (toInt n).toNat ≤ n := by
  unfold toInt at h ⊢
  split
  · rw [Int.toNat_natCast]
    exact Nat.mod_le n _
  · rename_i hn
    rw [if_neg hn] at h
    omega

theorem decode_inBounds_iff {str : CStr} {mem : Nat → UInt8} (h : Holds mem 0 str.chars) :
    InBounds (toInt str.length) (urlDecodeAt mem (toInt str.length)) ↔
      0 ≤ toInt str.length ∧ HasEscape (str.chars.take (toInt str.length).toNat) := by
  by_cases h0 : 0 ≤ toInt str.length
  · set n := (toInt str.length).toNat with hn
    have hle : n ≤ str.chars.length := toInt_toNat_le h0
    have hlen : (str.chars.take n).length = n := by rw [List.length_take]; omega
    have hd := decodeLoop_spec (str.chars.take n) 0 (h.take n)
    rw [hlen] at hd
    have hstored : (decodeLoop mem n 0).stored.length = (urlDecode (str.chars.take n)).length + 1 := by
      rw [hd.stored, List.length_append, List.length_singleton]
    have hreads : ∀ i ∈ (decodeLoop mem n 0).reads, (i : Int) < toInt str.length := by
      intro i hi
      have := hd.reads i hi
      omega
    rw [urlDecodeAt, if_pos h0, InBounds, ← hn, hstored, ← length_urlDecode_lt, hlen]
    constructor
    · intro hb
      exact ⟨h0, by have := hb.2; omega⟩
    · intro hb
      exact ⟨hreads, by have := hb.2; omega⟩
  · refine iff_of_false (fun hb => ?_) fun hb => h0 hb.1
    have := hb.2
    omega

/-- The memory behind a string constant. -/
def memoryOf (bytes : Bytes) (i : Nat) : UInt8 := bytes.getD i 0

theorem holds_memoryOf_append (pre bytes : Bytes) : Holds (memoryOf (pre ++ bytes)) pre.length bytes := by
  induction bytes generalizing pre with
  | nil => exact trivial
  | cons b bytes ih =>
    refine ⟨?_, ?_⟩
    · rw [memoryOf, List.getD_eq_getElem?_getD, List.getElem?_append_right (Nat.le_refl _), Nat.sub_self]
      rfl
    · have hnext := ih (pre ++ [b])
      rwa [List.append_assoc, List.length_append, List.singleton_append] at hnext

theorem holds_memoryOf (bytes : Bytes) : Holds (memoryOf bytes) 0 bytes := holds_memoryOf_append [] bytes

/-- The name "%7B" of a `\x7b`. -/
theorem decode_inBounds_iff_sample : InBounds 3 (urlDecodeAt (memoryOf [37, 55, 66]) 3) :=
  (@decode_inBounds_iff ⟨[37, 55, 66], by decide⟩ _ (holds_memoryOf [37, 55, 66])).mpr
    ⟨by decide, [], 55, 66, [], rfl, by decide, by decide⟩

/-- The name "a" is decoded into one byte, and the terminator behind it. -/
theorem plain_name_overruns : ¬InBounds 1 (urlDecodeAt (memoryOf [97]) 1) := by
  intro h
  have hd := decodeLoop_spec [97] 0 (holds_memoryOf [97])
  have hlen : (decodeLoop (memoryOf [97]) 1 0).stored.length = 2 := congrArg List.length hd.stored
  have hb : ((decodeLoop (memoryOf [97]) 1 0).stored.length : Int) ≤ 1 := h.2
  omega

/-! ## The round trip over memory -/

/-- Letters, digits and the characters `-._+%`. -/
def urlSafe (c : UInt8) : Bool :=
  (48 ≤ c && c ≤ 57) || (65 ≤ c && c ≤ 90) || (97 ≤ c && c ≤ 122) || [45, 46, 95, 43, 37].contains c

/-- A text is encoded within the `3 * len + 1` bytes of the allocation, into characters
    of a path component, and decoded again with the encoded length. -/
def RoundTrip (s : Bytes) : Prop :=
  ∃ encoded, urlEncode s (toInt s.length) = some encoded ∧
    (∀ mem, Holds mem 0 encoded → (urlDecodeAt mem (toInt encoded.length)).stored = s ++ [0]) ∧
    encoded.length + 1 ≤ 3 * s.length + 1 ∧ ∀ c ∈ encoded, urlSafe c = true ∧ c ≠ 47

theorem encodeByte_spec : ∀ n < 256, (encodeByte (UInt8.ofNat n)).length ≤ 3 ∧
    ((encodeByte (UInt8.ofNat n)).all fun c => urlSafe c && c != 47) = true := by
  decide +kernel

theorem encodeByte_safe (b : UInt8) : (encodeByte b).length ≤ 3 ∧ ∀ c ∈ encodeByte b, urlSafe c = true ∧ c ≠ 47 := by
  obtain ⟨hlen, hall⟩ := encodeByte_spec b.toNat b.toNat_lt
  rw [UInt8.ofNat_toNat] at hlen hall
  refine ⟨hlen, fun c hc => ?_⟩
  have hc := List.all_eq_true.mp hall c hc
  rwa [Bool.and_eq_true, bne_iff_ne] at hc

theorem encodeBytes_safe (s : Bytes) : ∀ c ∈ encodeBytes s, urlSafe c = true ∧ c ≠ 47 := by
  intro c hc
  obtain ⟨b, -, hb⟩ := List.mem_flatMap.mp hc
  exact (encodeByte_safe b).2 c hb

theorem length_encodeBytes_le (s : Bytes) : (encodeBytes s).length ≤ 3 * s.length := by
  induction s with
  | nil => exact Nat.le_refl 0
  | cons b s ih =>
    have := (encodeByte_safe b).1
    rw [encodeBytes_cons, List.length_append, List.length_cons]
    omega

/-- Decoding an encoded text short enough for the encoder. -/
theorem urlDecodeAt_encoded {s : Bytes} {mem : Nat → UInt8} (hs : 3 * s.length + 1 < 2 ^ 31)
    (h : Holds mem 0 (encodeBytes s)) : (urlDecodeAt mem (toInt (encodeBytes s).length)).stored = s ++ [0] := by
  have hlen := length_encodeBytes_le s
  have hd := (decodeLoop_spec (encodeBytes s) 0 h).stored
  have hround := decode_encodeBytes s []
  rw [List.append_nil, urlDecode, List.append_nil] at hround
  rw [urlDecodeAt, toInt_small (by omega), if_pos (by omega), Int.toNat_natCast, hd, hround]

/-- The encoder has memory for this text alone. -/
theorem bound_of_roundTrip {s : Bytes} (h : RoundTrip s) : 3 * s.length + 1 < 2 ^ 31 := by
  obtain ⟨encoded, he, hdec, -⟩ := h
  unfold urlEncode at he
  split at he
  · rename_i hfit
    set n := (toInt s.length).toNat with hn
    obtain rfl := Option.some.inj he
    have hle : n ≤ s.length := toInt_toNat_le hfit.1
    have hlen : (s.take n).length = n := by rw [List.length_take]; omega
    -- only the first `n` bytes come back
    have hback := hdec _ (holds_memoryOf _)
    rw [urlDecodeAt_encoded (by rw [hlen]; omega) (holds_memoryOf _)] at hback
    have heq := congrArg List.length (List.append_cancel_right hback)
    omega
  · cases he

theorem round_trip_iff (s : Bytes) : RoundTrip s ↔ 3 * s.length + 1 < 2 ^ 31 := by
  constructor
  · exact bound_of_roundTrip
  · intro h
    refine ⟨encodeBytes s, ?_, fun mem hm => urlDecodeAt_encoded h hm, ?_, encodeBytes_safe s⟩
    · rw [urlEncode, toInt_small (by omega), if_pos (by omega), Int.toNat_natCast, List.take_length]
    · have := length_encodeBytes_le s
      omega

/-- The shortest texts whose allocation overflows. -/
theorem long_text_overflows : ¬RoundTrip (List.replicate 715827883 97) := by
  intro h
  have hb := bound_of_roundTrip h
  rw [List.length_replicate] at hb
  omega

end Ddm.Registry.UrlCodec
