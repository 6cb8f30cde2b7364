/-
  Ddm.Conf.Substitute — `substitute` (`util.c`), with which `get_config_item` puts the
  agent's home directory into a configured path.

  The loop holds a cursor in the input, one in the output and the space left, an `int`
  that the tail compares with a `size_t`. The output is the `output_len` bytes at
  `pOutput` and nothing else: a copy that leaves them, or has a negative length, ends the
  call with `outOfBounds`. The loop's fuel is the number of turns it may take.

  The loop stops before a replacement that does not fit, but one that ends exactly at the
  end of the buffer fits: then no room is left for the terminator, and the tail copies
  `0 - 1` bytes (`full_output_faults`).

  Proved: when the result is shorter than the buffer it is there, terminated
  (`substitute_replaces`); and the call stays inside the buffer if and only if no
  replacement ends at its end (`substitute_inside_iff`).
-/

import Ddm.Lib.Memory
import Ddm.Lib.Occurrence

namespace Ddm.Conf

open Ddm.Lib Ddm.Lib.Occurrence

/-- Why a call has no result. -/
inductive Stop where
  | outOfBounds
  /-- An `int` overflowed. -/
  | overflow
  | outOfFuel
  deriving DecidableEq

def inBounds {α : Type} : Option α → Except Stop α
  | none => .error .outOfBounds
  | some a => .ok a

structure Cursors where
  /-- What is left of the input at `pi`. -/
  pi : Bytes
  /-- `po - pOutput` -/
  po : Int
  nLeft : Int
  output : Bytes
  deriving DecidableEq

/-- One turn of the loop, with the occurrence at `p`. -/
def copySegment (pSrc pDst : CStr) (c : Cursors) (p : Nat) : Option Cursors := do
  let nSrcLen := toInt pSrc.length
  let nDstLen := toInt pDst.length
  let nLen := toInt p
  let output ← memcpy c.output c.po c.pi nLen
  let output ← memcpy output (c.po + nLen) pDst.chars nDstLen
  some ⟨c.pi.drop (p + nSrcLen.toNat), c.po + nLen + nDstLen, c.nLeft - nLen - nDstLen, output⟩

def substituteLoop (pSrc pDst : CStr) : Nat → Cursors → Except Stop Cursors
  | 0, _ => .error .outOfFuel
  | fuel + 1, c =>
    match firstOcc pSrc.chars c.pi with
    | none => .ok c
    | some p =>
      if c.nLeft - toInt p < toInt pDst.length then .ok c
      else
        match copySegment pSrc pDst c p with
        | none => .error .outOfBounds
        | some c => substituteLoop pSrc pDst fuel c

/-- What is left of the input, as far as it fits, and the terminator. -/
def copyRest (c : Cursors) : Option Bytes := do
  let nCopy := if sizeT c.nLeft > c.pi.length then toInt c.pi.length else c.nLeft - 1
  let output ← memcpy c.output c.po c.pi nCopy
  writeAt output (c.po + nCopy) [0]

def start (pInput : CStr) (pOutput : Bytes) : Cursors := ⟨pInput.chars, 0, toInt pOutput.length, pOutput⟩

/-- `output_len` is the length of `pOutput`. -/
def substitute (fuel : Nat) (pInput : CStr) (pOutput : Bytes) (pSrc pDst : CStr) : Except Stop Bytes :=
  match firstOcc pSrc.chars pInput.chars with
  | none => inBounds (copyRest (start pInput pOutput))
  | some _ =>
    match substituteLoop pSrc pDst fuel (start pInput pOutput) with
    | .error stop => .error stop
    | .ok c => inBounds (copyRest c)

/-! ## What the cursors say -/

/-- `written` is in front of `po`, and `nLeft` counts the bytes behind it. -/
structure Behind (c : Cursors) (written rest : Bytes) : Prop where
  output : c.output = written ++ rest
  po : c.po = written.length
  nLeft : c.nLeft = rest.length

variable {pSrc pDst : CStr} {c : Cursors} {written rest : Bytes}

/-- What `substitute` requires of its arguments: a pattern, and lengths an `int` can hold. -/
structure Sized (pInput : CStr) (pOutput : Bytes) (pSrc pDst : CStr) : Prop where
  pattern : pSrc.chars ≠ []
  input : pInput.length < 2 ^ 31
  src : pSrc.length < 2 ^ 31
  dst : pDst.length < 2 ^ 31
  output : pOutput.length < 2 ^ 31

theorem copySegment_spec (hb : Behind c written rest) (hpi : c.pi.length < 2 ^ 31) (hsrc : pSrc.length < 2 ^ 31)
    (hdst : pDst.length < 2 ^ 31) {p : Nat} (hp : p ≤ c.pi.length) (hfit : p + pDst.length ≤ rest.length) :
    ∃ c', copySegment pSrc pDst c p = some c' ∧ c'.pi = c.pi.drop (p + pSrc.length) ∧
      Behind c' (written ++ (c.pi.take p ++ pDst.chars)) (rest.drop (p + pDst.length)) := by
  obtain ⟨hout, hpo, hleft⟩ := hb
  have htake : (c.pi.take p).length = p := by
    rw [List.length_take]
    omega
  have hdrop : (rest.drop p).length = rest.length - p := List.length_drop
  have hlen : pDst.chars.length = pDst.length := rfl
  have hfirst : memcpy (written ++ rest) c.po c.pi p = some (written ++ c.pi.take p ++ rest.drop p) :=
    memcpy_append hpo (by omega) (by omega) (by omega)
  have hsecond : memcpy (written ++ c.pi.take p ++ rest.drop p) (c.po + p) pDst.chars pDst.length =
      some (written ++ c.pi.take p ++ pDst.chars ++ (rest.drop p).drop pDst.length) :=
    memcpy_all (by rw [List.length_append, htake, hpo]; omega) rfl (by omega)
  refine ⟨⟨c.pi.drop (p + pSrc.length), c.po + p + pDst.length, c.nLeft - p - pDst.length,
    written ++ c.pi.take p ++ pDst.chars ++ (rest.drop p).drop pDst.length⟩, ?_, rfl, ?_, ?_, ?_⟩
  · simp only [copySegment, toInt_small hsrc, toInt_small hdst, toInt_small (Nat.lt_of_le_of_lt hp hpi),
      Int.toNat_natCast, hout, hfirst, hsecond, Option.bind_eq_bind, Option.bind_some]
  · rw [List.drop_drop, List.append_assoc written]
  · show c.po + p + pDst.length = _
    rw [hpo, List.length_append, List.length_append, htake, hlen]
    omega
  · show c.nLeft - p - pDst.length = _
    rw [hleft, List.length_drop]
    omega

/-- The loop has made `k` of the replacements in `pi` and stopped at `c`: it made all, or
    the next does not fit into the `rest` it started with. -/
structure Stopped (pSrc pDst : CStr) (pi written rest : Bytes) (k : Nat) (c : Cursors) : Prop where
  le : k ≤ (cut pSrc.chars pi).1.length
  left : cut pSrc.chars c.pi = ((cut pSrc.chars pi).1.drop k, (cut pSrc.chars pi).2)
  short : c.pi.length ≤ pi.length
  behind : ∃ rest', Behind c (written ++ filled pDst.chars ((cut pSrc.chars pi).1.take k)) rest' ∧
    rest'.length + (filled pDst.chars ((cut pSrc.chars pi).1.take k)).length = rest.length
  full : ∀ j ≤ (cut pSrc.chars pi).1.length, k < j →
    rest.length < (filled pDst.chars ((cut pSrc.chars pi).1.take j)).length

/-- Stopped at once. -/
theorem Stopped.zero (hb : Behind c written rest) (hfull : ∀ j ≤ (cut pSrc.chars c.pi).1.length, 0 < j →
    rest.length < (filled pDst.chars ((cut pSrc.chars c.pi).1.take j)).length) :
    Stopped pSrc pDst c.pi written rest 0 c where
  le := Nat.zero_le _
  left := by rw [List.drop_zero]
  short := Nat.le_refl _
  behind := by
    refine ⟨rest, ?_, ?_⟩
    · rw [List.take_zero, filled_nil, List.append_nil]
      exact hb
    · rw [List.take_zero, filled_nil, List.length_nil, Nat.add_zero]
  full := hfull

/-- The first replacement and those of the rest of the input. -/
theorem Stopped.succ (hpat : pSrc.chars ≠ []) {pi : Bytes} {p k : Nat} (hocc : firstOcc pSrc.chars pi = some p)
    (hfit : p + pDst.length ≤ rest.length)
    (h : Stopped pSrc pDst (pi.drop (p + pSrc.length)) (written ++ (pi.take p ++ pDst.chars))
      (rest.drop (p + pDst.length)) k c) : Stopped pSrc pDst pi written rest (k + 1) c := by
  have hp := (firstOcc_eq_some hocc).2.1
  have htake : (pi.take p).length = p := by
    rw [List.length_take]
    omega
  have hcut : cut pSrc.chars pi = (pi.take p :: (cut pSrc.chars (pi.drop (p + pSrc.length))).1,
    (cut pSrc.chars (pi.drop (p + pSrc.length))).2) := cut_some hpat hocc
  have hfilled : ∀ j, filled pDst.chars ((cut pSrc.chars pi).1.take (j + 1)) = pi.take p ++ pDst.chars ++
      filled pDst.chars ((cut pSrc.chars (pi.drop (p + pSrc.length))).1.take j) := by
    intro j
    rw [hcut, List.take_succ_cons, filled_cons]
  have hlength : ∀ j, (filled pDst.chars ((cut pSrc.chars pi).1.take (j + 1))).length = p + pDst.length +
      (filled pDst.chars ((cut pSrc.chars (pi.drop (p + pSrc.length))).1.take j)).length := by
    intro j
    rw [hfilled, List.length_append, List.length_append, htake]
    rfl
  obtain ⟨hk, hleft, hshort, ⟨rest', hb', hrest'⟩, hfull⟩ := h
  rw [List.length_drop] at hshort hrest'
  refine ⟨?_, ?_, by omega, ⟨rest', ?_, ?_⟩, fun j hj hlt => ?_⟩
  · rw [hcut, List.length_cons]
    omega
  · rw [hleft, hcut, List.drop_succ_cons]
  · rw [hfilled, ← List.append_assoc]
    exact hb'
  · rw [hlength]
    omega
  · obtain ⟨i, rfl⟩ : ∃ i, j = i + 1 := ⟨j - 1, by omega⟩
    rw [hcut, List.length_cons] at hj
    have hrest := hfull i (by omega) (by omega)
    rw [List.length_drop] at hrest
    rw [hlength]
    omega

/-- With a turn for each byte of the input the loop stops by itself. -/
theorem substituteLoop_spec (hpat : pSrc.chars ≠ []) (hsrc : pSrc.length < 2 ^ 31) (hdst : pDst.length < 2 ^ 31)
    (pi : Bytes) : ∀ {fuel : Nat} {c : Cursors} {written rest : Bytes}, c.pi = pi → pi.length < fuel →
    pi.length < 2 ^ 31 → Behind c written rest →
    ∃ k c', substituteLoop pSrc pDst fuel c = .ok c' ∧ Stopped pSrc pDst pi written rest k c' := by
  induction pi using cut_induction hpat with
  | last pi hocc =>
    intro fuel c written rest hpi hfuel _ hb
    obtain ⟨n, rfl⟩ : ∃ n, fuel = n + 1 := ⟨fuel - 1, by omega⟩
    subst hpi
    refine ⟨0, c, ?_, .zero hb fun j hj hlt => ?_⟩
    · rw [substituteLoop, hocc]
    · rw [cut_none hocc, List.length_nil] at hj
      omega
  | next pi p hocc ih =>
    intro fuel c written rest hpi hfuel hsmall hb
    obtain ⟨n, rfl⟩ : ∃ n, fuel = n + 1 := ⟨fuel - 1, by omega⟩
    subst hpi
    have hp := (firstOcc_eq_some hocc).2.1
    have hpos := List.length_pos_iff.mpr hpat
    have hroom : c.nLeft - toInt p < toInt pDst.length ↔ rest.length < p + pDst.length := by
      rw [toInt_small (by omega), toInt_small hdst, hb.nLeft]
      omega
    rw [substituteLoop, hocc]
    simp only
    by_cases hfit : rest.length < p + pDst.length
    · rw [if_pos (hroom.mpr hfit)]
      refine ⟨0, c, rfl, .zero hb fun j _ hlt => ?_⟩
      have hfirst : (filled pDst.chars ((cut pSrc.chars c.pi).1.take 1)).length = p + pDst.length := by
        rw [cut_some hpat hocc, List.take_succ_cons, List.take_zero, filled_cons, filled_nil, List.append_nil,
          List.length_append, List.length_take, Nat.min_eq_left (by omega)]
        rfl
      have := length_filled_mono pDst.chars (cut pSrc.chars c.pi).1 (show 1 ≤ j by omega)
      omega
    · rw [if_neg (mt hroom.mp hfit)]
      obtain ⟨c₁, hcopy, hpi₁, hb₁⟩ := copySegment_spec hb hsmall hsrc hdst (by omega) (Nat.not_lt.mp hfit)
      have hdrop : (c.pi.drop (p + pSrc.chars.length)).length = c.pi.length - (p + pSrc.chars.length) :=
        List.length_drop
      obtain ⟨k, c', hrun, hstop⟩ := @ih n c₁ _ _ hpi₁ (by omega) (by omega) hb₁
      rw [hcopy]
      exact ⟨k + 1, c', hrun, .succ hpat hocc (Nat.not_lt.mp hfit) hstop⟩

/-! ## The tail -/

/-- With room for a terminator, what is left is copied as far as it fits. -/
theorem copyRest_spec (hb : Behind c written rest) (hpi : c.pi.length < 2 ^ 31) (hlen : rest.length < 2 ^ 31)
    (hroom : rest ≠ []) : ∃ more, copyRest c =
      some (written ++ c.pi.take (min c.pi.length (rest.length - 1)) ++ 0 :: more) := by
  obtain ⟨hout, hpo, hleft⟩ := hb
  have hpos := List.length_pos_iff.mpr hroom
  obtain ⟨n, hn⟩ : ∃ n, n = min c.pi.length (rest.length - 1) := ⟨_, rfl⟩
  have hcopy : (if sizeT c.nLeft > c.pi.length then toInt c.pi.length else c.nLeft - 1) = n := by
    rw [hleft, sizeT_natCast hlen, toInt_small hpi]
    split <;> omega
  have htake : (c.pi.take n).length = n := by
    rw [List.length_take]
    omega
  have hdrop : (rest.drop n).length = rest.length - n := List.length_drop
  have hmemcpy : memcpy (written ++ rest) c.po c.pi n = some (written ++ c.pi.take n ++ rest.drop n) :=
    memcpy_append hpo (by omega) (by omega) (by omega)
  have hnul : writeAt (written ++ c.pi.take n ++ rest.drop n) (c.po + n) [0] =
      some (written ++ c.pi.take n ++ [0] ++ (rest.drop n).drop 1) :=
    writeAt_append (by rw [List.length_append, htake, hpo]; omega) (by rw [List.length_singleton]; omega)
  refine ⟨(rest.drop n).drop 1, ?_⟩
  rw [copyRest, hcopy, hout]
  simp only [Option.bind_eq_bind, hmemcpy, Option.bind_some]
  rw [hnul, ← hn, List.append_assoc _ [0]]
  rfl

theorem length_copyRest {out : Bytes} (h : copyRest c = some out) : out.length = c.output.length := by
  simp only [copyRest, Option.bind_eq_bind, Option.bind_eq_some_iff] at h
  obtain ⟨mid, hmid, hout⟩ := h
  rw [length_writeAt hout, length_memcpy hmid]

/-- Without, the length is `0 - 1`. -/
theorem copyRest_full (hb : Behind c written []) : copyRest c = none := by
  have hcopy : (if sizeT c.nLeft > c.pi.length then toInt c.pi.length else c.nLeft - 1) = -1 := by
    rw [hb.nLeft]
    exact if_neg (Nat.not_lt_zero _)
  rw [copyRest, hcopy]
  simp only [Option.bind_eq_bind, memcpy_negative (show (-1 : Int) < 0 by decide), Option.bind_none]

/-! ## The whole call -/

section Call

variable {pInput : CStr} {pOutput : Bytes} {fuel : Nat}

/-- The loop and the tail, from the start of both texts; without an occurrence the loop
    would stop at once. -/
theorem substitute_run (h : Sized pInput pOutput pSrc pDst) (hfuel : pInput.length < fuel) :
    ∃ k c, Stopped pSrc pDst pInput.chars [] pOutput k c ∧
      substitute fuel pInput pOutput pSrc pDst = inBounds (copyRest c) := by
  have hb : Behind (start pInput pOutput) [] pOutput := ⟨rfl, rfl, toInt_small h.output⟩
  unfold substitute
  split
  · rename_i hocc
    refine ⟨0, start pInput pOutput, .zero hb fun j hj hlt => ?_, rfl⟩
    rw [start, cut_none hocc, List.length_nil] at hj
    omega
  · obtain ⟨k, c, hrun, hstop⟩ := substituteLoop_spec h.pattern h.src h.dst pInput.chars rfl hfuel h.input hb
    rw [hrun]
    exact ⟨k, c, hstop, rfl⟩

/-- The bytes written when the loop stops reach the end of the buffer if and only if some
    replacement ended there. -/
theorem Stopped.full_iff {pi : Bytes} {k : Nat} (h : Stopped pSrc pDst pi [] rest k c) (hrest : rest ≠ []) :
    (filled pDst.chars ((cut pSrc.chars pi).1.take k)).length = rest.length ↔
      ∃ j ≤ (cut pSrc.chars pi).1.length, 0 < j ∧
        (filled pDst.chars ((cut pSrc.chars pi).1.take j)).length = rest.length := by
  have hpos := List.length_pos_iff.mpr hrest
  constructor
  · intro hk
    have hne : k ≠ 0 := fun h0 => by
      rw [h0, List.take_zero, filled_nil, List.length_nil] at hk
      omega
    exact ⟨k, h.le, by omega, hk⟩
  · intro ⟨j, hj, _, he⟩
    obtain ⟨rest', _, hlen⟩ := h.behind
    rcases Nat.lt_or_ge k j with hlt | hge
    · have := h.full j hj hlt
      omega
    · have := length_filled_mono pDst.chars (cut pSrc.chars pi).1 hge
      omega

/-- A replacement ends exactly where the buffer does. -/
def EndsAtEnd (pInput : CStr) (pOutput : Bytes) (pSrc pDst : CStr) : Prop :=
  ∃ j ≤ (cut pSrc.chars pInput.chars).1.length, 0 < j ∧
    (filled pDst.chars ((cut pSrc.chars pInput.chars).1.take j)).length = pOutput.length

instance (pInput : CStr) (pOutput : Bytes) (pSrc pDst : CStr) : Decidable (EndsAtEnd pInput pOutput pSrc pDst) :=
  inferInstanceAs (Decidable (∃ j ≤ _, _ ∧ _))

theorem substitute_inside_iff (h : Sized pInput pOutput pSrc pDst) (hout : pOutput ≠ [])
    (hfuel : pInput.length < fuel) :
    (∃ out, substitute fuel pInput pOutput pSrc pDst = .ok out ∧ out.length = pOutput.length ∧ 0 ∈ out) ↔
      ¬EndsAtEnd pInput pOutput pSrc pDst := by
  obtain ⟨k, c, hstop, hrun⟩ := substitute_run h hfuel
  obtain ⟨rest, hb, hlen⟩ := hstop.behind
  rw [hrun, EndsAtEnd, ← hstop.full_iff hout]
  have hsmall := h.output
  constructor
  · intro ⟨out, hok, _⟩ hfull
    obtain rfl : rest = [] := List.eq_nil_of_length_eq_zero (by omega)
    rw [copyRest_full hb] at hok
    cases hok
  · intro hnot
    have hroom : rest ≠ [] := fun e => by
      rw [e, List.length_nil] at hlen
      omega
    obtain ⟨more, hcopy⟩ := copyRest_spec hb (Nat.lt_of_le_of_lt hstop.short h.input) (by omega) hroom
    refine ⟨_, by rw [hcopy]; rfl, ?_, by simp⟩
    rw [length_copyRest hcopy, hb.output, List.length_append, List.nil_append]
    omega

/-- The replacement ends with the buffer of one byte: -1 bytes are copied behind it. -/
theorem full_output_faults :
    substitute 2 (CStr.lit "a") [0] (CStr.lit "a") (CStr.lit "b") = .error .outOfBounds := by
  decide

/-- A cut before the second replacement. -/
theorem substitute_inside_iff_sample : ∃ out,
    substitute 5 (CStr.lit "a.a") [7, 7, 7, 7] (CStr.lit "a") (CStr.lit "bb") = .ok out ∧ out.length = 4 ∧ 0 ∈ out :=
  have h : Sized (CStr.lit "a.a") [7, 7, 7, 7] (CStr.lit "a") (CStr.lit "bb") :=
    ⟨by decide, by decide, by decide, by decide, by decide⟩
  (substitute_inside_iff h (by decide) (by decide)).mpr (by decide)

/-- Every replacement is made: the result has room for all of them. -/
theorem Stopped.all {pi : Bytes} {k : Nat} (hpat : pSrc.chars ≠ []) (h : Stopped pSrc pDst pi [] rest k c)
    (hfits : (replaceAll pSrc.chars pDst.chars pi).length < rest.length) :
    ∃ rest', Behind c (filled pDst.chars (cut pSrc.chars pi).1) rest' ∧ c.pi = (cut pSrc.chars pi).2 ∧
      c.pi.length < rest'.length ∧ rest'.length ≤ rest.length := by
  obtain ⟨hk, hleft, -, ⟨rest', hb, hlen⟩, hfull⟩ := h
  rw [replaceAll, List.length_append] at hfits
  have hall : k = (cut pSrc.chars pi).1.length := by
    by_contra hne
    have := hfull _ (Nat.le_refl _) (by omega)
    rw [List.take_length] at this
    omega
  subst hall
  rw [List.take_length] at hb hlen
  rw [List.drop_length] at hleft
  have hpi : c.pi = (cut pSrc.chars pi).2 := by
    have hnil := cut_nil hpat (congrArg Prod.fst hleft)
    rw [hleft] at hnil
    exact hnil.symm
  refine ⟨rest', hb, hpi, ?_, by omega⟩
  rw [hpi]
  omega

theorem substitute_replaced (h : Sized pInput pOutput pSrc pDst) (hfuel : pInput.length < fuel)
    (hfits : (replaceAll pSrc.chars pDst.chars pInput.chars).length < pOutput.length) :
    ∃ out, substitute fuel pInput pOutput pSrc pDst = .ok out ∧
      stringAt out 0 = some (replaceAll pSrc.chars pDst.chars pInput.chars) := by
  obtain ⟨k, c, hstop, hrun⟩ := substitute_run h hfuel
  obtain ⟨rest, hb, hpi, hroom, hle⟩ := hstop.all h.pattern hfits
  have hout := h.output
  have hnonul : 0 ∉ replaceAll pSrc.chars pDst.chars pInput.chars := fun h0 =>
    (mem_replaceAll h.pattern pInput.chars h0).elim pDst.noNul pInput.noNul
  obtain ⟨more, hcopy⟩ := copyRest_spec hb (Nat.lt_of_le_of_lt hstop.short h.input) (by omega)
    (List.ne_nil_of_length_pos (by omega))
  rw [Nat.min_eq_left (by omega), List.take_length, hpi] at hcopy
  refine ⟨_, by rw [hrun, hcopy]; rfl, ?_⟩
  exact @stringAt_append [] _ more hnonul _ rfl

theorem substitute_replaces (h : Sized pInput pOutput pSrc pDst) (hfuel : pInput.length < fuel)
    (hfits : (replaceAll pSrc.chars pDst.chars pInput.chars).length < pOutput.length) :
    ∃ out text, substitute fuel pInput pOutput pSrc pDst = .ok out ∧ stringAt out 0 = some text ∧
      text = replaceAll pSrc.chars pDst.chars pInput.chars ∧ Replaced pSrc.chars pDst.chars pInput.chars text := by
  obtain ⟨out, hok, htext⟩ := substitute_replaced h hfuel hfits
  exact ⟨out, _, hok, htext, rfl, replaced_replaceAll h.pattern _ _⟩

/-- The replacement holds the pattern, and is not searched again. -/
theorem substitute_replaces_sample : ∃ out text,
    substitute 5 (CStr.lit "a.a") [7, 7, 7, 7, 7, 7] (CStr.lit "a") (CStr.lit "aa") = .ok out ∧
      stringAt out 0 = some text ∧ text = replaceAll (CStr.lit "a").chars (CStr.lit "aa").chars (CStr.lit "a.a").chars ∧
      Replaced (CStr.lit "a").chars (CStr.lit "aa").chars (CStr.lit "a.a").chars text :=
  substitute_replaces ⟨by decide, by decide, by decide, by decide, by decide⟩ (by decide) (by decide)

end Call

/-! ## Configured strings -/

end Ddm.Conf
