/-
  Ddm.CJson.Accept — `cJSON_Parse` against the format of `Lib.JsonText`.

  Proved: a text of the format, in any layout, is read as the tree of its document, as long
  as its length and the exponents of its numbers are `int`s (`cJSONParse_text`, one
  induction over the derivation).
-/

import Ddm.CJson.Strings
import Mathlib.Data.List.DropRight

namespace Ddm.CJson

open Ddm.Lib Ddm.Registry.Json JsonText

/-! ## What comes between the values -/

theorem skip_blank {w : Bytes} (hw : Blank w) (t : Bytes) : skip (w ++ t) = skip t := by
  induction w with
  | nil => rfl
  | cons c w ih =>
    have hc : c ≤ 32 := by
      rcases hw c (List.mem_cons_self ..) with rfl | rfl | rfl | rfl <;> decide
    show skip (c :: (w ++ t)) = _
    unfold skip
    rw [List.dropWhile_cons_of_pos (by simpa using hc)]
    exact ih fun x hx => hw x (List.mem_cons_of_mem _ hx)

theorem skip_token {c : UInt8} (hc : 32 < c) (t : Bytes) : skip (c :: t) = c :: t := by
  unfold skip
  exact List.dropWhile_cons_of_neg (by simpa using hc)

theorem skip_blank_token {w : Bytes} (hw : Blank w) {c : UInt8} (hc : 32 < c) (t : Bytes) :
    skip (w ++ c :: t) = c :: t := by
  rw [skip_blank hw, skip_token hc]

/-- A byte no number goes on with. -/
def EndsNumber (c : UInt8) : Prop := isDigit c = false ∧ c ≠ 46 ∧ c ≠ 101 ∧ c ≠ 69

instance (c : UInt8) : Decidable (EndsNumber c) := inferInstanceAs (Decidable (_ ∧ _ ∧ _ ∧ _))

/-- Blanks in front of a bracket or a comma. -/
theorem endsNumber_blank {w : Bytes} (hw : Blank w) {c : UInt8} (h : EndsNumber c) (t : Bytes) :
    EndsNumber (deref (w ++ c :: t)) := by
  cases w with
  | nil => exact h
  | cons c w =>
    have hc : EndsNumber c := by
      rcases hw c (List.mem_cons_self ..) with rfl | rfl | rfl | rfl <;> decide
    exact hc

/-! ## Numbers -/

theorem isDigit_iff {c : UInt8} : isDigit c = true ↔ IsDigit c := by
  unfold isDigit IsDigit
  simp

theorem skipDigits_append {ds : Bytes} (h : ∀ c ∈ ds, IsDigit c) {t : Bytes} (ht : isDigit (deref t) = false) :
    skipDigits (ds ++ t) = t := by
  unfold skipDigits
  rw [List.dropWhile_append_of_pos fun c hc => isDigit_iff.mpr (h c hc)]
  cases t with
  | nil => rfl
  | cons c t => exact List.dropWhile_cons_of_neg (by simpa using ht)

theorem skipInt_append {int whole : Bytes} (h : IntPart int whole) {t : Bytes} (ht : isDigit (deref t) = false) :
    skipInt (skipZero (int ++ t)) = t := by
  cases h with
  | zero =>
    have hno : ¬ (49 ≤ deref t ∧ deref t ≤ 57) := by
      intro ⟨h1, h2⟩
      have : isDigit (deref t) = true := isDigit_iff.mpr ⟨UInt8.le_trans (by decide) h1, h2⟩
      rw [this] at ht; cases ht
    show (if 49 ≤ deref t ∧ deref t ≤ 57 then skipDigits t else t) = t
    rw [if_neg hno]
  | @digits d ds hd hds =>
    have h48 : d ≠ 48 := by intro e; subst e; exact absurd hd.1 (by decide)
    have hall : ∀ c ∈ d :: ds, IsDigit c := by
      intro c hc
      rcases List.mem_cons.mp hc with rfl | hc
      · exact ⟨UInt8.le_trans (by decide) hd.1, hd.2⟩
      · exact hds c hc
    have h0 : skipZero (d :: ds ++ t) = d :: ds ++ t := if_neg h48
    rw [h0]
    unfold skipInt
    exact (if_pos (by exact hd)).trans (skipDigits_append hall ht)

theorem skipFrac_append {frac fraction : Bytes} (h : FracPart frac fraction) {t : Bytes}
    (ht : isDigit (deref t) = false) (hdot : deref t ≠ 46) : skipFrac (frac ++ t) = t := by
  unfold skipFrac
  cases h with
  | none => exact if_neg fun h => hdot h.1
  | some hds =>
    obtain ⟨hne, hds⟩ := hds
    match fraction, hne with
    | d :: ds, _ =>
      show (if deref (46 :: (d :: ds ++ t)) = 46 ∧ isDigit d then skipDigits (d :: ds ++ t) else _) = t
      rw [if_pos ⟨rfl, isDigit_iff.mpr (hds d (List.mem_cons_self ..))⟩]
      exact skipDigits_append hds ht

/-- Digits start with no sign. -/
theorem Digits.start {ds : Bytes} (h : Digits ds) (t : Bytes) : ¬ (deref (ds ++ t) = 43 ∨ deref (ds ++ t) = 45) := by
  obtain ⟨hne, hds⟩ := h
  match ds, hne with
  | d :: ds, _ =>
    have hd := hds d (List.mem_cons_self ..)
    intro h
    rcases h with h | h
    all_goals
      change d = _ at h
      subst h
      exact absurd hd (by decide)

theorem skipExpSign_plus {sign ds : Bytes} (hs : sign = [] ∨ sign = [43]) (h : Digits ds) (t : Bytes) :
    skipExpSign (sign ++ ds ++ t) = ds ++ t := by
  rcases hs with rfl | rfl
  · exact if_neg (Digits.start h t)
  · exact if_pos (Or.inl rfl)

theorem skipExp_append {exp : Bytes} {e : Int} (h : ExpPart exp e) {t : Bytes} (ht : EndsNumber (deref t)) :
    skipExp (exp ++ t) = t := by
  unfold skipExp
  cases h with
  | none => exact if_neg fun h => h.elim ht.2.2.1 ht.2.2.2
  | @plus c sign ds he hs hds =>
    refine (if_pos (by exact he)).trans ?_
    exact (congrArg skipDigits (skipExpSign_plus hs hds t)).trans (skipDigits_append hds.2 ht.1)
  | @minus c ds he hds =>
    refine (if_pos (by exact he)).trans ?_
    exact (congrArg skipDigits (if_pos (Or.inr rfl))).trans (skipDigits_append hds.2 ht.1)

/-- The parts of a number stand apart by their first bytes. -/
theorem FracPart.ends {frac fraction : Bytes} (h : FracPart frac fraction) {t : Bytes}
    (ht : isDigit (deref t) = false) : isDigit (deref (frac ++ t)) = false := by
  cases h with
  | none => exact ht
  | some => rfl

theorem ExpPart.ends {exp : Bytes} {e : Int} (h : ExpPart exp e) {t : Bytes} (ht : EndsNumber (deref t)) :
    isDigit (deref (exp ++ t)) = false ∧ deref (exp ++ t) ≠ 46 := by
  cases h with
  | none => exact ⟨ht.1, ht.2.1⟩
  | @plus c sign ds he =>
    show isDigit c = false ∧ c ≠ 46
    rcases he with rfl | rfl <;> decide
  | @minus c ds he =>
    show isDigit c = false ∧ c ≠ 46
    rcases he with rfl | rfl <;> decide

theorem IntPart.start {int whole : Bytes} (h : IntPart int whole) :
    ∃ c t, int = c :: t ∧ c ≠ 45 ∧ isDigit c = true := by
  cases h with
  | zero => exact ⟨48, [], rfl, by decide, rfl⟩
  | @digits d ds hd hds =>
    refine ⟨d, ds, rfl, ?_, isDigit_iff.mpr ⟨UInt8.le_trans (by decide) hd.1, hd.2⟩⟩
    intro e
    subst e
    exact absurd hd.1 (by decide)

/-- The sign in front of the whole part. -/
theorem sign_append {int whole : Bytes} (h : IntPart int whole) (negative : Bool) (t : Bytes) :
    skipSign ((if negative then [45] else []) ++ (int ++ t)) = int ++ t ∧
      signOf ((if negative then [45] else []) ++ (int ++ t)) = if negative then -1 else 1 := by
  cases negative with
  | true => exact ⟨rfl, rfl⟩
  | false =>
    obtain ⟨c, u, rfl, hc, -⟩ := IntPart.start h
    exact ⟨if_neg hc, if_neg hc⟩

theorem numberEnd_append {lit : Bytes} {d : Decimal} (h : Number lit d) {t : Bytes} (ht : EndsNumber (deref t)) :
    numberEnd (lit ++ t) = t := by
  cases h with
  | @mk sign int whole frac fraction exp e negative hs hi hf he =>
    subst hs
    obtain ⟨hexp, hdot⟩ := ExpPart.ends he ht
    unfold numberEnd
    rw [List.append_assoc, List.append_assoc, List.append_assoc, (sign_append hi negative _).1,
      skipInt_append hi (FracPart.ends hf hexp), skipFrac_append hf hexp hdot, skipExp_append he ht]

/-- A number starts with a minus or a digit. -/
theorem Number.start {lit : Bytes} {d : Decimal} (h : Number lit d) :
    ∃ c t, lit = c :: t ∧ (c = 45 ∨ isDigit c = true) := by
  cases h with
  | @mk sign int whole frac fraction exp e negative hs hi hf he =>
    subst hs
    cases negative with
    | true => exact ⟨45, _, rfl, Or.inl rfl⟩
    | false =>
      obtain ⟨c, u, rfl, -, hc⟩ := IntPart.start hi
      exact ⟨c, _, rfl, Or.inr hc⟩

/-! ### Their values -/

section
variable {F : Type} (M : Arith F)

/-- One digit more. -/
def Arith.push (n : F) (d : Nat) : F := M.add (M.mul n (M.real 10)) (M.real d)

/-- A decimal as `parse_number` makes it, digit by digit. -/
def Arith.value (d : Decimal) : F :=
  M.mul (M.mul (M.real (if d.negative then -1 else 1)) (d.digits.foldl M.push (M.real 0)))
    (M.pow (M.real 10) (M.real (d.exponent - d.places)))

variable {M}

theorem digit_eq {c : UInt8} (hc : IsDigit c) : digit c = digitValue c := by
  have h : 48 ≤ c.toNat := UInt8.le_iff_toNat_le.mp hc.1
  unfold digit digitValue
  omega

theorem addDigits_append {ds : Bytes} (h : ∀ c ∈ ds, IsDigit c) {t : Bytes} (ht : isDigit (deref t) = false) (n : F) :
    addDigits M n (ds ++ t) = (ds.map digitValue).foldl M.push n := by
  induction ds generalizing n with
  | nil =>
    cases t with
    | nil => rfl
    | cons c t => exact if_neg (Bool.eq_false_iff.mp ht)
  | cons c ds ih =>
    have hc := h c List.mem_cons_self
    show (if isDigit c then addDigits M (M.add (M.mul n (M.real 10)) (M.real (digit c))) (ds ++ t) else n) = _
    rw [if_pos (isDigit_iff.mpr hc), digit_eq hc]
    exact ih (fun x hx => h x (List.mem_cons_of_mem _ hx)) _

theorem lowerScale_append {ds : Bytes} (h : ∀ c ∈ ds, IsDigit c) {t : Bytes} (ht : isDigit (deref t) = false) {k : Int}
    (hk : k ≤ 0) (hbound : ds.length - k ≤ 2 ^ 53) : lowerScale M (M.real k) (ds ++ t) = M.real (k - ds.length) := by
  induction ds generalizing k with
  | nil =>
    rw [List.nil_append, List.length_nil, Int.ofNat_zero, Int.sub_zero]
    cases t with
    | nil => rfl
    | cons c t => exact if_neg (Bool.eq_false_iff.mp ht)
  | cons c ds ih =>
    rw [List.length_cons] at hbound ⊢
    show (if isDigit c then lowerScale M (M.add (M.real k) (M.real (-1))) (ds ++ t) else M.real k) = _
    rw [if_pos (isDigit_iff.mpr (h c List.mem_cons_self)), M.add_real _ _ (by omega) (by omega) (by omega),
      ih (fun x hx => h x (List.mem_cons_of_mem _ hx)) (by omega) (by omega)]
    exact congrArg M.real (by omega)

theorem le_naturalValue (ds : Bytes) (n : Nat) : n ≤ ds.foldl (fun n c => n * 10 + digitValue c) n := by
  induction ds generalizing n with
  | nil => exact Nat.le_refl n
  | cons c ds ih => exact Nat.le_trans (by omega) (ih (n * 10 + digitValue c))

theorem addSubscale_append {ds : Bytes} (h : ∀ c ∈ ds, IsDigit c) {t : Bytes} (ht : isDigit (deref t) = false) {n : Nat}
    (hint : ds.foldl (fun n c => n * 10 + digitValue c) n < 2 ^ 31) :
    addSubscale M n (ds ++ t) = (ds.foldl (fun n c => n * 10 + digitValue c) n : Nat) := by
  induction ds generalizing n with
  | nil =>
    cases t with
    | nil => rfl
    | cons c t => exact if_neg (Bool.eq_false_iff.mp ht)
  | cons c ds ih =>
    have hc := h c List.mem_cons_self
    have hle := le_naturalValue ds (n * 10 + digitValue c)
    rw [List.foldl_cons] at hint ⊢
    show (if isDigit c then addSubscale M (M.int (n * 10 + digit c)) (ds ++ t) else n) = _
    rw [if_pos (isDigit_iff.mpr hc), digit_eq hc, M.int_fits _ (by omega) (by omega)]
    exact ih (fun x hx => h x (List.mem_cons_of_mem _ hx)) hint

theorem intDigits_append {int whole : Bytes} (h : IntPart int whole) {t : Bytes} (ht : isDigit (deref t) = false)
    (n : F) : intDigits M n (skipZero (int ++ t)) = (whole.map digitValue).foldl M.push n := by
  cases h with
  | zero =>
    refine if_neg fun hd => ?_
    have : isDigit (deref t) = true := isDigit_iff.mpr ⟨UInt8.le_trans (by decide) hd.1, hd.2⟩
    rw [this] at ht
    cases ht
  | @digits d ds hd hds =>
    have h48 : d ≠ 48 := by intro e; subst e; exact absurd hd.1 (by decide)
    have hall : ∀ c ∈ d :: ds, IsDigit c := by
      intro c hc
      rcases List.mem_cons.mp hc with rfl | hc
      · exact ⟨UInt8.le_trans (by decide) hd.1, hd.2⟩
      · exact hds c hc
    rw [show skipZero (d :: ds ++ t) = d :: ds ++ t from if_neg h48]
    exact (if_pos (by exact hd)).trans (addDigits_append hall ht n)

theorem frac_append {frac fraction : Bytes} (h : FracPart frac fraction) {t : Bytes} (ht : isDigit (deref t) = false)
    (hdot : deref t ≠ 46) (hlen : frac.length < 2 ^ 31) (n : F) :
    fracDigits M n (frac ++ t) = (fraction.map digitValue).foldl M.push n ∧
      fracScale M (M.real 0) (frac ++ t) = M.real (-fraction.length) := by
  cases h with
  | none => exact ⟨if_neg fun h => hdot h.1, if_neg fun h => hdot h.1⟩
  | some hds =>
    obtain ⟨hne, hds⟩ := hds
    have hstart : deref (46 :: (fraction ++ t)) = 46 ∧ isDigit (deref (fraction ++ t)) := by
      refine ⟨rfl, ?_⟩
      match fraction, hne with
      | d :: ds, _ => exact isDigit_iff.mpr (hds d (List.mem_cons_self ..))
    refine ⟨(if_pos hstart).trans (addDigits_append hds ht n), (if_pos hstart).trans ?_⟩
    rw [List.length_cons] at hlen
    refine (lowerScale_append hds ht (Int.le_refl 0) (by omega)).trans ?_
    rw [Int.zero_sub]

theorem exp_append {exp : Bytes} {e : Int} (h : ExpPart exp e) (hint : e.natAbs < 2 ^ 31) {t : Bytes}
    (ht : EndsNumber (deref t)) : M.int (expSubscale M (exp ++ t) * signSubscale (exp ++ t)) = e := by
  have hfits : ∀ a : Int, a.natAbs < 2 ^ 31 → M.int a = a := fun a ha => M.int_fits a (by omega) (by omega)
  cases h with
  | none =>
    have hno : ¬ (deref t = 101 ∨ deref t = 69) := fun h => h.elim ht.2.2.1 ht.2.2.2
    rw [List.nil_append, show expSubscale M t = 0 from if_neg hno, Int.zero_mul]
    exact hfits 0 (by decide)
  | @plus c sign ds he hs hds =>
    have hvalue : expSubscale M (c :: (sign ++ ds) ++ t) = naturalValue ds := by
      refine (if_pos (by exact he)).trans ?_
      refine (congrArg (addSubscale M 0) (skipExpSign_plus hs hds t)).trans ?_
      exact addSubscale_append (n := 0) hds.2 ht.1 (by simpa [naturalValue] using hint)
    have hsign : signSubscale (c :: (sign ++ ds) ++ t) = 1 := by
      refine if_neg fun h => ?_
      have hminus : deref (sign ++ ds ++ t) = 45 := h.2
      rcases hs with rfl | rfl
      · exact Digits.start hds t (Or.inr hminus)
      · exact absurd (show (43 : UInt8) = 45 from hminus) (by decide)
    rw [hvalue, hsign, Int.mul_one]
    exact hfits _ hint
  | @minus c ds he hds =>
    have hvalue : expSubscale M (c :: 45 :: ds ++ t) = naturalValue ds := by
      refine (if_pos (by exact he)).trans ?_
      refine (congrArg (addSubscale M 0) (if_pos (Or.inr rfl))).trans ?_
      exact addSubscale_append (n := 0) hds.2 ht.1 (by simpa [naturalValue] using hint)
    have hsign : signSubscale (c :: 45 :: ds ++ t) = -1 := if_pos ⟨he, rfl⟩
    rw [hvalue, hsign, Int.mul_neg, Int.mul_one]
    exact hfits _ hint

theorem numberValue_append {lit : Bytes} {d : Decimal} (h : Number lit d) (hint : d.exponent.natAbs < 2 ^ 31)
    (hlen : lit.length < 2 ^ 31) {t : Bytes} (ht : EndsNumber (deref t)) : numberValue M (lit ++ t) = M.value d := by
  cases h with
  | @mk sign int whole frac fraction exp e negative hs hi hf he =>
    subst hs
    simp only [List.length_append] at hlen
    obtain ⟨hexp, hdot⟩ := ExpPart.ends he ht
    have hend := FracPart.ends hf hexp
    obtain ⟨hskip, hsign⟩ := sign_append hi negative (frac ++ (exp ++ t))
    obtain ⟨hdigits, hscale⟩ :=
      @frac_append F M _ _ hf _ hexp hdot (by omega) ((whole.map digitValue).foldl M.push (M.real 0))
    have hplaces : fraction.length ≤ frac.length := by
      cases hf with
      | none => exact Nat.le_refl 0
      | some => exact Nat.le_succ _
    change e.natAbs < 2 ^ 31 at hint
    unfold numberValue
    rw [List.append_assoc, List.append_assoc, List.append_assoc, hskip, hsign]
    simp only [skipInt_append hi hend, skipFrac_append hf hexp hdot, intDigits_append hi hend, hdigits, hscale,
      exp_append he hint ht]
    rw [M.add_real _ _ (by omega) (by omega) (by omega), Int.add_comm, ← Int.sub_eq_add_neg]
    unfold Arith.value
    rw [List.map_append, List.foldl_append]

end

/-! ## Lists -/

section
variable {α : Type} {one : Bytes → Reads (α × Bytes)}

/-- One turn of the loop behind a comma. -/
theorem more_comma (fuel : Nat) (u : Bytes) :
    more one (fuel + 1) (44 :: u) =
      one (skip u) >>= fun p => (more one fuel (skip p.2)).map fun q => (p.1 :: q.1, q.2) := by
  rw [more, if_pos (deref_cons 44 u), List.tail_cons]
  cases one (skip u) with
  | error e => rfl
  | ok p =>
    simp only [ok_bind]
    cases more one fuel (skip p.2) <;> rfl

theorem more_stop {fuel : Nat} {c : UInt8} (hc : c ≠ 44) (t : Bytes) :
    more one (fuel + 1) (c :: t) = .ok ([], c :: t) := by
  rw [more, if_neg (by exact hc)]

/-- The list behind the bracket is read as if a comma stood in front of it. -/
theorem parseItems_eq {close b : UInt8} {fuel : Nat} {u : Bytes} (h : deref (skip u) ≠ close) :
    parseItems close one fuel (b :: u) = more one (fuel + 1) (44 :: u) >>= fun p =>
      if deref p.2 = close then .ok (p.1, p.2.tail) else .error .null := by
  unfold parseItems
  rw [more_comma, List.tail_cons]
  simp only [if_neg h]
  have hskip : skip (skip u) = skip u := List.dropWhile_idempotent _ _
  rw [hskip]
  cases one (skip u) with
  | error e => rfl
  | ok p =>
    simp only [ok_bind]
    cases more one fuel (skip p.2) with
    | error e => rfl
    | ok q => rfl

theorem parseItems_empty {close b : UInt8} {fuel : Nat} {w : Bytes} (hw : Blank w) (hc : 32 < close) (r : Bytes) :
    parseItems close one fuel (b :: (w ++ close :: r)) = .ok ([], r) := by
  unfold parseItems
  simp only [List.tail_cons, skip_blank_token hw hc, deref_cons, if_true]

/-- A text read as a value or a member by `one` up to `r`. -/
structure ReadBy (one : Bytes → Reads (α × Bytes)) (t : Bytes) (x : α) (r : Bytes) : Prop where
  reads : one (t ++ r) = .ok (x, r)
  start : ∃ c u, t = c :: u ∧ 32 < c

theorem ReadBy.more {t w w' r : Bytes} {c : UInt8} {x : α} (h : ReadBy one t x (w' ++ c :: r)) (hw : Blank w)
    (hw' : Blank w') (hc : 32 < c) (fuel : Nat) :
    more one (fuel + 1) (44 :: (w ++ (t ++ (w' ++ c :: r)))) =
      (more one fuel (c :: r)).map fun q => (x :: q.1, q.2) := by
  obtain ⟨a, u, rfl, ha⟩ := h.start
  rw [more_comma]
  show one (skip (w ++ a :: (u ++ (w' ++ c :: r)))) >>= _ = _
  rw [skip_blank_token hw ha]
  show one (a :: u ++ (w' ++ c :: r)) >>= _ = _
  rw [h.reads, ok_bind]
  show (CJson.more one fuel (skip (w' ++ c :: r))).map _ = _
  rw [skip_blank_token hw' hc]

end

/-! ## Trees -/

mutual

/-- The tree of a document: a number is the `int` its `double` becomes, and U+0000 is left
    out of the strings. -/
def item {F : Type} (M : Arith F) : Doc → Item
  | .null => .null
  | .bool b => .bool b
  | .number d => .number (M.toInt (M.value d))
  | .string s => .string (dropNul s)
  | .array ds => .array (items M ds)
  | .object ms => .object (members M ms)

def items {F : Type} (M : Arith F) : List Doc → List Item
  | [] => []
  | d :: ds => item M d :: items M ds

def members {F : Type} (M : Arith F) : List (Bytes × Doc) → List (CStr × Item)
  | [] => []
  | (k, d) :: ms => (dropNul k, item M d) :: members M ms

end

/-- The exponents of the numbers are `int`s. -/
inductive Fits : Doc → Prop where
  | null : Fits .null
  | bool (b : Bool) : Fits (.bool b)
  | number {d : Decimal} (h : d.exponent.natAbs < 2 ^ 31) : Fits (.number d)
  | string (s : Bytes) : Fits (.string s)
  | array {ds : List Doc} (h : ∀ d ∈ ds, Fits d) : Fits (.array ds)
  | object {ms : List (Bytes × Doc)} (h : ∀ m ∈ ms, Fits m.2) : Fits (.object ms)

section
variable {F : Type} {M : Arith F} {fuel : Nat}

/-! What `parse_value` does by the first byte. -/

theorem parseValue_string (t : Bytes) :
    parseValue M (fuel + 1) (34 :: t) = (parseString (34 :: t)).map fun p => (.string p.1, p.2) := by
  rw [parseValue]
  show (parseString (34 :: t) >>= fun p => .ok (Item.string p.1, p.2)) = _
  cases parseString (34 :: t) <;> rfl

theorem parseValue_number {c : UInt8} (hc : c = 45 ∨ isDigit c = true) (t : Bytes) :
    parseValue M (fuel + 1) (c :: t) = .ok (parseNumber M (c :: t)) := by
  have hne : ∀ d : UInt8, d ≠ 45 → isDigit d = false → (d == c) = false := by
    intro d h1 h2
    refine beq_eq_false_iff_ne.mpr ?_
    intro e; subst e
    rcases hc with rfl | hc
    · exact h1 rfl
    · rw [hc] at h2; cases h2
  have h34 : c ≠ 34 := by
    intro e; subst e
    rcases hc with h | h <;> exact absurd h (by decide)
  rw [parseValue]
  simp only [lNull, lFalse, lTrue, List.isPrefixOf, hne 110 (by decide) (by decide), hne 102 (by decide) (by decide),
    hne 116 (by decide) (by decide), Bool.false_and, Bool.false_eq_true, if_false, deref_cons]
  exact (if_neg h34).trans (if_pos hc)

theorem parseValue_array (t : Bytes) :
    parseValue M (fuel + 1) (91 :: t) =
      (parseItems 93 (parseValue M fuel) fuel (91 :: t)).map fun p => (.array p.1, p.2) := by
  rw [parseValue]
  show parseArray (parseValue M fuel) fuel (91 :: t) = _
  unfold parseArray
  cases parseItems 93 (parseValue M fuel) fuel (91 :: t) <;> rfl

theorem parseValue_object (t : Bytes) :
    parseValue M (fuel + 1) (123 :: t) =
      (parseItems 125 (parseMember (parseValue M fuel)) fuel (123 :: t)).map fun p => (.object p.1, p.2) := by
  rw [parseValue]
  show parseObject (parseValue M fuel) fuel (123 :: t) = _
  unfold parseObject
  cases parseItems 125 (parseMember (parseValue M fuel)) fuel (123 :: t) <;> rfl

theorem Value.start {t : Bytes} {d : Doc} (h : Value t d) : ∃ c u, t = c :: u ∧ 32 < c ∧ c ≠ 93 := by
  cases h with
  | null => exact ⟨110, _, rfl, by decide⟩
  | true => exact ⟨116, _, rfl, by decide⟩
  | false => exact ⟨102, _, rfl, by decide⟩
  | number h =>
    obtain ⟨c, u, rfl, hc⟩ := Number.start h
    refine ⟨c, u, rfl, ?_⟩
    rcases hc with rfl | hc
    · decide
    · obtain ⟨h1, h2⟩ := isDigit_iff.mp hc
      exact ⟨UInt8.lt_of_lt_of_le (by decide) h1, fun e => by subst e; exact absurd h2 (by decide)⟩
  | string => exact ⟨34, _, rfl, by decide⟩
  | emptyArray => exact ⟨91, _, rfl, by decide⟩
  | array => exact ⟨91, _, rfl, by decide⟩
  | emptyObject => exact ⟨123, _, rfl, by decide⟩
  | object => exact ⟨123, _, rfl, by decide⟩

/-- Behind the bracket stands no closing one. -/
theorem Elements.start {t : Bytes} {ds : List Doc} (h : Elements t ds) (r : Bytes) : deref (skip (t ++ r)) ≠ 93 := by
  cases h with
  | one hw h hw' =>
    obtain ⟨c, u, rfl, hc, hne⟩ := Value.start h
    rw [List.append_assoc, List.append_assoc, List.cons_append, skip_blank_token hw hc]
    exact hne
  | more hw h hw' hu =>
    obtain ⟨c, u, rfl, hc, hne⟩ := Value.start h
    rw [List.append_assoc, List.append_assoc, List.cons_append, skip_blank_token hw hc]
    exact hne

theorem Members.start {t : Bytes} {ms : List (Bytes × Doc)} (h : Members t ms) (r : Bytes) :
    deref (skip (t ++ r)) ≠ 125 := by
  cases h with
  | one hw h hw' =>
    cases h
    rw [List.append_assoc, List.append_assoc, List.cons_append, skip_blank_token hw (by decide)]
    show (34 : UInt8) ≠ 125
    decide
  | more hw h hw' hu =>
    cases h
    rw [List.append_assoc, List.append_assoc, List.cons_append, skip_blank_token hw (by decide)]
    show (34 : UInt8) ≠ 125
    decide

theorem parseMember_accepts {k s w w' t r : Bytes} {x : Item} {one : Bytes → Reads (Item × Bytes)} (hk : Chars k s)
    (hw : Blank w) (hw' : Blank w') (hstart : ∃ c u, t = c :: u ∧ 32 < c) (hx : one (t ++ r) = .ok (x, r))
    (hint : (k ++ 34 :: (w ++ 58 :: (w' ++ (t ++ r)))).length + 1 < 2 ^ 31) :
    parseMember one (34 :: (k ++ 34 :: (w ++ 58 :: (w' ++ (t ++ r))))) = .ok ((dropNul s, x), r) := by
  obtain ⟨c, u, rfl, hc⟩ := hstart
  unfold parseMember
  rw [parseString_chars hk _ hint]
  simp only [ok_bind]
  rw [skip_blank_token hw (by decide), if_neg (by simp), List.tail_cons]
  show (one (skip (w' ++ c :: (u ++ r))) >>= _) = _
  rw [skip_blank_token hw' hc]
  show (one (c :: u ++ r) >>= _) = _
  rw [hx]
  rfl

/-! ## A text of the format is read as its document -/

theorem number_accepts {lit : Bytes} {d : Decimal} (h : Number lit d) (hint : d.exponent.natAbs < 2 ^ 31)
    (hlen : lit.length < 2 ^ 31) {r : Bytes} (hr : EndsNumber (deref r)) :
    parseValue M (fuel + 1) (lit ++ r) = .ok (.number (M.toInt (M.value d)), r) := by
  obtain ⟨c, u, hu, hc⟩ := Number.start h
  have hval := @parseValue_number F M fuel c hc (u ++ r)
  rw [← List.cons_append, ← hu] at hval
  rw [hval, parseNumber, numberEnd_append h hr, numberValue_append h hint hlen hr]

/-- `t` is read as `d` in front of anything that ends a number, in a text that an `int`
    holds the length of. -/
def Accepted (M : Arith F) (t : Bytes) (d : Doc) : Prop :=
  ∀ fuel r, (t ++ r).length < fuel → fuel ≤ 2 ^ 31 → EndsNumber (deref r) →
    parseValue M fuel (t ++ r) = .ok (item M d, r)

theorem Accepted.readBy {t w : Bytes} {d : Doc} (ha : Accepted M t d) (h : Value t d) (hw : Blank w) {c : UInt8}
    (hc : EndsNumber c) (n : Nat) (r : Bytes) (hn : (t ++ (w ++ c :: r)).length < n) (hint : n ≤ 2 ^ 31) :
    ReadBy (parseValue M n) t (item M d) (w ++ c :: r) := by
  obtain ⟨a, u, hu, hlt, -⟩ := Value.start h
  exact ⟨ha n _ hn hint (endsNumber_blank hw hc r), a, u, hu, hlt⟩

theorem string_accepts {t v r : Bytes} (h : Chars t v) (hlen : (34 :: (t ++ [34]) ++ r).length < 2 ^ 31) :
    parseValue M (fuel + 1) (34 :: (t ++ [34]) ++ r) = .ok (.string (dropNul v), r) := by
  have heq : 34 :: (t ++ [34]) ++ r = 34 :: (t ++ 34 :: r) := by simp
  rw [heq] at hlen ⊢
  rw [parseValue_string, parseString_chars h r hlen]
  rfl

theorem emptyArray_accepts {w : Bytes} (hw : Blank w) (r : Bytes) :
    parseValue M (fuel + 1) (91 :: (w ++ [93]) ++ r) = .ok (.array [], r) := by
  have heq : 91 :: (w ++ [93]) ++ r = 91 :: (w ++ 93 :: r) := by simp
  rw [heq, parseValue_array, parseItems_empty hw (by decide)]
  rfl

theorem array_accepts {t r : Bytes} {xs : List Item} (hfirst : deref (skip (t ++ 93 :: r)) ≠ 93)
    (hmore : more (parseValue M fuel) (fuel + 1) (44 :: (t ++ 93 :: r)) = .ok (xs, 93 :: r)) :
    parseValue M (fuel + 1) (91 :: (t ++ [93]) ++ r) = .ok (.array xs, r) := by
  have heq : 91 :: (t ++ [93]) ++ r = 91 :: (t ++ 93 :: r) := by simp
  rw [heq, parseValue_array, parseItems_eq hfirst, hmore]
  rfl

theorem emptyObject_accepts {w : Bytes} (hw : Blank w) (r : Bytes) :
    parseValue M (fuel + 1) (123 :: (w ++ [125]) ++ r) = .ok (.object [], r) := by
  have heq : 123 :: (w ++ [125]) ++ r = 123 :: (w ++ 125 :: r) := by simp
  rw [heq, parseValue_object, parseItems_empty hw (by decide)]
  rfl

theorem object_accepts {t r : Bytes} {xs : List (CStr × Item)} (hfirst : deref (skip (t ++ 125 :: r)) ≠ 125)
    (hmore : more (parseMember (parseValue M fuel)) (fuel + 1) (44 :: (t ++ 125 :: r)) = .ok (xs, 125 :: r)) :
    parseValue M (fuel + 1) (123 :: (t ++ [125]) ++ r) = .ok (.object xs, r) := by
  have heq : 123 :: (t ++ [125]) ++ r = 123 :: (t ++ 125 :: r) := by simp
  rw [heq, parseValue_object, parseItems_eq hfirst, hmore]
  rfl

/-- Behind the opening bracket. -/
theorem length_inside {t r : Bytes} {o c : UInt8} {n : Nat} (h : (o :: (t ++ [c]) ++ r).length < n + 1) :
    (t ++ c :: r).length < n := by
  simp only [List.cons_append, List.length_cons, List.length_append, List.length_nil] at h ⊢
  omega

/-- Behind the blanks in front of the first value. -/
theorem length_first {w t w' r : Bytes} {c : UInt8} {n : Nat} (h : (w ++ (t ++ w') ++ c :: r).length < n) :
    (t ++ (w' ++ c :: r)).length < n := by
  simp only [List.length_cons, List.length_append] at h ⊢
  omega

theorem length_comma {w t w' u r : Bytes} {c : UInt8} {n : Nat}
    (h : (w ++ (t ++ (w' ++ 44 :: u)) ++ c :: r).length < n) :
    (t ++ (w' ++ 44 :: (u ++ c :: r))).length < n ∧ (u ++ c :: r).length < n - 1 := by
  simp only [List.length_cons, List.length_append] at h ⊢
  omega

theorem length_left {t r : Bytes} {n : Nat} (h : (t ++ r).length < n + 1) (hn : n + 1 ≤ 2 ^ 31) :
    t.length < 2 ^ 31 := by
  rw [List.length_append] at h
  omega

theorem length_member (k w w' t r : Bytes) :
    (t ++ r).length ≤ (34 :: (k ++ 34 :: (w ++ 58 :: (w' ++ t))) ++ r).length := by
  simp only [List.cons_append, List.length_cons, List.length_append]
  omega

theorem ReadBy.member {k s w w' t r : Bytes} {x : Item} {one : Bytes → Reads (Item × Bytes)} (hk : Chars k s)
    (hw : Blank w) (hw' : Blank w') (h : ReadBy one t x r)
    (hint : (34 :: (k ++ 34 :: (w ++ 58 :: (w' ++ t))) ++ r).length < 2 ^ 31) :
    ReadBy (parseMember one) (34 :: (k ++ 34 :: (w ++ 58 :: (w' ++ t)))) (dropNul s, x) r := by
  have heq : 34 :: (k ++ 34 :: (w ++ 58 :: (w' ++ t))) ++ r = 34 :: (k ++ 34 :: (w ++ 58 :: (w' ++ (t ++ r)))) := by
    simp
  refine ⟨?_, 34, _, rfl, by decide⟩
  rw [heq] at hint ⊢
  exact parseMember_accepts hk hw hw' h.start h.reads hint

/-- The last one of a list. -/
theorem ReadBy.last {α : Type} {one : Bytes → Reads (α × Bytes)} {w t w' r : Bytes} {c : UInt8} {x : α}
    (h : ReadBy one t x (w' ++ c :: r)) (hw : Blank w) (hw' : Blank w') (hc : 32 < c) (hne : c ≠ 44) (fuel : Nat) :
    CJson.more one (fuel + 2) (44 :: (w ++ (t ++ w') ++ c :: r)) = .ok ([x], c :: r) := by
  rw [List.append_assoc, List.append_assoc, h.more hw hw' hc, more_stop hne]
  rfl

/-- One with a comma behind it. -/
theorem ReadBy.comma {α : Type} {one : Bytes → Reads (α × Bytes)} {w t w' u r : Bytes} {c : UInt8} {x : α} {xs : List α}
    (h : ReadBy one t x (w' ++ 44 :: (u ++ c :: r))) (hw : Blank w) (hw' : Blank w') {fuel : Nat}
    (hrest : CJson.more one fuel (44 :: (u ++ c :: r)) = .ok (xs, c :: r)) :
    CJson.more one (fuel + 1) (44 :: (w ++ (t ++ (w' ++ 44 :: u)) ++ c :: r)) = .ok (x :: xs, c :: r) := by
  rw [List.append_assoc, List.append_assoc, List.append_assoc, List.cons_append, h.more hw hw' (by decide), hrest]
  rfl

mutual

theorem parseValue_accepts {t : Bytes} {d : Doc} (M : Arith F) : (h : Value t d) → Fits d → Accepted M t d
  | .null, _, _ + 1, _, _, _, _ => rfl
  | .true, _, _ + 1, _, _, _, _ => rfl
  | .false, _, _ + 1, _, _, _, _ => rfl
  | .number h, .number hint, _ + 1, _, hf, hn, hr => number_accepts h hint (length_left hf hn) hr
  | .string h, _, _ + 1, _, hf, hn, _ => string_accepts h (Nat.lt_of_lt_of_le hf hn)
  | .emptyArray hw, _, _ + 1, r, _, _, _ => emptyArray_accepts hw r
  | .array h, .array hfits, fuel + 1, r, hf, hn, _ =>
    array_accepts (Elements.start h (93 :: r)) (more_elements M h hfits fuel (fuel + 1) r (length_inside hf)
      (Nat.lt_succ_of_lt (length_inside hf)) (Nat.le_of_succ_le hn))
  | .emptyObject hw, _, _ + 1, r, _, _, _ => emptyObject_accepts hw r
  | .object h, .object hfits, fuel + 1, r, hf, hn, _ =>
    object_accepts (Members.start h (125 :: r)) (more_members M h hfits fuel (fuel + 1) r (length_inside hf)
      (Nat.lt_succ_of_lt (length_inside hf)) (Nat.le_of_succ_le hn))

theorem readBy_member {t : Bytes} {m : Bytes × Doc} (M : Arith F) : (h : Member t m) → Fits m.2 → ∀ {w : Bytes},
    Blank w → ∀ {c : UInt8}, EndsNumber c → ∀ n r, (t ++ (w ++ c :: r)).length < n → n ≤ 2 ^ 31 →
    ReadBy (parseMember (parseValue M n)) t (dropNul m.1, item M m.2) (w ++ c :: r)
  | .mk hk hw₁ hw₂ h, hfits, _, hw, _, hc, n, r, hn, hint =>
    ReadBy.member hk hw₁ hw₂
      ((parseValue_accepts M h hfits).readBy h hw hc n r (Nat.lt_of_le_of_lt (length_member ..) hn) hint)
      (Nat.lt_of_lt_of_le hn hint)

theorem more_elements {t : Bytes} {ds : List Doc} (M : Arith F) : (h : Elements t ds) → (∀ d ∈ ds, Fits d) →
    ∀ n fuel r, (t ++ 93 :: r).length < n → (t ++ 93 :: r).length < fuel → n ≤ 2 ^ 31 →
    more (parseValue M n) fuel (44 :: (t ++ 93 :: r)) = .ok (items M ds, 93 :: r)
  | .one _ _ _, _, _, 1, _, _, hf, _ => absurd hf (by simp)
  | .one hw h hw', hfits, n, fuel + 2, r, hn, _, hint =>
    ((parseValue_accepts M h (hfits _ List.mem_cons_self)).readBy h hw' (by decide) n r (length_first hn) hint).last
      hw hw' (by decide) (by decide) fuel
  | .more hw h hw' hu, hfits, n, fuel + 1, r, hn, hf, hint =>
    ((parseValue_accepts M h (hfits _ List.mem_cons_self)).readBy h hw' (by decide) n _ (length_comma hn).1 hint).comma
      hw hw' (more_elements M hu (fun d hd => hfits d (List.mem_cons_of_mem _ hd)) n fuel r
        (Nat.lt_of_lt_of_le (length_comma hn).2 (Nat.sub_le n 1)) (length_comma hf).2 hint)

theorem more_members {t : Bytes} {ms : List (Bytes × Doc)} (M : Arith F) : (h : Members t ms) →
    (∀ m ∈ ms, Fits m.2) → ∀ n fuel r, (t ++ 125 :: r).length < n → (t ++ 125 :: r).length < fuel → n ≤ 2 ^ 31 →
    more (parseMember (parseValue M n)) fuel (44 :: (t ++ 125 :: r)) = .ok (members M ms, 125 :: r)
  | .one _ _ _, _, _, 1, _, _, hf, _ => absurd hf (by simp)
  | .one hw h hw', hfits, n, fuel + 2, r, hn, _, hint =>
    (readBy_member M h (hfits _ List.mem_cons_self) hw' (by decide) n r (length_first hn) hint).last
      hw hw' (by decide) (by decide) fuel
  | .more hw h hw' hu, hfits, n, fuel + 1, r, hn, hf, hint =>
    (readBy_member M h (hfits _ List.mem_cons_self) hw' (by decide) n _ (length_comma hn).1 hint).comma
      hw hw' (more_members M hu (fun m hm => hfits m (List.mem_cons_of_mem _ hm)) n fuel r
        (Nat.lt_of_lt_of_le (length_comma hn).2 (Nat.sub_le n 1)) (length_comma hf).2 hint)

end

theorem parseValue_text {s : CStr} {d : Doc} (h : Text s.chars d) (hfits : Fits d) (hint : s.length < 2 ^ 31) :
    ∃ rest, parseValue M (s.length + 1) (skip s.chars) = .ok (item M d, rest) := by
  generalize hs : s.chars = chars at h
  obtain @⟨w, t, w', d, hw, h, hw'⟩ := h
  obtain ⟨c, u, hu, hc, -⟩ := Value.start h
  have hskip : skip s.chars = t ++ w' := by
    rw [hs, hu, List.cons_append]
    exact skip_blank_token hw hc (u ++ w')
  have hlen : (t ++ w').length < s.length + 1 := by
    unfold CStr.length
    rw [hs]
    simp only [List.length_append]
    omega
  have hend : EndsNumber (deref w') := by
    cases w' with
    | nil => decide
    | cons b w' =>
      have hb := endsNumber_blank (w := []) (by simp [Blank]) (c := b) (t := w')
      refine hb ?_
      rcases hw' b (List.mem_cons_self ..) with rfl | rfl | rfl | rfl <;> decide
  rw [← hs, hskip]
  exact ⟨w', parseValue_accepts M h hfits _ _ hlen hint hend⟩

/-- A text of the format is read as the tree of its document. -/
theorem cJSONParse_text {s : CStr} {d : Doc} (h : Text s.chars d) (hfits : Fits d) (hint : s.length < 2 ^ 31) :
    cJSONParse M s = .ok (item M d) := by
  obtain ⟨rest, hparse⟩ := parseValue_text h hfits hint
  unfold cJSONParse
  rw [hparse]
  rfl

end

end Ddm.CJson
