/-
  Ddm.CJson.Safe — `cJSON_Parse` on any text at all.

  One induction over the parser (`parseValue_good`) says what a result is like, from what
  `parse_string` gives on the texts one starts from. Proved with it: if the escapes of the
  text are well formed, and it is short enough for an `int`, the parser stops with a tree
  or with NULL, having read nothing behind the text and written nothing behind a block
  (`cJSONParse_safe`); and on every text a string of the tree is shorter than the text
  (`cJSONParse_short`).
-/

import Ddm.CJson.Accept

namespace Ddm.CJson

open Ddm.Lib Ddm.Registry.Json

/-! ## Pieces without a backslash -/

/-- What is left of `t` behind a piece without a backslash. -/
def Skips (t t' : Bytes) : Prop := ∃ w, t = w ++ t' ∧ 92 ∉ w

theorem Skips.refl (t : Bytes) : Skips t t := ⟨[], rfl, List.not_mem_nil⟩

theorem Skips.trans {t u v : Bytes} (h₁ : Skips t u) (h₂ : Skips u v) : Skips t v := by
  obtain ⟨w₁, rfl, hw₁⟩ := h₁
  obtain ⟨w₂, rfl, hw₂⟩ := h₂
  exact ⟨w₁ ++ w₂, (List.append_assoc ..).symm, by simp [hw₁, hw₂]⟩

theorem Skips.length {t t' : Bytes} (h : Skips t t') : t'.length ≤ t.length := by
  obtain ⟨w, rfl, -⟩ := h
  simp

theorem WellEscaped.of_append {w t : Bytes} (h : WellEscaped (w ++ t)) (hw : 92 ∉ w) : WellEscaped t := by
  induction w with
  | nil => exact h
  | cons c w ih =>
    have hc : c ≠ 92 := fun e => hw (e ▸ List.mem_cons_self ..)
    exact ih (h.tail hc) fun h => hw (List.mem_cons_of_mem _ h)

theorem Skips.escaped {t t' : Bytes} (h : Skips t t') (ht : WellEscaped t) : WellEscaped t' := by
  obtain ⟨w, rfl, hw⟩ := h
  exact ht.of_append hw

theorem skips_dropWhile {p : UInt8 → Bool} (hp : p 92 = false) (t : Bytes) : Skips t (t.dropWhile p) :=
  ⟨t.takeWhile p, List.takeWhile_append_dropWhile.symm, fun h => by
    rw [List.mem_takeWhile_imp h] at hp; cases hp⟩

theorem skips_skip (t : Bytes) : Skips t (skip t) := skips_dropWhile (by decide) t

theorem skips_tail {t : Bytes} {c : UInt8} (h : deref t = c) (hc : c ≠ 92) : Skips t t.tail := by
  cases t with
  | nil => exact .refl []
  | cons d t => exact ⟨[d], rfl, by simpa using fun e => hc (h.symm.trans e.symm)⟩

theorem skips_drop {l t : Bytes} (h : l.isPrefixOf t = true) (hl : 92 ∉ l) : Skips t (t.drop l.length) := by
  obtain ⟨u, rfl⟩ := List.isPrefixOf_iff_prefix.mp h
  exact ⟨l, by rw [List.drop_left], hl⟩

theorem tail_lt {t : Bytes} {c : UInt8} (h : deref t = c) (hc : c ≠ 0) : t.tail.length < t.length := by
  obtain ⟨u, rfl⟩ := ne_nil_of_deref h hc
  simp

theorem skips_digits (t : Bytes) : Skips t (skipDigits t) := skips_dropWhile (by decide) t

/-- An optional piece. -/
theorem skips_ite {p : Prop} [Decidable p] {t t' : Bytes} (h : p → Skips t t') : Skips t (if p then t' else t) := by
  split
  · rename_i hp; exact h hp
  · exact .refl t

theorem skips_skipSign (t : Bytes) : Skips t (skipSign t) := skips_ite fun h => skips_tail h (by decide)

theorem skips_skipZero (t : Bytes) : Skips t (skipZero t) := skips_ite fun h => skips_tail h (by decide)

theorem skips_skipInt (t : Bytes) : Skips t (skipInt t) := skips_ite fun _ => skips_digits t

theorem skips_skipFrac (t : Bytes) : Skips t (skipFrac t) :=
  skips_ite fun h => (skips_tail h.1 (by decide)).trans (skips_digits _)

theorem skips_skipExpSign (t : Bytes) : Skips t (skipExpSign t) :=
  skips_ite fun h => h.elim (fun e => skips_tail e (by decide)) fun e => skips_tail e (by decide)

theorem skips_skipExp (t : Bytes) : Skips t (skipExp t) :=
  skips_ite fun h => (h.elim (fun e => skips_tail e (by decide)) fun e => skips_tail e (by decide)).trans
    ((skips_skipExpSign _).trans (skips_digits _))

/-- A number takes one byte at least. -/
theorem skips_numberEnd {t : Bytes} (h : deref t = 45 ∨ isDigit (deref t) = true) :
    Skips t (numberEnd t) ∧ (numberEnd t).length < t.length := by
  have hrest : ∀ u, Skips (skipInt u) (skipExp (skipFrac (skipInt u))) := fun u =>
    (skips_skipFrac _).trans (skips_skipExp _)
  have hzero : ∀ u, Skips (skipZero u) (skipExp (skipFrac (skipInt (skipZero u)))) := fun u =>
    (skips_skipInt _).trans (hrest _)
  refine ⟨((skips_skipSign t).trans (skips_skipZero _)).trans (hzero _), ?_⟩
  unfold numberEnd
  rcases h with h | h
  · have hsign : skipSign t = t.tail := if_pos h
    rw [hsign]
    exact Nat.lt_of_le_of_lt ((skips_skipZero _).trans (hzero _)).length (tail_lt h (by decide))
  · obtain ⟨c, u, rfl⟩ : ∃ c u, t = c :: u := by
      cases t with
      | nil => exact absurd h (by decide)
      | cons c u => exact ⟨c, u, rfl⟩
    have h45 : c ≠ 45 := by
      intro e; subst e; exact absurd (show isDigit 45 = true from h) (by decide)
    have hsign : skipSign (c :: u) = c :: u := if_neg h45
    rw [hsign]
    by_cases h48 : c = 48
    · have hz : skipZero (c :: u) = u := if_pos h48
      rw [hz]
      exact Nat.lt_succ_of_le ((skips_skipInt u).trans (hrest u)).length
    · have hd := isDigit_iff.mp h
      have h49 : 49 ≤ c := by
        have h1 : 48 ≤ c.toNat := UInt8.le_iff_toNat_le.mp hd.1
        have h2 : c.toNat ≠ 48 := fun e => h48 (UInt8.toNat_inj.mp e)
        exact UInt8.le_iff_toNat_le.mpr (by show 49 ≤ c.toNat; omega)
      have hz : skipZero (c :: u) = c :: u := if_neg h48
      have hi : skipInt (c :: u) = skipDigits u :=
        (if_pos ⟨h49, hd.2⟩).trans (List.dropWhile_cons_of_pos h)
      refine Nat.lt_of_le_of_lt (hrest _).length ?_
      rw [hz, hi]
      exact Nat.lt_succ_of_le (skips_digits u).length

/-! ## What a result is like -/

/-- Every string of the tree is shorter than `n`. -/
inductive Short (n : Nat) : Item → Prop where
  | null : Short n .null
  | bool (b : Bool) : Short n (.bool b)
  | number (v : Int) : Short n (.number v)
  | string {s : CStr} (h : s.length < n) : Short n (.string s)
  | array {items : List Item} (h : ∀ x ∈ items, Short n x) : Short n (.array items)
  | object {members : List (CStr × Item)} (h : ∀ m ∈ members, Short n m.2) : Short n (.object members)

theorem Short.mono {m n : Nat} {x : Item} (h : Short m x) (hmn : m ≤ n) : Short n x := by
  induction h with
  | null => exact .null
  | bool b => exact .bool b
  | number v => exact .number v
  | string h => exact .string (Nat.lt_of_lt_of_le h hmn)
  | array _ ih => exact .array ih
  | object _ ih => exact .object ih

/-- A result with `S`, and of the text less than `n` bytes and `P`; or an error of `bad`. -/
def Good {α : Type} (P : Bytes → Prop) (bad : Stop → Prop) (n : Nat) (S : α → Prop) : Reads (α × Bytes) → Prop
  | .ok p => P p.2 ∧ p.2.length < n ∧ S p.1
  | .error e => bad e

section
variable {α β : Type} {P : Bytes → Prop} {bad : Stop → Prop} {m n : Nat} {S : α → Prop}

theorem Good.bind {T : β → Prop} {r : Reads (α × Bytes)} (h : Good P bad m S r)
    {f : α × Bytes → Reads (β × Bytes)} (hf : ∀ x t, P t → t.length < m → S x → Good P bad n T (f (x, t))) :
    Good P bad n T (r >>= f) := by
  cases r with
  | error e => exact h
  | ok p => exact hf p.1 p.2 h.1 h.2.1 h.2.2

theorem Good.mono {S' : α → Prop} {r : Reads (α × Bytes)} (h : Good P bad m S r) (hmn : m ≤ n)
    (hS : ∀ x, S x → S' x) : Good P bad n S' r := by
  cases r with
  | error e => exact h
  | ok p => exact ⟨h.1, Nat.lt_of_lt_of_le h.2.1 hmn, hS _ h.2.2⟩

end

/-- What the induction needs: texts closed under skipping, strings read well on them. -/
structure Texts (P : Bytes → Prop) (bad : Stop → Prop) : Prop where
  skips : ∀ {t t' : Bytes}, Skips t t' → P t → P t'
  string : ∀ {t : Bytes}, P t → Good P bad t.length (fun s : CStr => s.length < t.length) (parseString t)
  null : bad .null

section
variable {α : Type} {P : Bytes → Prop} {bad : Stop → Prop} {one : Bytes → Reads (α × Bytes)} {n : Nat}
  {S : Nat → α → Prop}

/-- `one` on texts shorter than `n`. -/
def GoodBelow (P : Bytes → Prop) (bad : Stop → Prop) (n : Nat) (S : Nat → α → Prop)
    (one : Bytes → Reads (α × Bytes)) : Prop :=
  ∀ t, P t → t.length < n → Good P bad t.length (S t.length) (one t)

theorem more_good (hP : Texts P bad) (hS : ∀ i j x, S i x → i ≤ j → S j x) (hone : GoodBelow P bad n S one)
    {fuel : Nat} {t : Bytes} (h : P t) (hf : t.length < fuel) (hn : t.length ≤ n) :
    Good P bad (t.length + 1) (fun xs => ∀ x ∈ xs, S t.length x) (more one fuel t) := by
  induction fuel generalizing t with
  | zero => exact absurd hf (Nat.not_lt_zero _)
  | succ fuel ih =>
    rw [more]
    split
    · rename_i hc
      have hs := (skips_tail hc (by decide)).trans (skips_skip _)
      have hlt : (skip t.tail).length < t.length :=
        Nat.lt_of_le_of_lt (skips_skip _).length (tail_lt hc (by decide))
      refine (hone _ (hP.skips hs h) (by omega)).bind fun x u hu hul hx => ?_
      have hsk := (skips_skip u).length
      refine (ih (hP.skips (skips_skip u) hu) (by omega) (by omega)).bind fun xs v hv hvl hxs => ?_
      refine ⟨hv, Nat.lt_trans hvl (by omega), fun y hy => ?_⟩
      rcases List.mem_cons.mp hy with rfl | hy
      · exact hS _ _ _ hx (by omega)
      · exact hS _ _ _ (hxs y hy) (by omega)
    · exact ⟨h, Nat.lt_succ_self _, fun x hx => absurd hx List.not_mem_nil⟩

theorem parseItems_good (hP : Texts P bad) (hS : ∀ i j x, S i x → i ≤ j → S j x) (hone : GoodBelow P bad n S one)
    {close : UInt8} (hclose : close ≠ 92 ∧ close ≠ 0) {t : Bytes} (h : P t.tail) (hn : t.tail.length < n) :
    Good P bad (t.tail.length + 1) (fun xs => ∀ x ∈ xs, S t.tail.length x) (parseItems close one n t) := by
  have hw := hP.skips (skips_skip t.tail) h
  have hle := (skips_skip t.tail).length
  unfold parseItems
  simp only
  split
  · rename_i hc
    exact ⟨hP.skips (skips_tail hc hclose.1) hw, Nat.lt_of_lt_of_le (tail_lt hc hclose.2) (by omega),
      fun x hx => absurd hx List.not_mem_nil⟩
  · have hw' := hP.skips (skips_skip (skip t.tail)) hw
    have hle' := (skips_skip (skip t.tail)).length
    refine (hone _ hw' (by omega)).bind fun x u hu hul hx => ?_
    have hsk := (skips_skip u).length
    refine (more_good hP hS hone (hP.skips (skips_skip u) hu) (by omega) (by omega)).bind fun xs v hv hvl hxs => ?_
    show Good P bad _ _ (if deref v = close then Except.ok (x :: xs, v.tail) else Except.error Stop.null)
    split
    · rename_i hc
      refine ⟨hP.skips (skips_tail hc hclose.1) hv, Nat.lt_trans (tail_lt hc hclose.2) (by omega), fun y hy => ?_⟩
      rcases List.mem_cons.mp hy with rfl | hy
      · exact hS _ _ _ hx (by omega)
      · exact hS _ _ _ (hxs y hy) (by omega)
    · exact hP.null

end

section
variable {F : Type} {P : Bytes → Prop} {bad : Stop → Prop}

theorem parseMember_good (hP : Texts P bad) {one : Bytes → Reads (Item × Bytes)} {n : Nat}
    (hone : GoodBelow P bad n Short one) :
    GoodBelow P bad n (fun i (m : CStr × Item) => Short i m.2) (parseMember one) := by
  intro t h hn
  unfold parseMember
  refine (hP.string h).bind fun k u hu hul _ => ?_
  have hsk := (skips_skip u).length
  simp only
  split
  · exact hP.null
  · rename_i hc
    have hc : deref (skip u) = 58 := Decidable.not_not.mp hc
    have hs := (skips_skip u).trans ((skips_tail hc (by decide)).trans (skips_skip _))
    have hlt : (skip (skip u).tail).length < (skip u).length :=
      Nat.lt_of_le_of_lt (skips_skip _).length (tail_lt hc (by decide))
    refine (hone _ (hP.skips hs hu) (by omega)).bind fun x v hv hvl hx => ?_
    exact ⟨hv, Nat.lt_trans hvl (by omega), hx.mono (by omega)⟩

theorem literal_good (hP : Texts P bad) {l t : Bytes} {x : Item} (hx : Short t.length x) (h : P t)
    (hp : l.isPrefixOf t = true) (hl : 92 ∉ l) (hpos : 0 < l.length) :
    Good P bad t.length (Short t.length) (.ok (x, t.drop l.length)) := by
  have hpre := (List.isPrefixOf_iff_prefix.mp hp).length_le
  exact ⟨hP.skips (skips_drop hp hl) h, by simp; omega, hx⟩

theorem number_good (hP : Texts P bad) (M : Arith F) {t : Bytes} (h : P t)
    (hc : deref t = 45 ∨ isDigit (deref t) = true) :
    Good P bad t.length (Short t.length) (.ok (parseNumber M t)) := by
  obtain ⟨hs, hlt⟩ := skips_numberEnd hc
  rw [parseNumber]
  generalize numberEnd t = rest at *
  exact ⟨hP.skips hs h, hlt, .number _⟩

theorem parseValue_good (hP : Texts P bad) (M : Arith F) (fuel : Nat) :
    GoodBelow P bad fuel Short (parseValue M fuel) := by
  induction fuel with
  | zero => exact fun t _ hf => absurd hf (Nat.not_lt_zero _)
  | succ fuel ih =>
    intro t h hf
    rw [parseValue]
    split
    · exact literal_good (l := lNull) hP .null h (by assumption) (by decide) (by decide)
    · split
      · exact literal_good (l := lFalse) hP (.bool _) h (by assumption) (by decide) (by decide)
      · split
        · exact literal_good (l := lTrue) hP (.bool _) h (by assumption) (by decide) (by decide)
        · split
          · exact (hP.string h).bind fun s u hu hul hs => ⟨hu, hul, .string hs⟩
          · split
            · rename_i hc
              exact number_good hP M h hc
            · split
              · rename_i hc
                have ht := tail_lt hc (by decide)
                have hu := hP.skips (skips_tail hc (by decide)) h
                refine (parseItems_good (S := Short) hP (fun _ _ _ => Short.mono) ih (by decide) hu
                  (by omega)).bind fun xs u hu hul hxs => ?_
                exact ⟨hu, Nat.lt_of_lt_of_le hul (by omega), .array fun x hx => (hxs x hx).mono (by omega)⟩
              · split
                · rename_i hc
                  have ht := tail_lt hc (by decide)
                  have hu := hP.skips (skips_tail hc (by decide)) h
                  refine (parseItems_good (S := fun i m => Short i m.2) hP (fun _ _ _ => Short.mono)
                    (parseMember_good hP ih) (by decide) hu (by omega)).bind fun ms u hu hul hms => ?_
                  exact ⟨hu, Nat.lt_of_lt_of_le hul (by omega), .object fun m hm => (hms m hm).mono (by omega)⟩
                · exact hP.null

theorem cJSONParse_good (hP : Texts P bad) (M : Arith F) {s : CStr} (h : P s.chars) :
    match cJSONParse M s with
    | .ok x => Short s.length x
    | .error e => bad e := by
  have hlen : (skip s.chars).length ≤ s.length := (skips_skip s.chars).length
  have hgood := parseValue_good hP M (s.length + 1) (skip s.chars) (hP.skips (skips_skip _) h)
    (Nat.lt_succ_of_le hlen)
  unfold cJSONParse
  cases hp : parseValue M (s.length + 1) (skip s.chars) with
  | ok p => rw [hp] at hgood; exact hgood.2.2.mono hlen
  | error e => rw [hp] at hgood; exact hgood

end

/-! ## Texts with well-formed escapes, and any texts -/

theorem length_ofBytes_le (b : Bytes) : (CStr.ofBytes b).length ≤ b.length :=
  (List.takeWhile_prefix _).length_le

/-- What the second loop writes fits into the block it is given. -/
theorem unescape_room {fuel room : Nat} {ptr out rest : Bytes} (h : unescape fuel room ptr = .ok (out, rest)) :
    out.length < room ∧ rest.length ≤ ptr.length := by
  induction fuel generalizing room ptr out with
  | zero => cases h
  | succ fuel ih =>
    rw [unescape] at h
    split at h
    · split at h
      · cases h
      · obtain ⟨rfl, rfl⟩ := Prod.mk.inj (Except.ok.inj h)
        exact ⟨by simp; omega, Nat.le_refl _⟩
    · rename_i hend
      rcases turn_spec (fun e => hend (Or.inr e)) with ht | ⟨w, p, ht, hlt⟩
      · rw [ht] at h; cases h
      · rw [ht] at h
        simp only [ok_bind] at h
        split at h
        · cases h
        · cases hu : unescape fuel (room - w.length) p with
          | error e => rw [hu] at h; cases h
          | ok q =>
            rw [hu] at h
            obtain ⟨rfl, rfl⟩ := Prod.mk.inj (Except.ok.inj h)
            obtain ⟨h1, h2⟩ := ih hu
            exact ⟨by simp; omega, by omega⟩

theorem parseString_short (t : Bytes) :
    Good (fun _ => True) (fun _ => True) t.length (fun s : CStr => s.length < t.length) (parseString t) := by
  unfold parseString
  split
  · trivial
  · rename_i hq
    obtain ⟨u, rfl⟩ := ne_nil_of_deref (Decidable.not_not.mp hq) (by decide)
    rw [List.tail_cons]
    cases hlen : stringLen u with
    | error e => trivial
    | ok len =>
      rw [ok_bind]
      by_cases hlong : 2 ^ 31 ≤ len + 1
      · rw [if_pos hlong]
        trivial
      rw [if_neg hlong]
      cases hrun : unescape (34 :: u).length (len + 1) u with
      | error e => trivial
      | ok p =>
        obtain ⟨hout, hrest⟩ := unescape_room hrun
        have hle := stringLen_le hlen
        have hs := length_ofBytes_le p.1
        refine ⟨trivial, ?_, ?_⟩
        · show (if deref p.2 = 34 then p.2.tail else p.2).length < u.length + 1
          split
          · rw [List.length_tail]; omega
          · omega
        · show (CStr.ofBytes p.1).length < u.length + 1
          omega

/-- A text the parser is safe on, as is what it leaves of it. -/
def Sane (t : Bytes) : Prop := WellEscaped t ∧ t.length < 2 ^ 31

theorem Sane.skips {t t' : Bytes} (hs : Skips t t') (h : Sane t) : Sane t' :=
  ⟨hs.escaped h.1, Nat.lt_of_le_of_lt hs.length h.2⟩

theorem parseString_safe {t : Bytes} (h : Sane t) :
    Good Sane (· = .null) t.length (fun s : CStr => s.length < t.length) (parseString t) := by
  have hshort := parseString_short t
  by_cases hq : deref t = 34
  · obtain ⟨u, rfl⟩ := ne_nil_of_deref hq (by decide)
    obtain ⟨out, rest, hc, hr, hle⟩ := unescape_fits (h.1.tail (by decide))
    have hint : u.length + 1 < 2 ^ 31 := h.2
    rw [parseString_copies hc hint] at hshort ⊢
    refine ⟨?_, hshort.2⟩
    have hsane : Sane rest := ⟨hr, by omega⟩
    show Sane (if deref rest = 34 then rest.tail else rest)
    split
    · rename_i hq
      exact hsane.skips (skips_tail hq (by decide))
    · exact hsane
  · unfold parseString
    rw [if_pos hq]
    rfl

/-- On any text with such escapes, of a length an `int` holds, the parser gives a tree or
    NULL: it reads nothing behind the text, writes nothing behind a block and comes to an
    end. -/
theorem cJSONParse_safe {F : Type} (M : Arith F) {s : CStr} (h : WellEscaped s.chars) (hint : s.length < 2 ^ 31) :
    cJSONParse M s = .error .null ∨ ∃ x, cJSONParse M s = .ok x := by
  have hgood := cJSONParse_good ⟨Sane.skips, parseString_safe, rfl⟩ M (show Sane s.chars from ⟨h, hint⟩)
  cases hp : cJSONParse M s with
  | ok x => exact Or.inr ⟨x, rfl⟩
  | error e =>
    rw [hp] at hgood
    exact Or.inl (congrArg Except.error hgood)

/-- `"a\n`, with the backslash and without a quote at its end. -/
theorem cJSONParse_safe_sample : cJSONParse wholeArith (.lit "\"a\\n") = .error .null ∨
    ∃ x, cJSONParse wholeArith (.lit "\"a\\n") = .ok x :=
  cJSONParse_safe _ (.plain (by decide) (.plain (by decide) (.short (by decide) .nil))) (by decide)

/-- `"\u"` and five bytes: written behind the block, or read behind the text. -/
theorem cJSONParse_overrun {F : Type} (M : Arith F) {s : CStr} {a b c d e : UInt8} {r : Bytes} (hd : Ordinary d)
    (he : Ordinary e) (hs : s.chars = 34 :: 92 :: 117 :: 34 :: a :: b :: c :: d :: e :: r) :
    cJSONParse M s = .error .fault := by
  unfold cJSONParse
  rw [hs, skip_token (by decide), parseValue_string, parseString_overrun hd he]
  rfl

theorem cJSONParse_overrun_sample : cJSONParse wholeArith (.lit "\"\\u\"abcde") = .error .fault :=
  cJSONParse_overrun _ (by unfold Ordinary; decide) (by unfold Ordinary; decide) rfl

theorem cJSONParse_short {F : Type} (M : Arith F) {s : CStr} {x : Item} (h : cJSONParse M s = .ok x) :
    Short s.length x := by
  have hgood := @cJSONParse_good _ (fun _ => True) (fun _ => True)
    ⟨fun _ _ => trivial, fun _ => parseString_short _, trivial⟩ M s trivial
  rw [h] at hgood
  exact hgood

end Ddm.CJson
