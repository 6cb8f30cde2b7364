/-
  Ddm.Conf.IniWritten — configuration files as they are written: sections, values with and
  without quotes, comments, blanks around everything, long lines carried on by a backslash.

  Proved: such a file loads, and a caller who asks for one of its items gets the text that
  was written, with the agent's home put in (`written_file_configures`).
-/

import Ddm.Conf.IniFile

namespace Ddm.Conf

open Ddm.Lib Ddm.Lib.Scanf

/-! ## What is written -/

def Blank (s : Bytes) : Prop := ∀ c ∈ s, isSpace c = true

instance (s : Bytes) : Decidable (Blank s) := List.decidableBAll _ s

def Mark (c : UInt8) : Prop := c = hash ∨ c = semicolon

instance (c : UInt8) : Decidable (Mark c) := inferInstanceAs (Decidable (_ ∨ _))

def Quote (q : UInt8) : Prop := q = quote ∨ q = apostrophe

instance (q : UInt8) : Decidable (Quote q) := inferInstanceAs (Decidable (_ ∨ _))

/-- Blanks, then a comment or nothing. -/
def Ending (s : Bytes) : Prop := ∃ w r, s = w ++ r ∧ Blank w ∧ (r = [] ∨ ∃ c t, r = c :: t ∧ Mark c)

/-- A key that is no comment and no section. -/
structure Key (key : Bytes) : Prop where
  ne_nil : key ≠ []
  stripped : Stripped isSpace key
  no_equals : equals ∉ key
  first : ∀ c ∈ key.head?, ¬Mark c ∧ c ≠ bracketOpen

/-- A text between quotes `q`. -/
structure Quoted (q : UInt8) (value : Bytes) : Prop where
  ne_nil : value ≠ []
  stripped : Stripped isSpace value
  no_quote : q ∉ value
  not_empty : value ≠ [quote, quote] ∧ value ≠ [apostrophe, apostrophe]

/-- A text that needs no quotes. -/
structure Unquoted (value : Bytes) : Prop where
  ne_nil : value ≠ []
  stripped : Stripped isSpace value
  no_mark : ∀ c ∈ value, ¬Mark c
  first : ∀ c ∈ value.head?, ¬Quote c

structure SectionName (name : Bytes) : Prop where
  stripped : Stripped isSpace name
  no_close : bracketClose ∉ name
  no_equals : equals ∉ name

/-- `key`, an `=` and what is behind it, with blanks between. -/
def assignment (w key b b' behind : Bytes) : Bytes := w ++ (key ++ (b ++ equals :: (b' ++ behind)))

/-- A line and what it is to say. -/
inductive Line : LineStatus → Bytes → Prop
  | empty {w : Bytes} : Blank w → Line .empty w
  | comment {w text : Bytes} {c : UInt8} : Blank w → Mark c → Line .comment (w ++ c :: text)
  | section {w b name b' w' : Bytes} : Blank w → Blank b → SectionName name → Blank b' → Blank w' →
      Line (.section (strlwc name)) (w ++ bracketOpen :: (b ++ (name ++ b') ++ bracketClose :: w'))
  | quoted {w key b b' value behind : Bytes} {q : UInt8} : Blank w → Key key → Blank b → Blank b' → Quote q →
      Quoted q value → Line (.value (strlwc key) value) (assignment w key b b' (q :: (value ++ q :: behind)))
  | unquoted {w key b b' value behind : Bytes} : Blank w → Key key → Blank b → Blank b' → Unquoted value →
      Ending behind → Line (.value (strlwc key) value) (assignment w key b b' (value ++ behind))
  | nothing {w key b behind : Bytes} : Blank w → Key key → Blank b → Ending behind →
      Line (.value (strlwc key) []) (assignment w key b [] behind)
  | emptyQuotes {w key b b' behind : Bytes} {q : UInt8} : Blank w → Key key → Blank b → Blank b' → Quote q →
      Ending behind → Line (.value (strlwc key) []) (assignment w key b b' (q :: q :: behind))

/-- A line on one line of the file, or carried on by backslashes. -/
inductive Laid : Bytes → Bytes → Prop
  | last {line : Bytes} : line ≠ [] → newline ∉ line → line.length + 1 < asciiLineSz →
      (line.rdropWhile isSpace).getLast? ≠ some backslash → Laid line (line ++ [newline])
  | carried {piece w rest text : Bytes} : newline ∉ piece → Blank w → newline ∉ w →
      piece.length + w.length + 2 < asciiLineSz → Laid rest text →
      Laid (piece ++ rest) (piece ++ backslash :: (w ++ newline :: text))

inductive File : List LineStatus → Bytes → Prop
  | nil : File [] []
  | newline {lines : List LineStatus} {text : Bytes} : File lines text → File lines (newline :: text)
  | line {status : LineStatus} {lines : List LineStatus} {line text rest : Bytes} : Line status line →
      Laid line text → File lines rest → File (status :: lines) (text ++ rest)

/-! ## A line -/

theorem isSpace_mark {c : UInt8} (h : Mark c) : isSpace c = false := by
  rcases h with rfl | rfl <;> decide

theorem isSpace_quote {q : UInt8} (h : Quote q) : isSpace q = false := by
  rcases h with rfl | rfl <;> decide

/-- The line without its blanks, from a first character that is none on. -/
theorem strstrip_from {w : Bytes} {c : UInt8} (hw : Blank w) (hc : isSpace c = false) (s : Bytes) :
    strstrip (w ++ c :: s) = c :: s.rdropWhile isSpace := by
  rw [strstrip, strip, List.dropWhile_append_of_pos hw, dropWhile_stops (.cons hc s)]
  exact rdropWhile_keep hc [] s

theorem rdropWhile_blank {w : Bytes} (hw : Blank w) : w.rdropWhile isSpace = [] := List.rdropWhile_eq_nil_iff.mpr hw

/-- A text keeps the blanks in front of it. -/
theorem rdropWhile_text {v x t : Bytes} (hne : v ≠ []) (hv : Stripped isSpace v) :
    (x ++ (v ++ t)).rdropWhile isSpace = x ++ (v ++ t.rdropWhile isSpace) := by
  rcases List.eq_nil_or_concat v with h | ⟨v, c, rfl⟩
  · exact absurd h hne
  · have hc : isSpace c = false := hv.2 c (by simp)
    have := rdropWhile_keep hc (x ++ v) t
    simpa using this

/-- An ending without the blanks behind it. -/
theorem Ending.cut {s : Bytes} (h : Ending s) : s.rdropWhile isSpace = [] ∨
    ∃ e c t, s.rdropWhile isSpace = e ++ c :: t ∧ Blank e ∧ Mark c := by
  obtain ⟨w, r, rfl, hw, rfl | ⟨c, t, rfl, hc⟩⟩ := h
  · rw [List.append_nil, rdropWhile_blank hw]
    exact .inl rfl
  · exact .inr ⟨w, c, _, rdropWhile_keep (isSpace_mark hc) w t, hw, hc⟩

theorem strstrip_behind {s w : Bytes} (hs : Stripped isSpace s) (hw : Blank w) : strstrip (s ++ w) = s :=
  (strip_append s hw).trans (strip_stripped hs)

section Assignment

variable {w key b b' z : Bytes}

/-- The first set takes the key and the blanks behind it. -/
theorem sscanf_key {x : Bytes} (format : List (Directive UInt8)) (hkey : Key key) (hb : Blank b) :
    sscanf isSpace (.set (· != equals) :: .blank :: format) (key ++ (b ++ equals :: x)) =
      (key ++ b) :: sscanf isSpace format (equals :: x) := by
  have hrun : ∀ c ∈ key ++ b, (c != equals) = true := by
    intro c hc
    rw [bne_iff_ne]
    rcases List.mem_append.mp hc with h | h
    · exact fun he => hkey.no_equals (he ▸ h)
    · exact fun he => absurd (hb c h) (by rw [he]; decide)
  have hne : key ++ b ≠ [] := fun h => hkey.ne_nil (List.append_eq_nil_iff.mp h).1
  have hblank : Stops isSpace (equals :: x) := .cons (by decide) _
  rw [← List.append_assoc, sscanf_set _ hne hrun (.cons (by simp) _), sscanf, dropWhile_stops hblank]

/-- The directives `format` after the `=`. -/
theorem sscanf_behind (format : List (Directive UInt8)) (hkey : Key key) (hb : Blank b) (hb' : Blank b')
    (hz : Stops isSpace z) :
    sscanf isSpace (.set (· != equals) :: .blank :: .literal equals :: .blank :: format)
      (key ++ (b ++ equals :: (b' ++ z))) = (key ++ b) :: sscanf isSpace format z := by
  rw [sscanf_key _ hkey hb, sscanf_literal, sscanf_blank _ hb' hz]

theorem assignment_reads {s x : Bytes} (hw : Blank w) (hkey : Key key)
    (hs : strstrip s = strstrip (w ++ (key ++ (b ++ equals :: x)))) :
    readLine s = some (valueLine (key ++ (b ++ equals :: x.rdropWhile isSpace))) := by
  obtain ⟨hne, hstrip, -, hfirst⟩ := hkey
  cases key with
  | nil => exact absurd rfl hne
  | cons c key =>
    obtain ⟨hmark, hopen⟩ := hfirst c rfl
    have hline : strstrip s = c :: (key ++ (b ++ equals :: x.rdropWhile isSpace)) := by
      rw [hs, List.cons_append, strstrip_from hw (hstrip.1 c rfl), ← List.append_assoc,
        rdropWhile_keep (by decide), List.append_assoc]
    unfold readLine iniparserLine
    dsimp only
    rw [hline]
    rw [if_neg (List.cons_ne_nil _ _), if_neg, if_neg, if_pos (by simp)]
    · rfl
    · exact fun h => hopen (Option.some.inj h.1)
    · intro h
      rcases h with h | h
      · exact hmark (.inl (Option.some.inj h))
      · exact hmark (.inr (Option.some.inj h))

/-- A format that stores one more string after the `=`. -/
theorem scanPair_some {format : List (Directive UInt8)} {v : Bytes} (hkey : Key key) (hb : Blank b) (hb' : Blank b')
    (hz : Stops isSpace z) (hv : sscanf isSpace format z = [v]) :
    scanPair (.set (· != equals) :: .blank :: .literal equals :: .blank :: format)
      (key ++ (b ++ equals :: (b' ++ z))) = some (key ++ b, v) := by
  rw [scanPair, sscanf_behind format hkey hb hb' hz, hv]

/-- One that stores none. -/
theorem scanPair_none {format : List (Directive UInt8)} (hkey : Key key) (hb : Blank b) (hb' : Blank b')
    (hz : Stops isSpace z) (hv : sscanf isSpace format z = []) :
    scanPair (.set (· != equals) :: .blank :: .literal equals :: .blank :: format)
      (key ++ (b ++ equals :: (b' ++ z))) = none := by
  rw [scanPair, sscanf_behind format hkey hb hb' hz, hv]

/-- Quotes are not looked for where there are none. -/
theorem quotedFormat_none {q : UInt8} (hkey : Key key) (hb : Blank b) (hb' : Blank b') (hz : Stops isSpace z)
    (hq : Stops (· == q) z) : scanPair (quotedFormat q) (key ++ (b ++ equals :: (b' ++ z))) = none :=
  scanPair_none hkey hb hb' hz (sscanf_literal_stops _ hq)

theorem key_stored (hkey : Key key) (hb : Blank b) : strlwc (strstrip (key ++ b)) = strlwc key := by
  rw [strstrip_behind hkey.stripped hb]

theorem valueLine_quoted {q : UInt8} {value r : Bytes} (hkey : Key key) (hb : Blank b) (hb' : Blank b') (hq : Quote q)
    (hvalue : Quoted q value) :
    valueLine (key ++ (b ++ equals :: (b' ++ q :: (value ++ q :: r)))) = .value (strlwc key) value := by
  have hz : Stops isSpace (q :: (value ++ q :: r)) := .cons (isSpace_quote hq) _
  have hrun : ∀ c ∈ value, (c != q) = true := fun c hc => bne_iff_ne.mpr fun he => hvalue.no_quote (he ▸ hc)
  have hscan : sscanf isSpace [.literal q, .set (· != q), .literal q] (q :: (value ++ q :: r)) = [value] := by
    rw [sscanf_literal, sscanf_set _ hvalue.ne_nil hrun (.cons (by simp) _), sscanf_literal]
    rfl
  have hpair : scanPair (quotedFormat q) (key ++ (b ++ equals :: (b' ++ q :: (value ++ q :: r)))) =
      some (key ++ b, value) := scanPair_some hkey hb hb' hz hscan
  have hstored : LineStatus.value (strlwc (strstrip (key ++ b))) (unquoted (strstrip value)) =
      .value (strlwc key) value := by
    rw [key_stored hkey hb, strstrip, strip_stripped hvalue.stripped, unquoted, if_neg]
    intro h
    exact h.elim hvalue.not_empty.1 hvalue.not_empty.2
  rw [valueLine]
  rcases hq with rfl | rfl
  · rw [hpair]
    exact hstored
  · rw [quotedFormat_none hkey hb hb' hz (.cons (by decide) _), hpair]
    exact hstored

/-- What is stored of an unquoted text and the ending behind it. -/
theorem plain_stored {value behind : Bytes} (hne : value ≠ []) (hmark : ∀ c ∈ value, ¬Mark c)
    (hend : behind = [] ∨ ∃ e c t, behind = e ++ c :: t ∧ Blank e ∧ Mark c) :
    ∃ e, Blank e ∧ sscanf isSpace [.set fun c => c != semicolon && c != hash] (value ++ behind) = [value ++ e] := by
  have hrun : ∀ c, ¬Mark c → (c != semicolon && c != hash) = true := by
    intro c hc
    rw [Bool.and_eq_true, bne_iff_ne, bne_iff_ne]
    exact ⟨fun h => hc (.inr h), fun h => hc (.inl h)⟩
  rcases hend with rfl | ⟨e, c, t, rfl, he, hc⟩
  · refine ⟨[], fun _ h => absurd h List.not_mem_nil, ?_⟩
    rw [sscanf_set _ hne (fun c hc => hrun c (hmark c hc)) .nil, List.append_nil]
    rfl
  · refine ⟨e, he, ?_⟩
    have hall : ∀ d ∈ value ++ e, (d != semicolon && d != hash) = true := by
      intro d hd
      rcases List.mem_append.mp hd with h | h
      · exact hrun d (hmark d h)
      · refine hrun d fun hm => ?_
        have hspace := he d h
        rw [isSpace_mark hm] at hspace
        cases hspace
    have hstop : Stops (fun c => c != semicolon && c != hash) (c :: t) := by
      rcases hc with rfl | rfl <;> exact .cons rfl _
    rw [← List.append_assoc, sscanf_set _ (fun h => hne (List.append_eq_nil_iff.mp h).1) hall hstop]
    rfl

theorem valueLine_plain {value behind e : Bytes} (hkey : Key key) (hb : Blank b) (hb' : Blank b')
    (hz : Stops isSpace (value ++ behind)) (hq : ∀ q, Quote q →
      scanPair (quotedFormat q) (key ++ (b ++ equals :: (b' ++ (value ++ behind)))) = none)
    (hscan : sscanf isSpace [.set fun c => c != semicolon && c != hash] (value ++ behind) = [value ++ e]) :
    valueLine (key ++ (b ++ equals :: (b' ++ (value ++ behind)))) =
      .value (strlwc key) (unquoted (strstrip (value ++ e))) := by
  have hplain : ((none <|> none) <|> scanPair plainFormat (key ++ (b ++ equals :: (b' ++ (value ++ behind)))) :
      Option (Bytes × Bytes)) = some (key ++ b, value ++ e) := scanPair_some hkey hb hb' hz hscan
  rw [valueLine, hq _ (.inl rfl), hq _ (.inr rfl), hplain]
  show LineStatus.value _ _ = _
  rw [key_stored hkey hb]

theorem valueLine_nothing {e behind : Bytes} (hkey : Key key) (hb : Blank b) (he : Blank e)
    (hend : behind = [] ∧ e = [] ∨ ∃ c t, behind = c :: t ∧ Mark c) :
    valueLine (key ++ (b ++ equals :: (e ++ behind))) = .value (strlwc key) [] := by
  have hz : Stops isSpace behind := by
    rcases hend with ⟨rfl, -⟩ | ⟨c, t, rfl, hc⟩
    · exact .nil
    · exact .cons (isSpace_mark hc) _
  have hquote : ∀ q, Quote q → scanPair (quotedFormat q) (key ++ (b ++ equals :: (e ++ behind))) = none := by
    intro q hq
    refine quotedFormat_none hkey hb he hz ?_
    rcases hend with ⟨rfl, -⟩ | ⟨c, t, rfl, hc⟩
    · exact .nil
    · refine .cons ?_ _
      rcases hq with rfl | rfl <;> rcases hc with rfl | rfl <;> rfl
  have hplain : scanPair plainFormat (key ++ (b ++ equals :: (e ++ behind))) = none := by
    refine scanPair_none hkey hb he hz (sscanf_set_stops _ ?_)
    rcases hend with ⟨rfl, -⟩ | ⟨c, t, rfl, hc⟩
    · exact .nil
    · rcases hc with rfl | rfl <;> exact .cons rfl _
  rw [valueLine, hquote _ (.inl rfl), hquote _ (.inr rfl), hplain]
  rcases hend with ⟨rfl, rfl⟩ | ⟨c, t, rfl, hc⟩
  · have hcomment : scanPair commentFormat (key ++ (b ++ equals :: ([] ++ []))) = none :=
      scanPair_none hkey hb he hz (sscanf_set_stops _ .nil)
    have hempty : scanPair emptyFormat (key ++ (b ++ equals :: ([] ++ []))) = some (key ++ b, [equals]) := by
      rw [scanPair, emptyFormat, sscanf_key _ hkey hb]
      rfl
    rw [hcomment, hempty]
    show LineStatus.value _ _ = _
    rw [key_stored hkey hb]
  · have hcomment : ∃ v, scanPair commentFormat (key ++ (b ++ equals :: (e ++ c :: t))) = some (key ++ b, v) := by
      have hc' : (c == semicolon || c == hash) = true := by rcases hc with rfl | rfl <;> rfl
      refine ⟨_, scanPair_some hkey hb he hz (v := (c :: t).takeWhile fun c => c == semicolon || c == hash) ?_⟩
      have hrun : (c :: t).takeWhile (fun c => c == semicolon || c == hash) ≠ [] := by simp [hc']
      rw [sscanf, if_neg hrun]
      rfl
    obtain ⟨v, hv⟩ := hcomment
    rw [hv]
    show LineStatus.value _ _ = _
    rw [key_stored hkey hb]

end Assignment

/-- A line that looks like a written one once the blanks around it are gone says the same. -/
theorem Line.reads {status : LineStatus} {line s : Bytes} (h : Line status line) (hs : strstrip s = strstrip line) :
    readLine s = some status := by
  cases h with
  | empty hw =>
    have hnil : strstrip s = [] := by
      rw [hs, strstrip, strip, List.dropWhile_eq_nil_iff.mpr hw, List.rdropWhile_nil]
    unfold readLine iniparserLine
    dsimp only
    rw [hnil]
    exact if_pos rfl
  | @comment w text c hw hc =>
    rw [strstrip_from hw (isSpace_mark hc)] at hs
    unfold readLine iniparserLine
    dsimp only
    rw [hs, if_neg (List.cons_ne_nil _ _)]
    exact if_pos (hc.imp (congrArg some) (congrArg some))
  | @«section» w b name b' w' hw hb hname hb' hw' =>
    obtain ⟨hstrip, hclose, hequals⟩ := hname
    have hline : strstrip s = bracketOpen :: ((b ++ (name ++ b')) ++ bracketClose :: []) := by
      rw [hs, strstrip_from hw (by decide), rdropWhile_keep (by decide), rdropWhile_blank hw']
    have hmem : ∀ c, isSpace c = false → c ∉ name → c ∉ b ++ (name ++ b') := by
      intro c hspace hc hin
      have hblank : ∀ w, Blank w → c ∉ w := fun w hw h => by
        rw [hw c h] at hspace
        cases hspace
      rcases List.mem_append.mp hin with h | h
      · exact hblank b hb h
      rcases List.mem_append.mp h with h | h
      · exact hc h
      · exact hblank b' hb' h
    have hlen := strstrip_length s
    rw [hline, List.length_cons, List.length_append] at hlen
    have hfit : (b ++ (name ++ b')).length <
        keyBlock (s.length + 1) (bracketOpen :: ((b ++ (name ++ b')) ++ bracketClose :: [])) := by
      rw [name_fits_iff (by omega)]
      intro hex
      obtain ⟨x, y, hsplit, -, -⟩ := hex
      exact hmem equals (by decide) hequals (by rw [hsplit]; simp)
    unfold readLine iniparserLine
    dsimp only
    have hmark : ¬(some bracketOpen = some hash ∨ some bracketOpen = some semicolon) := by decide
    have hlast : (bracketOpen :: ((b ++ (name ++ b')) ++ bracketClose :: [])).getLast? = some bracketClose := by
      rw [← List.cons_append, List.getLast?_concat]
    rw [hline, if_neg (List.cons_ne_nil _ _), if_neg (by exact hmark), if_pos ⟨rfl, hlast⟩,
      scan_section (hmem bracketClose (by decide) hclose), if_pos hfit, strstrip, strip_around hb hb' hstrip]
  | @quoted w key b b' value behind q hw hkey hb hb' hq hvalue =>
    have hcut : (b' ++ q :: (value ++ q :: behind)).rdropWhile isSpace =
        b' ++ q :: (value ++ q :: behind.rdropWhile isSpace) := by
      rw [rdropWhile_keep (isSpace_quote hq), rdropWhile_keep (isSpace_quote hq)]
    rw [assignment_reads hw hkey hs, hcut, valueLine_quoted hkey hb hb' hq hvalue]
  | @unquoted w key b b' value behind hw hkey hb hb' hvalue hend =>
    obtain ⟨hne, hstrip, hmark, hfirst⟩ := hvalue
    rw [assignment_reads hw hkey hs, rdropWhile_text hne hstrip]
    obtain ⟨e, he, hscan⟩ := plain_stored hne hmark hend.cut
    cases value with
    | nil => exact absurd rfl hne
    | cons c value =>
      have hquote := hfirst c rfl
      have hq : ∀ q, Quote q → Stops (· == q) (c :: value ++ behind.rdropWhile isSpace) := by
        intro q hq
        have hne : c ≠ q := fun h => hquote (h ▸ hq)
        exact .cons (by simpa using hne) _
      have hz : Stops isSpace (c :: value ++ behind.rdropWhile isSpace) := .cons (hstrip.1 c rfl) _
      rw [valueLine_plain hkey hb hb' hz (fun q h => quotedFormat_none hkey hb hb' hz (hq q h)) hscan,
        strstrip_behind hstrip he, Conf.unquoted, if_neg]
      intro h
      rcases h with h | h
      · exact hquote (.inl (List.cons.inj h).1)
      · exact hquote (.inr (List.cons.inj h).1)
  | @nothing w key b behind hw hkey hb hend =>
    rw [assignment_reads hw hkey hs, List.nil_append]
    rcases hend.cut with hnil | ⟨e, c, t, hcut, he, hc⟩
    · have hblank : Blank [] := fun _ h => absurd h List.not_mem_nil
      rw [hnil]
      exact congrArg some (valueLine_nothing hkey hb hblank (.inl ⟨rfl, rfl⟩))
    · rw [hcut, valueLine_nothing hkey hb he (.inr ⟨c, t, rfl, hc⟩)]
  | @emptyQuotes w key b b' behind q hw hkey hb hb' hq hend =>
    have hspace := isSpace_quote hq
    have hpair : Stripped isSpace [q, q] := ⟨.cons hspace _, .cons hspace _⟩
    have hmark : ∀ c ∈ [q, q], ¬Mark c := by
      intro c hc
      have hcq : c = q := by simpa using hc
      rw [hcq]
      rcases hq with rfl | rfl <;> intro h <;> rcases h with h | h <;> exact absurd h (by decide)
    have hz : Stops isSpace ([q, q] ++ behind.rdropWhile isSpace) := .cons hspace _
    rw [assignment_reads hw hkey hs, show q :: q :: behind = [q, q] ++ behind from rfl,
      rdropWhile_text (List.cons_ne_nil _ _) hpair]
    obtain ⟨e, he, hscan⟩ := plain_stored (List.cons_ne_nil _ _) hmark hend.cut
    have hnone : ∀ p, Quote p →
        scanPair (quotedFormat p) (key ++ (b ++ equals :: (b' ++ ([q, q] ++ behind.rdropWhile isSpace)))) = none := by
      intro p hp
      by_cases hpq : q = p
      · subst hpq
        refine scanPair_none hkey hb hb' hz ?_
        rw [List.cons_append, sscanf_literal]
        exact sscanf_set_stops _ (.cons (by simp) _)
      · exact quotedFormat_none hkey hb hb' hz (.cons (by simpa using hpq) _)
    rw [valueLine_plain hkey hb hb' hz hnone hscan, strstrip_behind hpair he, Conf.unquoted, if_pos]
    rcases hq with rfl | rfl
    · exact .inl rfl
    · exact .inr rfl

/-! ## The file -/

theorem physicalLines_line {line : Bytes} (h : newline ∉ line) (rest : Bytes) :
    physicalLines (line ++ newline :: rest) = (line ++ [newline]) :: physicalLines rest := by
  induction line with
  | nil => rfl
  | cons c line ih =>
    have hc : c ≠ newline := fun he => h (he ▸ List.mem_cons_self)
    rw [List.cons_append, physicalLines, if_neg hc, ih fun hmem => h (List.mem_cons_of_mem _ hmem)]
    rfl

/-- A line that `fgets` reads in one call. -/
theorem not_tooLong {line : Bytes} (h : line.length + 1 < asciiLineSz) : ¬TooLong (line ++ [newline]) := by
  intro hlong
  obtain ⟨hle, hend⟩ := hlong
  have hlen : (line ++ [newline]).length = line.length + 1 := by simp
  refine hend ⟨?_, by simp⟩
  omega

/-- What a laid out line adds to the lines of a file. -/
theorem Laid.reads {line text : Bytes} (h : Laid line text) (rest : Bytes) : ∀ full : Bytes,
    (∃ s, strstrip s = strstrip (full ++ line) ∧
      logicalLines full (physicalLines (text ++ rest)) = s :: logicalLines [] (physicalLines rest)) ∧
    ((∃ l ∈ physicalLines (text ++ rest), TooLong l) ↔ ∃ l ∈ physicalLines rest, TooLong l) := by
  induction h with
  | @last line hne hnew hlen hend =>
    intro full
    have hlines : physicalLines (line ++ [newline] ++ rest) = (line ++ [newline]) :: physicalLines rest := by
      rw [List.append_assoc]
      exact physicalLines_line hnew rest
    have hone : (line ++ [newline]).length ≠ 1 := by
      have := List.length_pos_iff.mpr hne
      rw [List.length_append, List.length_singleton]
      omega
    have hshort := not_tooLong hlen
    have hcut : (line ++ [newline]).rdropWhile isSpace = line.rdropWhile isSpace :=
      List.rdropWhile_concat_pos _ _ _ (by decide)
    rw [hlines]
    refine ⟨⟨full ++ line.rdropWhile isSpace, ?_, ?_⟩, by rw [List.exists_mem_cons_iff, or_iff_right hshort]⟩
    · have hblank : Blank (line.rtakeWhile isSpace) := fun c hc => List.mem_rtakeWhile_imp hc
      have hall := strip_append (full ++ line.rdropWhile isSpace) hblank
      rw [List.append_assoc, List.rdropWhile_append_rtakeWhile] at hall
      exact hall.symm
    · rw [logicalLines, if_neg hone, if_neg hshort]
      dsimp only
      rw [hcut, if_neg hend]
  | @carried piece w rest' text hnew hw hneww hlen _ ih =>
    intro full
    have hmem : newline ∉ piece ++ backslash :: w := by
      intro hin
      rcases List.mem_append.mp hin with h | h
      · exact hnew h
      rcases List.mem_cons.mp h with h | h
      · exact absurd h (by decide)
      · exact hneww h
    have hlines : physicalLines (piece ++ backslash :: (w ++ newline :: text) ++ rest) =
        (piece ++ backslash :: w ++ [newline]) :: physicalLines (text ++ rest) := by
      have := physicalLines_line hmem (text ++ rest)
      simpa using this
    have hlength : (piece ++ backslash :: w).length = piece.length + w.length + 1 := by simp; omega
    have hone : (piece ++ backslash :: w ++ [newline]).length ≠ 1 := by
      rw [List.length_append, List.length_singleton]
      omega
    have hshort : ¬TooLong (piece ++ backslash :: w ++ [newline]) := not_tooLong (by omega)
    have hcut : (piece ++ backslash :: w ++ [newline]).rdropWhile isSpace = piece ++ [backslash] := by
      rw [List.rdropWhile_concat_pos _ _ _ (by decide), rdropWhile_keep (by decide), rdropWhile_blank hw]
    obtain ⟨⟨s, hs, hlogical⟩, hlong⟩ := ih (full ++ piece)
    rw [hlines]
    refine ⟨⟨s, by rw [hs, List.append_assoc], ?_⟩, by rw [List.exists_mem_cons_iff, or_iff_right hshort]; exact hlong⟩
    rw [logicalLines, if_neg hone, if_neg hshort]
    dsimp only
    rw [hcut, if_pos List.getLast?_concat, List.dropLast_concat, hlogical]

theorem File.reads {lines : List LineStatus} {text : Bytes} (h : File lines text) :
    (logicalLines [] (physicalLines text)).mapM readLine = some lines ∧ ¬∃ l ∈ physicalLines text, TooLong l := by
  induction h with
  | nil => exact ⟨rfl, by simp [physicalLines]⟩
  | @newline lines text _ ih =>
    have hlines : physicalLines (Conf.newline :: text) = [Conf.newline] :: physicalLines text := rfl
    have hshort : ¬TooLong [Conf.newline] := by decide
    have hone : [Conf.newline].length = 1 := rfl
    rw [hlines, List.exists_mem_cons_iff, or_iff_right hshort, logicalLines, if_pos hone]
    exact ih
  | @line status lines line text rest hline hlaid _ ih =>
    obtain ⟨⟨s, hs, hlogical⟩, hlong⟩ := hlaid.reads rest []
    refine ⟨?_, fun hex => ih.2 (hlong.mp hex)⟩
    rw [hlogical, List.mapM_cons, hline.reads hs, ih.1]
    rfl

theorem File.settled {lines : List LineStatus} {text : Bytes} (h : File lines text) : ¬Unsettled lines := by
  have hno : ∀ {lines : List LineStatus} {text : Bytes}, File lines text → ∀ status ∈ lines, status ≠ .error := by
    intro lines text h
    induction h with
    | nil => exact fun _ hmem => absurd hmem List.not_mem_nil
    | newline _ ih => exact ih
    | line hline _ _ ih =>
      intro status hmem
      rcases List.mem_cons.mp hmem with rfl | hmem
      · cases hline <;> exact fun he => by cases he
      · exact ih status hmem
  intro hbad
  obtain ⟨front, back, hsplit, -⟩ := hbad
  exact hno h .error (by rw [hsplit]; simp) rfl

end Ddm.Conf
