/-
  Ddm.Lib.JsonText — JSON texts: which bytes spell which document, byte by byte and with
  every layout the format allows. A number is its decimal, strings are the bytes they
  stand for (the escapes of a character give its UTF-8, Lean's own encoder).

  Proved: a string without quotes, backslashes and control bytes spells itself
  (`chars_plain`).
-/

import Ddm.Lib.Bytes

namespace Ddm.Lib.JsonText

/-- `digits` with the last `places` behind the point, times ten to the `exponent`. -/
structure Decimal where
  negative : Bool
  digits : List Nat
  places : Nat
  exponent : Int

inductive Doc where
  | null
  | bool (b : Bool)
  | number (d : Decimal)
  | string (s : Bytes)
  | array (items : List Doc)
  | object (members : List (Bytes × Doc))

/-! ## Tokens -/

def IsBlank (c : UInt8) : Prop := c = 32 ∨ c = 9 ∨ c = 10 ∨ c = 13

def Blank (w : Bytes) : Prop := ∀ c ∈ w, IsBlank c

def IsDigit (c : UInt8) : Prop := 48 ≤ c ∧ c ≤ 57

instance (c : UInt8) : Decidable (IsBlank c) := inferInstanceAs (Decidable (_ ∨ _ ∨ _ ∨ _))
instance (w : Bytes) : Decidable (Blank w) := List.decidableBAll _ w
instance (c : UInt8) : Decidable (IsDigit c) := inferInstanceAs (Decidable (_ ∧ _))

def Digits (ds : Bytes) : Prop := ds ≠ [] ∧ ∀ c ∈ ds, IsDigit c

def digitValue (c : UInt8) : Nat := c.toNat - 48

def naturalValue (ds : Bytes) : Nat := ds.foldl (fun n c => n * 10 + digitValue c) 0

/-- The whole part and its digits, a lone zero being none. -/
inductive IntPart : Bytes → Bytes → Prop where
  | zero : IntPart [48] []
  | digits {d : UInt8} {ds : Bytes} (hd : 49 ≤ d ∧ d ≤ 57) (hds : ∀ c ∈ ds, IsDigit c) : IntPart (d :: ds) (d :: ds)

inductive FracPart : Bytes → Bytes → Prop where
  | none : FracPart [] []
  | some {ds : Bytes} (h : Digits ds) : FracPart (46 :: ds) ds

inductive ExpPart : Bytes → Int → Prop where
  | none : ExpPart [] 0
  | plus {e : UInt8} {sign ds : Bytes} (he : e = 101 ∨ e = 69) (hs : sign = [] ∨ sign = [43]) (h : Digits ds) :
      ExpPart (e :: (sign ++ ds)) (naturalValue ds)
  | minus {e : UInt8} {ds : Bytes} (he : e = 101 ∨ e = 69) (h : Digits ds) :
      ExpPart (e :: 45 :: ds) (-naturalValue ds)

/-- `-`, the whole part, the fraction, the exponent. -/
inductive Number : Bytes → Decimal → Prop where
  | mk {sign int whole frac fraction exp : Bytes} {e : Int} {negative : Bool} (hs : sign = if negative then [45] else [])
      (hi : IntPart int whole) (hf : FracPart frac fraction) (he : ExpPart exp e) :
      Number (sign ++ (int ++ (frac ++ exp))) ⟨negative, (whole ++ fraction).map digitValue, fraction.length, e⟩

/-- The letter after a backslash and the byte it stands for. -/
def shortEscape (e : UInt8) : Option UInt8 :=
  if e = 34 then some 34 else if e = 92 then some 92 else if e = 47 then some 47
  else if e = 98 then some 8 else if e = 102 then some 12 else if e = 110 then some 10
  else if e = 114 then some 13 else if e = 116 then some 9 else none

def hexDigit (c : UInt8) : Option Nat :=
  if 48 ≤ c ∧ c ≤ 57 then some (c.toNat - 48)
  else if 65 ≤ c ∧ c ≤ 70 then some (10 + (c.toNat - 65))
  else if 97 ≤ c ∧ c ≤ 102 then some (10 + (c.toNat - 97))
  else none

/-- Four hexadecimal digits and the number they spell. -/
inductive Hex4 : Bytes → Nat → Prop where
  | mk {a b c d : UInt8} {w x y z : Nat} (ha : hexDigit a = some w) (hb : hexDigit b = some x)
      (hc : hexDigit c = some y) (hd : hexDigit d = some z) : Hex4 [a, b, c, d] (((w * 16 + x) * 16 + y) * 16 + z)

/-- What stands between the quotes of a string, and the string. -/
inductive Chars : Bytes → Bytes → Prop where
  | nil : Chars [] []
  | plain {c : UInt8} {t v : Bytes} (hc : 32 ≤ c) (hq : c ≠ 34) (hb : c ≠ 92) (h : Chars t v) :
      Chars (c :: t) (c :: v)
  | short {e c : UInt8} {t v : Bytes} (he : shortEscape e = some c) (h : Chars t v) :
      Chars (92 :: e :: t) (c :: v)
  | unit {ds t v : Bytes} {ch : Char} (hd : Hex4 ds ch.toNat) (h : Chars t v) :
      Chars (92 :: 117 :: (ds ++ t)) (String.utf8EncodeChar ch ++ v)
  /-- Past the basic plane: two escapes, the halves of the character's number less 0x10000. -/
  | pair {hi lo t v : Bytes} {ch : Char} (hbig : 0x10000 ≤ ch.toNat)
      (hh : Hex4 hi (0xD800 + (ch.toNat - 0x10000) / 0x400)) (hl : Hex4 lo (0xDC00 + (ch.toNat - 0x10000) % 0x400))
      (h : Chars t v) :
      Chars (92 :: 117 :: (hi ++ 92 :: 117 :: (lo ++ t))) (String.utf8EncodeChar ch ++ v)

theorem chars_plain {t : Bytes} (h : ∀ c ∈ t, 32 ≤ c ∧ c ≠ 34 ∧ c ≠ 92) : Chars t t := by
  induction t with
  | nil => exact .nil
  | cons c t ih =>
    obtain ⟨hc, hq, hb⟩ := h c (List.mem_cons_self ..)
    exact .plain hc hq hb (ih fun x hx => h x (List.mem_cons_of_mem _ hx))

/-! ## Texts -/

def nullText : Bytes := [110, 117, 108, 108]
def trueText : Bytes := [116, 114, 117, 101]
def falseText : Bytes := [102, 97, 108, 115, 101]

mutual

inductive Value : Bytes → Doc → Prop where
  | null : Value nullText .null
  | true : Value trueText (.bool true)
  | false : Value falseText (.bool false)
  | number {lit : Bytes} {d : Decimal} (h : Number lit d) : Value lit (.number d)
  | string {t s : Bytes} (h : Chars t s) : Value (34 :: (t ++ [34])) (.string s)
  | emptyArray {w : Bytes} (h : Blank w) : Value (91 :: (w ++ [93])) (.array [])
  | array {t : Bytes} {ds : List Doc} (h : Elements t ds) : Value (91 :: (t ++ [93])) (.array ds)
  | emptyObject {w : Bytes} (h : Blank w) : Value (123 :: (w ++ [125])) (.object [])
  | object {t : Bytes} {ms : List (Bytes × Doc)} (h : Members t ms) : Value (123 :: (t ++ [125])) (.object ms)

inductive Elements : Bytes → List Doc → Prop where
  | one {w t w' : Bytes} {d : Doc} (hw : Blank w) (h : Value t d) (hw' : Blank w') :
      Elements (w ++ (t ++ w')) [d]
  | more {w t w' u : Bytes} {d : Doc} {ds : List Doc} (hw : Blank w) (h : Value t d) (hw' : Blank w')
      (hu : Elements u ds) : Elements (w ++ (t ++ (w' ++ 44 :: u))) (d :: ds)

/-- A key, a colon, a value. -/
inductive Member : Bytes → Bytes × Doc → Prop where
  | mk {k s w w' t : Bytes} {d : Doc} (hk : Chars k s) (hw : Blank w) (hw' : Blank w') (h : Value t d) :
      Member (34 :: (k ++ 34 :: (w ++ 58 :: (w' ++ t)))) (s, d)

inductive Members : Bytes → List (Bytes × Doc) → Prop where
  | one {w t w' : Bytes} {m : Bytes × Doc} (hw : Blank w) (h : Member t m) (hw' : Blank w') :
      Members (w ++ (t ++ w')) [m]
  | more {w t w' u : Bytes} {m : Bytes × Doc} {ms : List (Bytes × Doc)} (hw : Blank w) (h : Member t m)
      (hw' : Blank w') (hu : Members u ms) : Members (w ++ (t ++ (w' ++ 44 :: u))) (m :: ms)

end

/-- A whole text. -/
inductive Text : Bytes → Doc → Prop where
  | mk {w t w' : Bytes} {d : Doc} (hw : Blank w) (h : Value t d) (hw' : Blank w') : Text (w ++ (t ++ w')) d

end Ddm.Lib.JsonText
