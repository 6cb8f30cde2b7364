/-
  Ddm.CJson.Parse — the reading half of `cJSON.c`: `cJSON_Parse` and all it calls, on a
  text as the bytes before its terminator. A pointer into the text is what is left of it.

  A read behind the terminator, a write behind an allocated block and a length no `int`
  holds are `fault`, a NULL result is `null`. `double` is any type with the operations
  `parse_number` does on it (`Arith`). The recursion of `parse_value` has no bound but the
  stack: here it is `fuel`.
-/

import Ddm.Registry.Json

namespace Ddm.CJson

open Ddm.Lib Ddm.Registry.Json

/-- Why there is no result. -/
inductive Stop where
  | null
  | fault
  | fuel
  deriving DecidableEq

abbrev Reads (α : Type) := Except Stop α

/-- `*ptr` -/
def deref : Bytes → UInt8
  | [] => 0
  | c :: _ => c

/-- `ptr += n` before the next read through it. -/
def advance (n : Nat) (ptr : Bytes) : Reads Bytes :=
  if n ≤ ptr.length then .ok (ptr.drop n) else .error .fault

/-- `skip` -/
def skip (t : Bytes) : Bytes := t.dropWhile (· ≤ 32)

/-! ## Numbers -/

def isDigit (c : UInt8) : Bool := 48 ≤ c && c ≤ 57

/-- `while (*num>='0' && *num<='9') num++` -/
def skipDigits (t : Bytes) : Bytes := t.dropWhile isDigit

def skipSign (t : Bytes) : Bytes := if deref t = 45 then t.tail else t

def skipZero (t : Bytes) : Bytes := if deref t = 48 then t.tail else t

/-- Digits may follow the zero all the same. -/
def skipInt (t : Bytes) : Bytes := if 49 ≤ deref t ∧ deref t ≤ 57 then skipDigits t else t

def skipFrac (t : Bytes) : Bytes :=
  if deref t = 46 ∧ isDigit (deref t.tail) then skipDigits t.tail else t

def skipExpSign (t : Bytes) : Bytes := if deref t = 43 ∨ deref t = 45 then t.tail else t

def skipExp (t : Bytes) : Bytes :=
  if deref t = 101 ∨ deref t = 69 then skipDigits (skipExpSign t.tail) else t

/-- Where `parse_number` leaves `num`. -/
def numberEnd (num : Bytes) : Bytes := skipExp (skipFrac (skipInt (skipZero (skipSign num))))

/-- What `parse_number` does with a `double` and an `int`. Whole numbers up to 2^53 are
    doubles, and sums and products of them that stay so are exact. -/
structure Arith (F : Type) where
  /-- A whole number as a `double`. -/
  real : Int → F
  add : F → F → F
  mul : F → F → F
  pow : F → F → F
  /-- `(int)n` -/
  toInt : F → Int
  /-- What an `int` has when it is given this value. -/
  int : Int → Int
  add_real : ∀ a b, a.natAbs ≤ 2 ^ 53 → b.natAbs ≤ 2 ^ 53 → (a + b).natAbs ≤ 2 ^ 53 →
    add (real a) (real b) = real (a + b)
  int_fits : ∀ a, -2 ^ 31 ≤ a → a < 2 ^ 31 → int a = a

/-- Numbers that stay whole. -/
def wholeArith : Arith Int where
  real := id
  add := (· + ·)
  mul := (· * ·)
  pow a b := a ^ b.toNat
  toInt := id
  int := id
  add_real _ _ _ _ _ := rfl
  int_fits _ _ _ := rfl

section
variable {F : Type} (M : Arith F)

/-- `*num++ -'0'` -/
def digit (c : UInt8) : Int := c.toNat - 48

/-- `n=(n*10.0)+(*num++ -'0')` as long as there are digits. -/
def addDigits (n : F) : Bytes → F
  | [] => n
  | c :: t => if isDigit c then addDigits (M.add (M.mul n (M.real 10)) (M.real (digit c))) t else n

/-- `scale--` with each of them. -/
def lowerScale (scale : F) : Bytes → F
  | [] => scale
  | c :: t => if isDigit c then lowerScale (M.add scale (M.real (-1))) t else scale

/-- `subscale=(subscale*10)+(*num++ - '0')` -/
def addSubscale (subscale : Int) : Bytes → Int
  | [] => subscale
  | c :: t => if isDigit c then addSubscale (M.int (subscale * 10 + digit c)) t else subscale

def signOf (num : Bytes) : Int := if deref num = 45 then -1 else 1

def intDigits (n : F) (num : Bytes) : F := if 49 ≤ deref num ∧ deref num ≤ 57 then addDigits M n num else n

def fracDigits (n : F) (num : Bytes) : F :=
  if deref num = 46 ∧ isDigit (deref num.tail) then addDigits M n num.tail else n

def fracScale (scale : F) (num : Bytes) : F :=
  if deref num = 46 ∧ isDigit (deref num.tail) then lowerScale M scale num.tail else scale

def expSubscale (num : Bytes) : Int :=
  if deref num = 101 ∨ deref num = 69 then addSubscale M 0 (skipExpSign num.tail) else 0

def signSubscale (num : Bytes) : Int :=
  if (deref num = 101 ∨ deref num = 69) ∧ deref num.tail = 45 then -1 else 1

/-- `n=sign*n*pow(10.0,(scale+subscale*signsubscale))` -/
def numberValue (num : Bytes) : F :=
  let int := skipZero (skipSign num)
  let frac := skipInt int
  let exp := skipFrac frac
  M.mul (M.mul (M.real (signOf num)) (fracDigits M (intDigits M (M.real 0) int) frac))
    (M.pow (M.real 10) (M.add (fracScale M (M.real 0) frac) (M.real (M.int (expSubscale M exp * signSubscale exp)))))

def parseNumber (num : Bytes) : Item × Bytes := (.number (M.toInt (numberValue M num)), numberEnd num)

end

/-! ## Strings -/

def hexValue (c : UInt8) : Option Nat :=
  if 48 ≤ c ∧ c ≤ 57 then some (c.toNat - 48)
  else if 65 ≤ c ∧ c ≤ 70 then some (10 + c.toNat - 65)
  else if 97 ≤ c ∧ c ≤ 102 then some (10 + c.toNat - 97)
  else none

/-- `parse_hex4`: zero at the first byte that is no digit, the terminator included. -/
def parseHex4 : Bytes → Nat
  | a :: b :: c :: d :: _ =>
    match hexValue a, hexValue b, hexValue c, hexValue d with
    | some a, some b, some c, some d => ((((((a <<< 4) + b) <<< 4) + c) <<< 4) + d)
    | _, _, _, _ => 0
  | _ => 0

/-- `while (*ptr!='\"' && *ptr && ++len) if (*ptr++ == '\\') ptr++;`: a backslash takes the
    byte after it along, be it the terminator. -/
def stringLen : Bytes → Reads Nat
  | [] => .ok 0
  | c :: t =>
    if c = 34 then .ok 0
    else if c = 92 then
      match t with
      | [] => .error .fault
      | _ :: t => (stringLen t).map (· + 1)
    else (stringLen t).map (· + 1)

def firstByteMark : Nat → Nat
  | 2 => 0xC0
  | 3 => 0xE0
  | 4 => 0xF0
  | _ => 0

/-- `(uc | 0x80) & 0xBF` -/
def tailByte (uc : Nat) : UInt8 := ((uc ||| 0x80) &&& 0xBF).toUInt8

/-- The bytes of `uc`, written from the last one to the first. -/
def encode (uc : Nat) : Bytes :=
  if uc < 0x80 then [(uc ||| firstByteMark 1).toUInt8]
  else if uc < 0x800 then [(uc >>> 6 ||| firstByteMark 2).toUInt8, tailByte uc]
  else if uc < 0x10000 then [(uc >>> 12 ||| firstByteMark 3).toUInt8, tailByte (uc >>> 6), tailByte uc]
  else [(uc >>> 18 ||| firstByteMark 4).toUInt8, tailByte (uc >>> 12), tailByte (uc >>> 6), tailByte uc]

/-- The two halves of a surrogate pair; nothing if the second is none. -/
def pair (uc uc2 : Nat) : Bytes :=
  if uc2 < 0xDC00 ∨ 0xDFFF < uc2 then [] else encode (0x10000 + ((uc &&& 0x3FF) <<< 10 ||| (uc2 &&& 0x3FF)))

/-- `case 'u'` behind `ptr+=4`, with `uc` read: what is written and where `ptr` stands for
    the `ptr++`. -/
def surrogates (uc : Nat) (ptr : Bytes) : Reads (Bytes × Bytes) :=
  if (0xDC00 ≤ uc ∧ uc ≤ 0xDFFF) ∨ uc = 0 then .ok ([], ptr)
  else if 0xD800 ≤ uc ∧ uc ≤ 0xDBFF then
    if deref ptr.tail ≠ 92 ∨ deref ptr.tail.tail ≠ 117 then .ok ([], ptr)
    else (advance 6 ptr).map (pair uc (parseHex4 (ptr.drop 3)), ·)
  else .ok (encode uc, ptr)

/-- `case 'u'`, with `ptr` on the `u`. -/
def transcode (ptr : Bytes) : Reads (Bytes × Bytes) := do
  let uc := parseHex4 ptr.tail
  let ptr ← advance 4 ptr
  surrogates uc ptr

/-- The cases of one byte: a letter of the list, or the byte itself. -/
def escapeByte (c : UInt8) : UInt8 :=
  if c = 98 then 8 else if c = 102 then 12 else if c = 110 then 10 else if c = 114 then 13
  else if c = 116 then 9 else c

/-- The `switch` behind a backslash. -/
def escaped (ptr : Bytes) : Reads (Bytes × Bytes) :=
  if deref ptr = 117 then transcode ptr else .ok ([escapeByte (deref ptr)], ptr)

/-- One turn of the second loop: what it writes and where it leaves `ptr`. -/
def turn (ptr : Bytes) : Reads (Bytes × Bytes) :=
  if deref ptr ≠ 92 then .ok ([deref ptr], ptr.tail)
  else do
    let (w, ptr) ← escaped ptr.tail
    let ptr ← advance 1 ptr
    return (w, ptr)

/-- The second loop: `room` is what is left of the block, the terminator's byte included. -/
def unescape : Nat → Nat → Bytes → Reads (Bytes × Bytes)
  | 0, _, _ => .error .fuel
  | fuel + 1, room, ptr =>
    if deref ptr = 34 ∨ ptr = [] then
      if room = 0 then .error .fault else .ok ([], ptr)
    else do
      let (w, ptr) ← turn ptr
      if room < w.length then throw .fault
      else
        let (v, r) ← unescape fuel (room - w.length) ptr
        return (w ++ v, r)

/-- `parse_string`. A text that ends inside the string is read as if it had its quote. -/
def parseString (str : Bytes) : Reads (CStr × Bytes) :=
  if deref str ≠ 34 then .error .null
  else do
    let len ← stringLen str.tail
    if 2 ^ 31 ≤ len + 1 then throw .fault
    else
      let (out, ptr) ← unescape str.length (len + 1) str.tail
      return (.ofBytes out, if deref ptr = 34 then ptr.tail else ptr)

/-! ## Values -/

section
variable {α : Type}

/-- `while (*value==',')`, `one` reading what is behind the comma. -/
def more (one : Bytes → Reads (α × Bytes)) : Nat → Bytes → Reads (List α × Bytes)
  | 0, _ => .error .fuel
  | fuel + 1, value =>
    if deref value = 44 then do
      let (x, value) ← one (skip value.tail)
      let (xs, value) ← more one fuel (skip value)
      return (x :: xs, value)
    else .ok ([], value)

/-- What `parse_array` and `parse_object` share; `value` is on the opening bracket. -/
def parseItems (close : UInt8) (one : Bytes → Reads (α × Bytes)) (fuel : Nat) (value : Bytes) :
    Reads (List α × Bytes) :=
  let value := skip value.tail
  if deref value = close then .ok ([], value.tail)
  else do
    let (x, value) ← one (skip value)
    let (xs, value) ← more one fuel (skip value)
    if deref value = close then return (x :: xs, value.tail) else throw .null

end

/-- A key and, behind the colon, its value. -/
def parseMember (one : Bytes → Reads (Item × Bytes)) (value : Bytes) : Reads ((CStr × Item) × Bytes) := do
  let (key, value) ← parseString value
  let value := skip value
  if deref value ≠ 58 then throw .null
  else
    let (x, value) ← one (skip value.tail)
    return ((key, x), value)

def parseArray (one : Bytes → Reads (Item × Bytes)) (fuel : Nat) (value : Bytes) : Reads (Item × Bytes) := do
  let (items, value) ← parseItems 93 one fuel value
  return (.array items, value)

def parseObject (one : Bytes → Reads (Item × Bytes)) (fuel : Nat) (value : Bytes) : Reads (Item × Bytes) := do
  let (members, value) ← parseItems 125 (parseMember one) fuel value
  return (.object members, value)

def lNull : Bytes := [110, 117, 108, 108]
def lFalse : Bytes := [102, 97, 108, 115, 101]
def lTrue : Bytes := [116, 114, 117, 101]

def parseValue {F : Type} (M : Arith F) : Nat → Bytes → Reads (Item × Bytes)
  | 0, _ => .error .fuel
  | fuel + 1, value =>
    if lNull.isPrefixOf value then .ok (.null, value.drop 4)
    else if lFalse.isPrefixOf value then .ok (.bool false, value.drop 5)
    else if lTrue.isPrefixOf value then .ok (.bool true, value.drop 4)
    else if deref value = 34 then do
      let (s, value) ← parseString value
      return (.string s, value)
    else if deref value = 45 ∨ isDigit (deref value) then .ok (parseNumber M value)
    else if deref value = 91 then parseArray (parseValue M fuel) fuel value
    else if deref value = 123 then parseObject (parseValue M fuel) fuel value
    else .error .null

/-- `cJSON_Parse`: what follows the value is not looked at. -/
def cJSONParse {F : Type} (M : Arith F) (value : CStr) : Reads Item := do
  let (item, _) ← parseValue M (value.length + 1) (skip value.chars)
  return item

end Ddm.CJson
