/-
  Ddm.Lib.PercentText — what a percent-encoded text stands for: `+` is a blank, `%` and two
  hexadecimal digits are a byte, and every other byte is itself, a `%` with no two digits
  behind it among them.

  Proved: a text stands for one byte string (`Decoded.unique`).
-/

import Ddm.Lib.JsonText

namespace Ddm.Lib.PercentText

open JsonText (hexDigit)

/-- What follows a `%` that is an escape. -/
def Escape (s : Bytes) : Prop := ∃ a b r x y, s = a :: b :: r ∧ hexDigit a = some x ∧ hexDigit b = some y

inductive Decoded : Bytes → Bytes → Prop
  | nil : Decoded [] []
  | blank {s t : Bytes} (h : Decoded s t) : Decoded (43 :: s) (32 :: t)
  | escape {a b : UInt8} {x y : Nat} {s t : Bytes} (ha : hexDigit a = some x) (hb : hexDigit b = some y)
      (h : Decoded s t) : Decoded (37 :: a :: b :: s) (UInt8.ofNat (x * 16 + y) :: t)
  | plain {c : UInt8} {s t : Bytes} (hc : c ≠ 43) (he : c = 37 → ¬Escape s) (h : Decoded s t) :
      Decoded (c :: s) (c :: t)

theorem Decoded.unique {s t u : Bytes} (ht : Decoded s t) (hu : Decoded s u) : t = u := by
  induction ht generalizing u with
  | nil =>
    cases hu
    rfl
  | blank _ ih =>
    cases hu with
    | blank h => rw [ih h]
    | plain hc => exact absurd rfl hc
  | escape ha hb _ ih =>
    cases hu with
    | escape ha' hb' h =>
      obtain rfl := Option.some.inj (ha.symm.trans ha')
      obtain rfl := Option.some.inj (hb.symm.trans hb')
      rw [ih h]
    | plain _ he => exact absurd ⟨_, _, _, _, _, rfl, ha, hb⟩ (he rfl)
  | plain hc he _ ih =>
    cases hu with
    | blank => exact absurd rfl hc
    | escape ha hb => exact absurd ⟨_, _, _, _, _, rfl, ha, hb⟩ (he rfl)
    | plain _ _ h => rw [ih h]

end Ddm.Lib.PercentText
