/-
  Ddm.Wire.Checksum — what the table of `crc32.c` computes, and what `crc32_check`
  notices.

  The reference is `Ddm.Lib.Crc` with the polynomial 0xEDB88320, started and ended with
  0xFFFFFFFF, bit by bit from the least significant bit of each byte.

  Proved: each table entry is eight shifts of its index (`crc32tab_spec`), so a step of
  the loop feeds the register one byte (`crc32Step_eq`), and `crc32` is the reference on
  every string it can count (`crc32_standard`). A frame that passed the check fails it
  after any change, with the CRC field kept, that stays within 32 consecutive bits
  (`burst_detected`).
-/

import Ddm.Lib.Crc
import Ddm.Wire.Protocol

namespace Ddm.Wire

open Ddm.Lib

def polynomial : BitVec 32 := 0xEDB88320#32

/-- The reference, one bit after the other. -/
def crc32Bitwise (data : Bytes) : BitVec 32 :=
  Crc.run polynomial 0xFFFFFFFF#32 (Crc.bitsOf data) ^^^ 0xFFFFFFFF#32

/-! ## The table -/

theorem crc32tab_spec : ∀ i < 256, (crc32tab.getD i 0).toBitVec = (Crc.shift polynomial)^[8] (BitVec.ofNat 32 i) := by
  decide +kernel

/-- The sign extension stays above the byte. -/
theorem signExtend_low : ∀ n < 256, (signExtend (UInt8.ofNat n)).toBitVec &&& 0xFF#32 = BitVec.ofNat 32 n := by
  decide +kernel

/-- The index of a step is the low byte of the register with the next byte added. -/
theorem index_eq (crc : UInt32) (p : UInt8) :
    ((crc ^^^ signExtend p) &&& 0xFF).toBitVec = (crc.toBitVec ^^^ p.toBitVec.setWidth 32) &&& 0xFF#32 := by
  have hbyte : p.toBitVec.setWidth 32 = BitVec.ofNat 32 p.toNat :=
    BitVec.eq_of_toNat_eq (by rw [BitVec.toNat_setWidth, BitVec.toNat_ofNat]; rfl)
  have hlow := signExtend_low p.toNat p.toNat_lt
  rw [UInt8.ofNat_toNat] at hlow
  have hmask : BitVec.ofNat 32 p.toNat &&& 0xFF#32 = BitVec.ofNat 32 p.toNat := by
    rw [← hlow, BitVec.and_assoc, BitVec.and_self]
  calc ((crc ^^^ signExtend p) &&& 0xFF).toBitVec
      = (crc.toBitVec &&& 0xFF#32) ^^^ ((signExtend p).toBitVec &&& 0xFF#32) := Crc.xor_and ..
    _ = (crc.toBitVec &&& 0xFF#32) ^^^ (BitVec.ofNat 32 p.toNat &&& 0xFF#32) := by rw [hlow, hmask]
    _ = (crc.toBitVec ^^^ p.toBitVec.setWidth 32) &&& 0xFF#32 := by rw [hbyte, Crc.xor_and]

theorem low_mask : ∀ i < 32, (0xFF#32).getLsbD i = decide (i < 8) := by decide

/-- A step of the loop feeds the register one byte. -/
theorem crc32Step_eq (crc : UInt32) (p : UInt8) :
    (crc32Step crc p).toBitVec = Crc.run polynomial crc.toBitVec (Crc.byteBits p) := by
  set x := crc.toBitVec ^^^ p.toBitVec.setWidth 32 with hx
  have hlt : ((crc ^^^ signExtend p) &&& 0xFF).toNat < 256 := by
    rw [UInt32.toNat_and]
    exact Nat.lt_of_le_of_lt Nat.and_le_right (by decide)
  have hhigh : ((crc >>> 8) &&& 0x00FFFFFF).toBitVec = x >>> 8 := by
    have hcrc : (crc >>> 8).toBitVec = crc.toBitVec >>> 8 := rfl
    have hp : p.toBitVec.setWidth 32 >>> 8 = 0#32 := by
      refine BitVec.eq_of_getLsbD_eq fun i _ => ?_
      rw [BitVec.getLsbD_ushiftRight, BitVec.getLsbD_setWidth, BitVec.getLsbD_of_ge p.toBitVec _ (by omega)]
      simp
    have hmask : ∀ i < 32, (0x00FFFFFF#32).getLsbD i = decide (i < 24) := by decide
    rw [UInt32.toBitVec_and, hcrc, hx, BitVec.ushiftRight_xor_distrib, hp, BitVec.xor_zero]
    refine BitVec.eq_of_getLsbD_eq fun i hi => ?_
    show ((crc.toBitVec >>> 8) &&& 0x00FFFFFF#32).getLsbD i = _
    rw [BitVec.getLsbD_and, BitVec.getLsbD_ushiftRight, hmask i hi]
    by_cases h24 : i < 24
    · simp [h24]
    · rw [BitVec.getLsbD_of_ge crc.toBitVec _ (by omega)]
      rfl
  have htab : (crc32tab.getD ((crc ^^^ signExtend p) &&& 0xFF).toNat 0).toBitVec =
      (Crc.shift polynomial)^[8] (x &&& 0xFF#32) := by
    have hidx : BitVec.ofNat 32 ((crc ^^^ signExtend p) &&& 0xFF).toNat = x &&& 0xFF#32 := by
      rw [← index_eq]
      exact BitVec.ofNat_toNat ..
    rw [crc32tab_spec _ hlt, hidx]
  rw [Crc.run_byteBits polynomial (by decide), Crc.shifts_split polynomial 8 x 0xFF#32 low_mask, crc32Step,
    UInt32.toBitVec_xor, hhigh, htab]

theorem foldl_crc32Step (data : Bytes) : ∀ crc : UInt32,
    (data.foldl crc32Step crc).toBitVec = Crc.run polynomial crc.toBitVec (Crc.bitsOf data) := by
  induction data with
  | nil => intro crc; rfl
  | cons p data ih =>
    intro crc
    rw [List.foldl_cons, ih, crc32Step_eq, Crc.bitsOf_cons, Crc.run_append]

/-- On every string it can count the loop computes the reference. -/
theorem crc32_standard {data : Bytes} (h : data.length < 2 ^ 31) :
    crc32 data data.length = some (UInt32.ofBitVec (crc32Bitwise data)) := by
  rw [crc32_whole h, Option.some.injEq, ← UInt32.toBitVec_inj, UInt32.toBitVec_xor, foldl_crc32Step]
  rfl

/-- Bytes of both halves of the range. -/
theorem crc32_standard_sample :
    crc32 [0x7F, 0x80, 0xFF, 0x00] 4 = some (UInt32.ofBitVec (crc32Bitwise [0x7F, 0x80, 0xFF, 0x00])) ∧
      crc32 [0x7F, 0x80, 0xFF, 0x00] 4 = some 0x60098924 :=
  ⟨crc32_standard (by decide), by decide⟩

/-! ## Burst errors -/

/-- The sum over a frame's bytes after the CRC field. -/
theorem crc32Check_eq {header body : Bytes} (hh : header.length = sizeofMessageHeader)
    (htotal : (header ++ body).length < 2 ^ 31) : crc32Check header body =
      some (decide (ofBe32 header = (((header ++ body).drop 4).foldl crc32Step 0xFFFFFFFF ^^^ 0xFFFFFFFF).toNat)) := by
  have hlen : body.length + sizeofMessageHeader - 4 = ((header ++ body).drop 4).length := by
    rw [List.length_drop, List.length_append, hh, Nat.add_comm]
  have hshort : ((header ++ body).drop 4).length < 2 ^ 31 := by rw [List.length_drop]; omega
  rw [crc32Check, hlen, crc32_whole hshort]
  rfl

theorem ofBe32_take (b : Bytes) : ofBe32 b = ofBe32 (b.take 4) := by
  match b with
  | [] => rfl
  | [_] => rfl
  | [_, _] => rfl
  | [_, _, _] => rfl
  | _ :: _ :: _ :: _ :: _ => rfl

theorem burst_detected {header header' body body' : Bytes} (hh : header.length = sizeofMessageHeader)
    (hh' : header'.length = sizeofMessageHeader) (hb : body.length = body'.length)
    (htotal : (header ++ body).length < 2 ^ 31) (hcrc : header.take 4 = header'.take 4)
    (hok : crc32Check header body = some true)
    (hburst : Crc.Burst 32 (Crc.bitsOf ((header ++ body).drop 4)) (Crc.bitsOf ((header' ++ body').drop 4))) :
    crc32Check header' body' = some false := by
  have hlen : (header ++ body).length = (header' ++ body').length := by
    rw [List.length_append, List.length_append, hh, hh', hb]
  rw [crc32Check_eq hh htotal, Option.some.injEq, decide_eq_true_eq] at hok
  rw [crc32Check_eq hh' (hlen ▸ htotal), Option.some.injEq, decide_eq_false_iff_not, ofBe32_take, ← hcrc,
    ← ofBe32_take, hok]
  intro heq
  -- equal sums mean equal registers before the last xor
  have hsum := congrArg UInt32.toBitVec (UInt32.toNat_inj.mp heq)
  rw [UInt32.toBitVec_xor, UInt32.toBitVec_xor, BitVec.xor_left_inj, foldl_crc32Step, foldl_crc32Step] at hsum
  refine Crc.run_ne_of_burst polynomial (by decide) _ ?_ hburst hsum
  rw [Crc.length_bitsOf, Crc.length_bitsOf, List.length_drop, List.length_drop, hlen]

/-- A frame of three bytes, and the same with the ends of a 32-bit window changed. -/
def sampleFrame : Bytes × Bytes := ([84, 236, 150, 125, 0, 0, 0, 7, 0, 0, 0, 3, 16, 0, 0, 0], [1, 2, 255])

def changedFrame : Bytes × Bytes := ([84, 236, 150, 125, 0, 0, 0, 7, 0, 0, 0, 3, 16, 0, 16, 0], [1, 2, 247])

theorem sample_burst : Crc.Burst 32 (Crc.bitsOf ((sampleFrame.1 ++ sampleFrame.2).drop 4))
    (Crc.bitsOf ((changedFrame.1 ++ changedFrame.2).drop 4)) := by
  refine ⟨⟨84, by decide +kernel⟩, 84, fun i hi => ?_⟩
  have hall : ∀ i < 120, (Crc.bitsOf ((sampleFrame.1 ++ sampleFrame.2).drop 4))[i]? ≠
      (Crc.bitsOf ((changedFrame.1 ++ changedFrame.2).drop 4))[i]? → 84 ≤ i ∧ i < 84 + 32 := by decide +kernel
  by_cases h : i < 120
  · exact hall i h hi
  · rw [List.getElem?_eq_none (Nat.not_lt.mp h), List.getElem?_eq_none (Nat.not_lt.mp h)] at hi
    exact absurd rfl hi

theorem burst_detected_sample : crc32Check changedFrame.1 changedFrame.2 = some false :=
  burst_detected (rfl : sampleFrame.1.length = sizeofMessageHeader) (rfl : changedFrame.1.length = sizeofMessageHeader)
    (rfl : sampleFrame.2.length = changedFrame.2.length) (by decide) (by decide) (by decide +kernel) sample_burst

end Ddm.Wire
