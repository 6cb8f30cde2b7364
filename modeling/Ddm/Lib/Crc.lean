/-
  Ddm.Lib.Crc — reflected cyclic redundancy checks, bit by bit.

  The register holds the remainder with its highest coefficient in the least significant
  bit. Each message bit is added there and the register shifted by one, which adds the
  polynomial where a one falls out. `word` packs as many bits as the register has; that
  many can be added at once and shifted afterwards (`run_eq_shifts`).

  Proved: the register is linear in its start and the message (`run_xor`); with the top
  bit of the polynomial set a shift loses nothing (`shift_injective`); so messages that
  differ, and only within a window of the register's width, leave different registers
  (`run_ne_of_burst`). The `n` low bits of a register decide what `n` shifts add to the
  others (`shifts_split`), which is what a table is made of.
-/

import Ddm.Lib.Bytes
import Mathlib.Logic.Function.Iterate

namespace Ddm.Lib.Crc

variable {w : Nat} (poly : BitVec w)

def shift (r : BitVec w) : BitVec w := if r.getLsbD 0 then (r >>> 1) ^^^ poly else r >>> 1

def bit (b : Bool) : BitVec w := if b then 1#w else 0#w

def feed (r : BitVec w) (b : Bool) : BitVec w := shift poly (r ^^^ bit b)

def run (r : BitVec w) (bits : List Bool) : BitVec w := bits.foldl (feed poly) r

/-- Bits from the least significant on. -/
def word : List Bool → BitVec w
  | [] => 0#w
  | b :: bits => (word bits <<< 1) ^^^ bit b

/-! ## Linearity -/

theorem xor_swap (a b c d : BitVec w) : a ^^^ b ^^^ (c ^^^ d) = a ^^^ c ^^^ (b ^^^ d) := by
  rw [BitVec.xor_assoc a b, BitVec.xor_assoc a c, ← BitVec.xor_assoc b c d, BitVec.xor_comm b c, BitVec.xor_assoc c b d]

theorem xor_and (a b mask : BitVec w) : (a ^^^ b) &&& mask = (a &&& mask) ^^^ (b &&& mask) := by
  refine BitVec.eq_of_getLsbD_eq fun i _ => ?_
  rw [BitVec.getLsbD_xor, BitVec.getLsbD_and, BitVec.getLsbD_and, BitVec.getLsbD_and, BitVec.getLsbD_xor]
  cases mask.getLsbD i <;> simp

theorem shift_xor (a b : BitVec w) : shift poly (a ^^^ b) = shift poly a ^^^ shift poly b := by
  unfold shift
  rw [BitVec.getLsbD_xor, BitVec.ushiftRight_xor_distrib]
  cases a.getLsbD 0 with
  | false =>
    cases b.getLsbD 0 with
    | false => rfl
    | true => exact BitVec.xor_assoc _ _ _
  | true =>
    cases b.getLsbD 0 with
    | false => exact (BitVec.xor_assoc _ _ _).trans (by rw [BitVec.xor_comm (b >>> 1), ← BitVec.xor_assoc]; rfl)
    | true =>
      show a >>> 1 ^^^ b >>> 1 = a >>> 1 ^^^ poly ^^^ (b >>> 1 ^^^ poly)
      rw [xor_swap (a >>> 1) poly, BitVec.xor_self, BitVec.xor_zero]

theorem shift_zero : shift poly 0#w = 0#w := by
  unfold shift
  rw [if_neg (by simp)]
  simp

theorem bit_xor (a b : Bool) : (bit (a ^^ b) : BitVec w) = bit a ^^^ bit b := by
  cases a <;> cases b <;> simp [bit]

theorem feed_xor (r s : BitVec w) (a b : Bool) : feed poly (r ^^^ s) (a ^^ b) = feed poly r a ^^^ feed poly s b := by
  unfold feed
  rw [bit_xor, xor_swap, shift_xor]

theorem run_xor {as : List Bool} : ∀ {bs : List Bool} (r s : BitVec w), as.length = bs.length →
    run poly (r ^^^ s) (List.zipWith (· ^^ ·) as bs) = run poly r as ^^^ run poly s bs := by
  induction as with
  | nil =>
    intro bs r s h
    obtain rfl := List.eq_nil_of_length_eq_zero h.symm
    rfl
  | cons a as ih =>
    intro bs r s h
    cases bs with
    | nil => cases h
    | cons b bs =>
      show run poly (feed poly (r ^^^ s) (a ^^ b)) (List.zipWith (· ^^ ·) as bs) = _
      rw [feed_xor]
      exact ih _ _ (Nat.succ.inj h)

/-! ## Shifts -/

theorem shifts_xor (n : Nat) (a b : BitVec w) :
    (shift poly)^[n] (a ^^^ b) = (shift poly)^[n] a ^^^ (shift poly)^[n] b := by
  induction n with
  | zero => rfl
  | succ n ih =>
    rw [Function.iterate_succ_apply', Function.iterate_succ_apply', Function.iterate_succ_apply', ih, shift_xor]

theorem shifts_zero (n : Nat) : (shift poly)^[n] 0#w = 0#w := Function.iterate_fixed (shift_zero poly) n

/-- Nothing falls out of `n` clear low bits. -/
theorem shifts_high {n : Nat} {r : BitVec w} (h : ∀ i < n, r.getLsbD i = false) : (shift poly)^[n] r = r >>> n := by
  induction n with
  | zero => simp
  | succ n ih =>
    have hlow : (r >>> n).getLsbD 0 = false := by
      rw [BitVec.getLsbD_ushiftRight]
      exact h n (Nat.lt_succ_self n)
    rw [Function.iterate_succ_apply', ih fun i hi => h i (by omega), shift,
      if_neg (by rw [hlow]; exact Bool.false_ne_true),
      BitVec.shiftRight_add]

/-- A register is its low bits and the rest. -/
theorem shifts_split (n : Nat) (r mask : BitVec w) (h : ∀ i < w, mask.getLsbD i = decide (i < n)) :
    (shift poly)^[n] r = (r >>> n) ^^^ (shift poly)^[n] (r &&& mask) := by
  have hr : r = (r &&& ~~~mask) ^^^ (r &&& mask) := by
    refine BitVec.eq_of_getLsbD_eq fun i hi => ?_
    rw [BitVec.getLsbD_xor, BitVec.getLsbD_and, BitVec.getLsbD_and, BitVec.getLsbD_not]
    cases r.getLsbD i <;> cases mask.getLsbD i <;> simp [hi]
  have hclear : ∀ i < n, (r &&& ~~~mask).getLsbD i = false := by
    intro i hi
    rw [BitVec.getLsbD_and, BitVec.getLsbD_not]
    by_cases hw : i < w
    · rw [h i hw]; simp [hi]
    · simp [hw]
  have hhigh : (r &&& ~~~mask) >>> n = r >>> n := by
    refine BitVec.eq_of_getLsbD_eq fun i _ => ?_
    rw [BitVec.getLsbD_ushiftRight, BitVec.getLsbD_ushiftRight, BitVec.getLsbD_and, BitVec.getLsbD_not]
    by_cases hw : n + i < w
    · rw [h _ hw]; simp [hw]
    · rw [BitVec.getLsbD_of_ge r _ (by omega)]; rfl
  calc (shift poly)^[n] r = (shift poly)^[n] (r &&& ~~~mask) ^^^ (shift poly)^[n] (r &&& mask) := by
        rw [← shifts_xor, ← hr]
    _ = (r >>> n) ^^^ (shift poly)^[n] (r &&& mask) := by rw [shifts_high poly hclear, hhigh]

/-- With the polynomial's top bit set no register but zero shifts to zero. -/
theorem shift_ne_zero (htop : poly.getMsbD 0 = true) {r : BitVec w} (h : r ≠ 0#w) : shift poly r ≠ 0#w := by
  intro h0
  rw [BitVec.getMsbD, Bool.and_eq_true, decide_eq_true_eq] at htop
  unfold shift at h0
  cases hlow : r.getLsbD 0 with
  | true =>
    -- the top bit comes from the polynomial alone
    rw [hlow, if_pos rfl] at h0
    have hbit := congrArg (BitVec.getLsbD · (w - 1 - 0)) h0
    simp only [BitVec.getLsbD_xor, htop.2, BitVec.getLsbD_ushiftRight, BitVec.getLsbD_zero] at hbit
    rw [BitVec.getLsbD_of_ge r _ (by omega)] at hbit
    exact absurd hbit (by decide)
  | false =>
    rw [hlow, if_neg Bool.false_ne_true] at h0
    refine h (BitVec.eq_of_getLsbD_eq fun i _ => ?_)
    rw [BitVec.getLsbD_zero]
    cases i with
    | zero => exact hlow
    | succ i =>
      have hbit := congrArg (BitVec.getLsbD · i) h0
      simpa only [BitVec.getLsbD_ushiftRight, BitVec.getLsbD_zero, Nat.add_comm 1 i] using hbit

theorem shifts_ne_zero (htop : poly.getMsbD 0 = true) (n : Nat) {r : BitVec w} (h : r ≠ 0#w) :
    (shift poly)^[n] r ≠ 0#w := by
  induction n with
  | zero => exact h
  | succ n ih =>
    rw [Function.iterate_succ_apply']
    exact shift_ne_zero poly htop ih

/-! ## Words -/

theorem getLsbD_bit (b : Bool) (i : Nat) : (bit b : BitVec w).getLsbD i = (decide (i < w) && decide (i = 0) && b) := by
  cases b with
  | false => simp [bit]
  | true =>
    simp only [bit, if_true, BitVec.getLsbD_one, Bool.and_true]
    by_cases hi : i = 0
    · simp [hi]
    · simp [hi]

theorem getLsbD_word (bits : List Bool) :
    ∀ i, (word bits : BitVec w).getLsbD i = (decide (i < w) && bits.getD i false) := by
  induction bits with
  | nil => intro i; simp [word]
  | cons b bits ih =>
    intro i
    rw [word, BitVec.getLsbD_xor, BitVec.getLsbD_shiftLeft, getLsbD_bit]
    cases i with
    | zero => simp
    | succ i =>
      rw [Nat.add_sub_cancel, ih i, List.getD_cons_succ]
      by_cases hi : i + 1 < w
      · simp [hi, (by omega : i < w)]
      · simp [hi]

theorem word_ne_zero {bits : List Bool} (hw : bits.length ≤ w) (h : true ∈ bits) : (word bits : BitVec w) ≠ 0#w := by
  intro h0
  obtain ⟨i, hi, hb⟩ := List.getElem_of_mem h
  have hbit := congrArg (BitVec.getLsbD · i) h0
  have hget : bits.getD i false = true := by
    rw [List.getD_eq_getElem?_getD, List.getElem?_eq_getElem hi, hb]
    rfl
  simp only [getLsbD_word, BitVec.getLsbD_zero, hget, Bool.and_true, decide_eq_false_iff_not] at hbit
  omega

/-- Fewer bits than the register has can be added one place higher, before a shift. -/
theorem shift_word {bits : List Bool} (hw : bits.length < w) : shift poly (word bits <<< 1) = word bits := by
  unfold shift
  rw [if_neg (by simp)]
  refine BitVec.eq_of_getLsbD_eq fun i hi => ?_
  rw [BitVec.getLsbD_ushiftRight, BitVec.getLsbD_shiftLeft, Nat.add_comm, Nat.add_sub_cancel, getLsbD_word]
  by_cases h : i + 1 < w
  · simp [h]
  · rw [List.getD_eq_getElem?_getD, List.getElem?_eq_none (by omega)]
    simp

/-- A word's bits can all be added before the first shift. -/
theorem run_eq_shifts {bits : List Bool} : ∀ r : BitVec w, bits.length ≤ w →
    run poly r bits = (shift poly)^[bits.length] (r ^^^ word bits) := by
  induction bits with
  | nil => intro r _; exact (BitVec.xor_zero (x := r)).symm
  | cons b bits ih =>
    intro r h
    rw [List.length_cons] at h
    have hword : shift poly (r ^^^ bit b) ^^^ word bits = shift poly (r ^^^ word (b :: bits)) := by
      rw [word, ← shift_word poly (by omega : bits.length < w), ← shift_xor,
        shift_word poly (by omega : bits.length < w),
        BitVec.xor_assoc, BitVec.xor_comm (bit b)]
    show run poly (shift poly (r ^^^ bit b)) bits = _
    rw [ih _ (by omega), hword, List.length_cons, Function.iterate_succ_apply]

/-- Zeros only shift. -/
theorem run_false {bits : List Bool} :
    ∀ r : BitVec w, true ∉ bits → run poly r bits = (shift poly)^[bits.length] r := by
  induction bits with
  | nil => intro r _; rfl
  | cons b bits ih =>
    intro r h
    rw [List.mem_cons, not_or] at h
    obtain rfl : b = false := by
      cases b with
      | true => exact absurd rfl h.1
      | false => rfl
    show run poly (shift poly (r ^^^ 0#w)) bits = _
    rw [BitVec.xor_zero, ih _ h.2, List.length_cons, Function.iterate_succ_apply]

/-! ## Bursts -/

/-- The messages differ, and only in a window of `n` bits. -/
def Burst (n : Nat) (as bs : List Bool) : Prop :=
  (∃ i : Nat, as[i]? ≠ bs[i]?) ∧ ∃ start, ∀ i : Nat, as[i]? ≠ bs[i]? → start ≤ i ∧ i < start + n

theorem run_append (r : BitVec w) (as bs : List Bool) : run poly r (as ++ bs) = run poly (run poly r as) bs :=
  List.foldl_append

/-- The register after a difference in one window. -/
theorem run_window_ne_zero (htop : poly.getMsbD 0 = true) {before window after : List Bool} (hb : true ∉ before)
    (hw : window.length ≤ w) (ht : true ∈ window) (ha : true ∉ after) :
    run poly 0#w (before ++ (window ++ after)) ≠ 0#w := by
  rw [run_append, run_append, run_false poly _ hb, shifts_zero, run_eq_shifts poly _ hw, BitVec.zero_xor,
    run_false poly _ ha]
  exact shifts_ne_zero poly htop _ (shifts_ne_zero poly htop _ (word_ne_zero hw ht))

/-- The bits in which two messages of one length differ. -/
def differences (as bs : List Bool) : List Bool := List.zipWith (· ^^ ·) as bs

theorem getElem?_differences {as bs : List Bool} (h : as.length = bs.length) (i : Nat) :
    (differences as bs)[i]? = some true ↔ as[i]? ≠ bs[i]? := by
  by_cases hi : i < as.length
  · have hi' : i < bs.length := h ▸ hi
    rw [differences, List.getElem?_zipWith, List.getElem?_eq_getElem hi, List.getElem?_eq_getElem hi']
    cases as[i] <;> cases bs[i] <;> simp
  · rw [differences, List.getElem?_zipWith, List.getElem?_eq_none (by omega), List.getElem?_eq_none (by omega)]
    simp

/-- Bursts no longer than the register are seen. -/
theorem run_ne_of_burst (htop : poly.getMsbD 0 = true) {as bs : List Bool} (r : BitVec w) (h : as.length = bs.length)
    (hburst : Burst w as bs) : run poly r as ≠ run poly r bs := by
  intro heq
  obtain ⟨⟨i, hi⟩, start, hwin⟩ := hburst
  set d := differences as bs with hd
  have hdrun : run poly 0#w d = 0#w := by
    have hx := run_xor poly r r h
    rw [heq, BitVec.xor_self, BitVec.xor_self] at hx
    exact hx
  -- a difference is inside the window
  have hin : ∀ j : Nat, d[j]? = some true → start ≤ j ∧ j < start + w := fun j hj =>
    hwin j ((getElem?_differences h j).mp hj)
  have hsplit : d = d.take start ++ ((d.drop start).take w ++ (d.drop start).drop w) := by
    rw [List.take_append_drop, List.take_append_drop]
  have hbefore : true ∉ d.take start := fun hm => by
    obtain ⟨j, hj⟩ := List.getElem?_of_mem hm
    rw [List.getElem?_take] at hj
    split at hj
    · have := hin j hj
      omega
    · cases hj
  have hafter : true ∉ (d.drop start).drop w := fun hm => by
    obtain ⟨j, hj⟩ := List.getElem?_of_mem hm
    rw [List.getElem?_drop, List.getElem?_drop] at hj
    have := hin _ hj
    omega
  have hthere : true ∈ (d.drop start).take w := by
    have hj := (getElem?_differences h i).mpr hi
    have hbounds := hin i hj
    have hat : ((d.drop start).take w)[i - start]? = some true := by
      rw [List.getElem?_take, if_pos (by omega), List.getElem?_drop, (by omega : start + (i - start) = i)]
      exact hj
    exact List.mem_of_getElem? hat
  rw [hsplit] at hdrun
  exact run_window_ne_zero poly htop hbefore (by rw [List.length_take]; omega) hthere hafter hdrun

/-! ## Bytes -/

/-- From the least significant bit of each byte on. -/
def byteBits (b : UInt8) : List Bool := (List.range 8).map b.toBitVec.getLsbD

def bitsOf (data : Bytes) : List Bool := data.flatMap byteBits

@[simp] theorem length_byteBits (b : UInt8) : (byteBits b).length = 8 := rfl

theorem bitsOf_cons (b : UInt8) (data : Bytes) : bitsOf (b :: data) = byteBits b ++ bitsOf data := rfl

theorem length_bitsOf (data : Bytes) : (bitsOf data).length = 8 * data.length := by
  induction data with
  | nil => rfl
  | cons b data ih =>
    rw [bitsOf_cons, List.length_append, length_byteBits, List.length_cons, ih]
    omega

theorem word_byteBits (b : UInt8) : word (byteBits b) = b.toBitVec.setWidth w := by
  refine BitVec.eq_of_getLsbD_eq fun i hi => ?_
  rw [getLsbD_word, BitVec.getLsbD_setWidth, byteBits, List.getD_eq_getElem?_getD, List.getElem?_map]
  by_cases h8 : i < 8
  · rw [List.getElem?_range h8]
    rfl
  · rw [List.getElem?_eq_none (by rw [List.length_range]; omega), BitVec.getLsbD_of_ge _ _ (by omega)]
    simp

/-- A byte is added whole. -/
theorem run_byteBits (h : 8 ≤ w) (r : BitVec w) (b : UInt8) :
    run poly r (byteBits b) = (shift poly)^[8] (r ^^^ b.toBitVec.setWidth w) := by
  rw [run_eq_shifts poly r (by rw [length_byteBits]; exact h), word_byteBits, length_byteBits]

end Ddm.Lib.Crc
