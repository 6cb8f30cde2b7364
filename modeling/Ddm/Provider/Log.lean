/-
  Ddm.Provider.Log — `logv`: one line of the provider's log.

  The time, the process and the thread, and the level's name go to the front of a buffer
  of LOG_BUF_LEN bytes, the message behind them, and two bytes are kept back for the
  newline and a terminator. What the clock and the system answer is in `Stamp`, the
  message comes formatted, and `prepared` is whether `prepare_log` returned 0.

  `vsnprintf` keeps one byte of the space it is given for its own terminator, and returns
  the length the message would have had; the cursor moves on by the whole space, behind
  that terminator (`full_line_has_nul`).

  Proved: the call stays inside its buffer, and the line is the prefix, as much of the
  message as there is room for and the newline, if and only if the message is shorter than
  the space left (`logv_iff`).
-/

import Ddm.Lib.Memory

namespace Ddm.Provider.Log

open Ddm.Lib

abbrev logBufLen : Nat := 4096
abbrev levelNameLen : Nat := 8

theorem logBufLen_eq : logBufLen = 4096 := rfl

/-- The levels of lines. LEVEL_NONE is below them all, and no call with it gets as far as
    `level_name`, which would answer "". -/
inductive Level where
  | debug
  | info
  | notice
  | warn
  | error
  | fatal
  deriving DecidableEq

def levelName : Level → CStr
  | .fatal => .lit "[FATAL] "
  | .error => .lit "[ERROR] "
  | .warn => .lit "[WARN ] "
  | .notice => .lit "[NOTICE]"
  | .info => .lit "[INFO ] "
  | .debug => .lit "[DEBUG] "

theorem length_levelName (level : Level) : (levelName level).length = 8 := by
  cases level <;> decide

/-! ## The time -/

/-- `localtime`, the milliseconds, `getpid` and `pthread_self`, as they are printed. -/
structure Stamp where
  tmYear : Int32
  tmMon : Int32
  tmMday : Int32
  tmHour : Int32
  tmMin : Int32
  tmSec : Int32
  millis : Int32
  pid : UInt32
  thread : UInt32

def zeros (n : Nat) : CStr := ⟨List.replicate n 48, by simp [List.mem_replicate]⟩

theorem length_zeros (n : Nat) : (zeros n).length = n := List.length_replicate

/-- `%0*d` -/
def zeroPadded (width : Nat) (n : Int) : CStr :=
  if n < 0 then .lit "-" ++ zeros (width - 1 - (decimal n.natAbs).length) ++ decimal n.natAbs
  else zeros (width - (decimal n.natAbs).length) ++ decimal n.natAbs

theorem hexDigit_ne_zero : ∀ d < 16, (Nat.digitChar d).toUInt8 ≠ 0 := by decide

theorem hexBytes_noNul (n : Nat) : 0 ∉ (Nat.toDigits 16 n).map Char.toUInt8 := by
  induction n using Nat.strongRecOn with
  | _ n ih =>
    rw [Nat.toDigits_eq_if (by decide)]
    split
    · rename_i hn
      rw [List.map_singleton, List.mem_singleton]
      exact fun h => hexDigit_ne_zero n hn h.symm
    · rw [List.map_append, List.mem_append, List.map_singleton, List.mem_singleton]
      intro h
      rcases h with h | h
      · exact ih (n / 16) (by omega) h
      · exact hexDigit_ne_zero (n % 16) (Nat.mod_lt n (by decide)) h.symm

/-- `%x` -/
def hex (n : Nat) : CStr := ⟨(Nat.toDigits 16 n).map Char.toUInt8, hexBytes_noNul n⟩

/-- `%04d-%02d-%02d %02d:%02d:%02d.%03d %u:%x `, piece by piece -/
def timePieces (t : Stamp) : List CStr :=
  [zeroPadded 4 (t.tmYear + 1900).toInt, .lit "-", zeroPadded 2 (t.tmMon + 1).toInt, .lit "-",
    zeroPadded 2 t.tmMday.toInt, .lit " ", zeroPadded 2 t.tmHour.toInt, .lit ":", zeroPadded 2 t.tmMin.toInt, .lit ":",
    zeroPadded 2 t.tmSec.toInt, .lit ".", zeroPadded 3 t.millis.toInt, .lit " ", decimal t.pid.toNat, .lit ":",
    hex t.thread.toNat, .lit " "]

def timeText (t : Stamp) : CStr := (timePieces t).foldr (· ++ ·) (.lit "")

theorem length_decimal_le {n : Nat} (h : n ≤ 2 ^ 32) : (decimal n).length ≤ 10 := by
  have hd : (Nat.toDigits 10 n).length ≤ 10 := (Nat.length_toDigits_le_iff (by decide) (by decide)).mpr (by omega)
  show (decimalBytes n).length ≤ 10
  rw [decimalBytes, if_neg (by omega), List.nil_append, List.length_map, Int.natAbs_natCast]
  exact hd

theorem length_zeroPadded {width : Nat} (hw : width ≤ 10) (n : Int32) : (zeroPadded width n.toInt).length ≤ 11 := by
  have hlow := n.le_toInt
  have hhigh := n.toInt_lt
  have hd : (decimal n.toInt.natAbs).length ≤ 10 := length_decimal_le (by omega)
  unfold zeroPadded
  split
  · have h1 : (CStr.lit "-").length = 1 := by decide
    rw [CStr.length_append, CStr.length_append, h1, length_zeros]
    omega
  · rw [CStr.length_append, length_zeros]
    omega

theorem length_hex {n : Nat} (h : n < 2 ^ 32) : (hex n).length ≤ 8 := by
  have hd : (Nat.toDigits 16 n).length ≤ 8 := (Nat.length_toDigits_le_iff (by decide) (by decide)).mpr (by omega)
  show ((Nat.toDigits 16 n).map Char.toUInt8).length ≤ 8
  rw [List.length_map]
  exact hd

theorem length_concat {n : Nat} (pieces : List CStr) (h : ∀ p ∈ pieces, p.length ≤ n) :
    (pieces.foldr (· ++ ·) (CStr.lit "")).length ≤ pieces.length * n := by
  induction pieces with
  | nil => exact Nat.zero_le _
  | cons p pieces ih =>
    have hp := h p List.mem_cons_self
    have hrest := ih fun q hq => h q (List.mem_cons_of_mem _ hq)
    rw [List.foldr_cons, CStr.length_append, List.length_cons, Nat.succ_mul]
    omega

theorem length_timeText (t : Stamp) : (timeText t).length ≤ 198 := by
  have hpad := fun (n : Int32) => length_zeroPadded (show 2 ≤ 10 by decide) n
  have hyear := length_zeroPadded (show 4 ≤ 10 by decide) (t.tmYear + 1900)
  have hmillis := length_zeroPadded (show 3 ≤ 10 by decide) t.millis
  have hpid := Nat.le_trans (length_decimal_le (Nat.le_of_lt t.pid.toNat_lt)) (Nat.le_succ 10)
  have hthread := Nat.le_trans (length_hex t.thread.toNat_lt) (show 8 ≤ 11 by decide)
  refine length_concat (n := 11) (timePieces t) ?_
  simp only [timePieces, List.forall_mem_cons]
  exact ⟨hyear, by decide, hpad _, by decide, hpad _, by decide, hpad _, by decide, hpad _, by decide, hpad _,
    by decide, hmillis, by decide, hpid, by decide, hthread, by decide, fun _ h => absurd h List.not_mem_nil⟩

/-! ## The call -/

def newline : UInt8 := 10

/-- What is given to `fwrite`, if it is called, and the value returned. -/
abbrev Logged := Option Bytes × Int

/-- The end of `logv`: the newline, the terminator, and the file. -/
def endLine (buf : Bytes) (ptr : Int) (prepared : Bool) : Option Logged := do
  let buf ← writeAt buf ptr [newline]
  let ptr := ptr + 1
  let buf ← writeAt buf ptr [0]
  if prepared then some (some (buf.take ptr.toNat), ptr) else some (none, -1)

/-- `logv` behind the level's name. -/
def logMessage (buf : Bytes) (ptr : Int) (msg : CStr) (prepared : Bool) : Option Logged := do
  let space : Int := buf.length - ptr - 2
  let (len, buf) ← vsnprintf buf ptr (sizeT space) msg.chars
  if len < 0 then some (none, -1) else endLine buf (ptr + if len > space then space else len) prepared

/-- No result if a write leaves `buf`. -/
def logv (buf : Bytes) (t : Stamp) (level : Level) (msg : CStr) (prepared : Bool) : Option Logged := do
  let ptr : Int := (timeText t).length
  let buf ← writeAt buf 0 ((timeText t).chars ++ [0])
  let buf ← memcpy buf ptr (levelName level).chars levelNameLen
  logMessage buf (ptr + levelNameLen) msg prepared

/-- The time and the level. -/
def linePrefix (t : Stamp) (level : Level) : CStr := timeText t ++ levelName level

/-- The room for a message: two bytes are for the newline and a terminator. -/
def space (t : Stamp) (level : Level) : Nat := logBufLen - (linePrefix t level).length - 2

/-- The line as it is meant. -/
def cleanLine (t : Stamp) (level : Level) (msg : CStr) : Bytes :=
  (linePrefix t level ++ msg.take (space t level)).chars ++ [newline]

section Call

variable {buf : Bytes} {t : Stamp} {level : Level} {msg : CStr} {prepared : Bool}

theorem length_linePrefix (t : Stamp) (level : Level) : (linePrefix t level).length ≤ 206 := by
  have ht := length_timeText t
  have hl := length_levelName level
  rw [linePrefix, CStr.length_append]
  omega

/-- The prefix is in the buffer, the rest of it is free. -/
theorem logv_eq (hbuf : buf.length = logBufLen) : ∃ rest, (linePrefix t level).length + rest.length = 4096 ∧
    logv buf t level msg prepared =
      logMessage ((linePrefix t level).chars ++ rest) (linePrefix t level).length msg prepared := by
  have ht := length_timeText t
  have hl := length_levelName level
  have hlevel : (levelName level).chars.length = 8 := hl
  have htime : ((timeText t).chars ++ [0]).length = (timeText t).length + 1 := List.length_append
  rw [logBufLen_eq] at hbuf
  obtain ⟨free, hfree⟩ : ∃ free, free = buf.drop ((timeText t).chars ++ [0]).length := ⟨_, rfl⟩
  have hfreeLen : free.length = 4096 - ((timeText t).length + 1) := by
    rw [hfree, List.length_drop, hbuf, htime]
  have hwrite : writeAt buf 0 ((timeText t).chars ++ [0]) = some ((timeText t).chars ++ 0 :: free) := by
    have h : writeAt ([] ++ buf) 0 ((timeText t).chars ++ [0]) = _ := writeAt_append rfl (by omega)
    rw [← hfree] at h
    simpa using h
  have hcopy : memcpy ((timeText t).chars ++ 0 :: free) (timeText t).length (levelName level).chars levelNameLen =
      some ((timeText t).chars ++ (levelName level).chars ++ (0 :: free).drop (levelName level).chars.length) :=
    memcpy_all rfl (congrArg Nat.cast hl.symm) (by rw [List.length_cons]; omega)
  have hptr : ((timeText t).length : Int) + levelNameLen = (linePrefix t level).length := by
    rw [linePrefix, CStr.length_append, hl]
    rfl
  refine ⟨(0 :: free).drop (levelName level).chars.length, ?_, ?_⟩
  · rw [linePrefix, CStr.length_append, List.length_drop, List.length_cons, hlevel]
    omega
  · simp only [logv, hwrite, hcopy, Option.bind_eq_bind, Option.bind_some, hptr]
    rfl

/-- What the end of a call gives for a line of `n` bytes. -/
def logged (prepared : Bool) (line : Bytes) : Logged := if prepared then (some line, line.length) else (none, -1)

theorem endLine_append {start rest : Bytes} (h : 2 ≤ rest.length) :
    endLine (start ++ rest) start.length prepared = some (logged prepared (start ++ [newline])) := by
  have hnewline : writeAt (start ++ rest) start.length [newline] = some (start ++ [newline] ++ rest.drop 1) :=
    writeAt_append rfl (by rw [List.length_singleton]; omega)
  have hlen : ((start ++ [newline]).length : Int) = start.length + 1 := by
    rw [List.length_append, List.length_singleton]
    rfl
  have hnul : writeAt (start ++ [newline] ++ rest.drop 1) (start.length + 1) [0] =
      some (start ++ [newline] ++ [0] ++ (rest.drop 1).drop 1) :=
    writeAt_append hlen.symm (by rw [List.length_singleton, List.length_drop]; omega)
  have hline : (start ++ [newline] ++ [0] ++ (rest.drop 1).drop 1).take ((start.length : Int) + 1).toNat =
      start ++ [newline] := by
    rw [← hlen, Int.toNat_natCast, List.append_assoc (start ++ [newline]), List.take_left]
  simp only [endLine, hnewline, Option.bind_eq_bind, Option.bind_some, hnul, hline]
  rw [logged, hlen]
  split <;> rfl

section Message

variable {start rest : Bytes} {room : Nat}

/-- Longer than an `int` can say: nothing is logged. -/
theorem logMessage_long (h : 2 ^ 31 ≤ msg.length) :
    logMessage (start ++ rest) start.length msg prepared = some (none, -1) := by
  have hprint : ∀ mem off size, vsnprintf mem off size msg.chars = some (-1, mem) := fun mem off size => if_pos h
  simp only [logMessage, hprint, Option.bind_eq_bind, Option.bind_some]
  rfl

/-- The message as `vsnprintf` leaves it, and the cursor that skips the whole space. -/
theorem logMessage_eq (hrest : rest.length = room + 2) (hroom : 0 < room) (hsmall : room < 2 ^ 31)
    (h : msg.length < 2 ^ 31) : ∃ more, (msg.chars.take (room - 1) ++ 0 :: more).length = room + 2 ∧
      logMessage (start ++ rest) start.length msg prepared = endLine (start ++ (msg.chars.take (room - 1) ++ 0 :: more))
        (start.length + min room msg.length : Nat) prepared := by
  obtain ⟨more, hmore, hprint⟩ := @vsnprintf_append start rest msg.chars start.length room rfl hroom (by omega) h
  have hspace : ((start ++ rest).length : Int) - start.length - 2 = room := by
    rw [List.length_append]
    omega
  have hptr : (start.length : Int) + (if (msg.chars.length : Int) > room then (room : Int) else msg.chars.length) =
      (start.length + min room msg.length : Nat) := by
    show (start.length : Int) + (if (msg.length : Int) > room then (room : Int) else msg.length) = _
    split <;> omega
  refine ⟨more, hmore.trans hrest, ?_⟩
  simp only [logMessage, hspace, sizeT_natCast hsmall, hprint, Option.bind_eq_bind, Option.bind_some]
  rw [if_neg (by omega), hptr]

theorem logMessage_short (hrest : rest.length = room + 2) (hsmall : room < 2 ^ 31) (h : msg.length < room) :
    logMessage (start ++ rest) start.length msg prepared =
      some (logged prepared (start ++ msg.chars ++ [newline])) := by
  obtain ⟨more, hmore, hmsg⟩ := @logMessage_eq msg prepared start rest room hrest (by omega) hsmall
    (Nat.lt_trans h hsmall)
  have hlen : msg.chars.length = msg.length := rfl
  rw [List.take_of_length_le (by omega)] at hmore hmsg
  rw [List.length_append] at hmore
  have hptr : start.length + min room msg.length = (start ++ msg.chars).length := by
    rw [List.length_append]
    omega
  rw [hmsg, hptr, ← List.append_assoc]
  exact endLine_append (by omega)

/-- The cursor is one byte behind the terminator. -/
theorem logMessage_cut (hrest : rest.length = room + 2) (hroom : 0 < room) (hsmall : room < 2 ^ 31)
    (h : room ≤ msg.length) (hlong : msg.length < 2 ^ 31) : logMessage (start ++ rest) start.length msg prepared =
      some (logged prepared (start ++ (msg.chars.take (room - 1) ++ [0]) ++ [newline])) := by
  obtain ⟨more, hmore, hmsg⟩ := @logMessage_eq msg prepared start rest room hrest hroom hsmall hlong
  have hlen : msg.chars.length = msg.length := rfl
  have htake : (msg.chars.take (room - 1)).length = room - 1 := by
    rw [List.length_take]
    omega
  rw [List.length_append, List.length_cons] at hmore
  have hptr : start.length + min room msg.length = (start ++ (msg.chars.take (room - 1) ++ [0])).length := by
    simp only [List.length_append, List.length_singleton]
    omega
  have hsplit : start ++ (msg.chars.take (room - 1) ++ 0 :: more) =
      start ++ (msg.chars.take (room - 1) ++ [0]) ++ more := by
    simp
  rw [hmsg, hptr, hsplit]
  exact endLine_append (by omega)

end Message

/-- One line, clean, if the file is there, and none if it is not; the buffer is not left. -/
structure LogOk (buf : Bytes) (t : Stamp) (level : Level) (msg : CStr) (prepared : Bool) : Prop where
  line : ∃ ret, logv buf t level msg prepared = some (if prepared then some (cleanLine t level msg) else none, ret)
  noNul : 0 ∉ cleanLine t level msg

theorem noNul_cleanLine (t : Stamp) (level : Level) (msg : CStr) : 0 ∉ cleanLine t level msg := by
  rw [cleanLine, List.mem_append, List.mem_singleton]
  intro h
  rcases h with h | h
  · exact (linePrefix t level ++ msg.take (space t level)).noNul h
  · exact absurd h (by decide)

/-- The line of a message that does not fit: a terminator stays in it. -/
def cutLine (t : Stamp) (level : Level) (msg : CStr) : Bytes :=
  (linePrefix t level).chars ++ (msg.chars.take (space t level - 1) ++ [0]) ++ [newline]

theorem logv_result (hbuf : buf.length = logBufLen) : logv buf t level msg prepared =
    some (if 2 ^ 31 ≤ msg.length then (none, -1)
      else logged prepared (if msg.length < space t level then cleanLine t level msg else cutLine t level msg)) := by
  obtain ⟨rest, hrest, hlog⟩ : ∃ rest : Bytes, (linePrefix t level).length + rest.length = 4096 ∧
      logv buf t level msg prepared = _ := logv_eq hbuf
  have hp := length_linePrefix t level
  have hspace : space t level = 4096 - (linePrefix t level).length - 2 := rfl
  rw [hlog]
  by_cases hlong : 2 ^ 31 ≤ msg.length
  · rw [if_pos hlong]
    exact logMessage_long hlong
  · rw [if_neg hlong]
    by_cases hfits : msg.length < space t level
    · have hline : cleanLine t level msg = (linePrefix t level).chars ++ msg.chars ++ [newline] := by
        rw [cleanLine, CStr.take_of_length_le (Nat.le_of_lt hfits), CStr.chars_append]
      rw [if_pos hfits, hline]
      exact logMessage_short (by omega) (by omega) hfits
    · rw [if_neg hfits]
      exact logMessage_cut (by omega) (by omega) (by omega) (Nat.not_lt.mp hfits) (Nat.not_le.mp hlong)

theorem logv_iff (hbuf : buf.length = logBufLen) : LogOk buf t level msg prepared ↔
    (prepared = true → msg.length < space t level) := by
  have hp : space t level ≤ 4096 := by
    rw [space, logBufLen_eq]
    omega
  constructor
  · intro ⟨⟨ret, hline⟩, hclean⟩ hprepared
    subst hprepared
    by_contra hcut
    rw [logv_result hbuf, if_neg hcut] at hline
    split at hline
    · cases (Prod.mk.inj (Option.some.inj hline)).1
    · have heq : cutLine t level msg = cleanLine t level msg :=
        Option.some.inj (Prod.mk.inj (Option.some.inj hline)).1
      exact hclean (heq ▸ by simp [cutLine])
  · intro h
    refine ⟨?_, noNul_cleanLine t level msg⟩
    rw [logv_result hbuf]
    cases prepared with
    | false =>
      refine ⟨-1, ?_⟩
      split <;> rfl
    | true =>
      have hfits := h rfl
      rw [if_neg (by omega), if_pos hfits]
      exact ⟨_, rfl⟩

end Call

/-- A reading of the clock, with an empty buffer. -/
def sampleStamp : Stamp := ⟨126, 0, 2, 3, 4, 5, 6, 77, 0xab⟩

example : (timeText sampleStamp).chars = (CStr.lit "2026-01-02 03:04:05.006 77:ab ").chars := by decide +kernel

theorem logv_iff_sample : LogOk (List.replicate logBufLen 0) sampleStamp .warn (CStr.lit "disk full") true := by
  refine (logv_iff (List.length_replicate ..)).mpr fun _ => ?_
  have := length_linePrefix sampleStamp .warn
  have hlen : (CStr.lit "disk full").length = 9 := by decide
  rw [hlen, space, logBufLen_eq]
  omega

/-- A message of `n` letters. -/
def letters (n : Nat) : CStr := ⟨List.replicate n 65, by simp [List.mem_replicate]⟩

theorem length_letters (n : Nat) : (letters n).length = n := List.length_replicate

/-- With 5000 of them the last byte before the newline is the terminator `vsnprintf`
    wrote. -/
theorem full_line_has_nul : ∃ line ret,
    logv (List.replicate logBufLen 0) sampleStamp .warn (letters 5000) true = some (some line, ret) ∧ 0 ∈ line := by
  have hcut : ¬(letters 5000).length < space sampleStamp .warn := by
    rw [length_letters, space, logBufLen_eq]
    omega
  refine ⟨cutLine sampleStamp .warn (letters 5000), (cutLine sampleStamp .warn (letters 5000)).length, ?_,
    by simp [cutLine]⟩
  rw [logv_result (List.length_replicate ..), if_neg (by rw [length_letters]; decide), if_neg hcut]
  rfl

end Ddm.Provider.Log
