/-
  Ddm.Provider.LogFile — the files of the provider's log: `open_log`, `prepare_log`,
  `close_log` and the calls between them, one at a time.

  A file is its inode number, which the kernel gives to no other file while the file has a
  name or is open. Between two calls anything may happen to the names and the contents:
  files are removed, renamed, put in place of others, cut. `localtime` and whether `fopen`
  succeeds are in the call.

  Proved, over any calls and anything between them: a line that is logged becomes the end
  of the file the day's path then names and changes no other; if that file cannot be
  opened nothing is written, and nothing from then on until `open_log`; and the streams
  that are open are the log's own, one at most, and one for each call of `open_log` that
  found one: it sets `fp` to NULL without `fclose` (`lines_placed`).
-/

import Ddm.Lib.Machine
import Ddm.Provider.Log
import Mathlib.Logic.Function.Basic

namespace Ddm.Provider.LogFile

open Ddm.Lib Log

abbrev pathMax : Nat := 4096

instance : NeZero pathMax := ⟨by decide⟩

/-! ## The handle and the file system -/

structure Files where
  /-- The names and the inodes they are of. -/
  names : List (CStr × Nat)
  content : Nat → Bytes

structure LogHandle where
  status : Bool
  /-- The inode of the file the stream is on. -/
  fp : Option Nat
  filenametpl : CStr
  filename : CharBuf pathMax
  inodeValue : Int
  /-- `none` for LEVEL_NONE. -/
  level : Option Level
  deriving DecidableEq

structure World where
  files : Files
  log : LogHandle
  /-- The streams that are open. -/
  streams : Nat
  /-- Those that no pointer is left to. -/
  lost : Nat

def getLevel (levelName : CStr) : Option Level :=
  if levelName = .lit "debug" then some .debug
  else if levelName = .lit "info" then some .info
  else if levelName = .lit "notice" then some .notice
  else if levelName = .lit "warn" then some .warn
  else if levelName = .lit "error" then some .error
  else if levelName = .lit "fatal" then some .fatal
  else none

/-- The values of the levels. -/
def levelValue : Level → Int
  | .debug => 0
  | .info => 1
  | .notice => 2
  | .warn => 3
  | .error => 4
  | .fatal => 5

def getInode (files : Files) (path : CStr) : Int :=
  match files.names.lookup path with
  | some inode => inode
  | none => -1

/-- The fields of `localtime` in a file's name. -/
structure Day where
  tmYear : Int32
  tmMon : Int32
  tmMday : Int32

/-- `%s.%04d%02d%02d` -/
def dayPath (filenametpl : CStr) (day : Day) : CStr :=
  filenametpl ++ .lit "." ++ zeroPadded 4 (day.tmYear + 1900).toInt ++ zeroPadded 2 (day.tmMon + 1).toInt ++
    zeroPadded 2 day.tmMday.toInt

def filePath (log : LogHandle) (day : Day) : CStr := (snprintf pathMax (dayPath log.filenametpl day)).str

/-- What the environment does in a call: the day, whether `fopen` succeeds, and the inode
    of a file it makes. -/
structure Env where
  day : Day
  fopenOk : Bool
  inode : Nat

/-- `fopen` in mode "a". -/
def openFile (files : Files) (path : CStr) (env : Env) : Nat × Files :=
  match files.names.lookup path with
  | some inode => (inode, files)
  | none => (env.inode, ⟨(path, env.inode) :: files.names, Function.update files.content env.inode []⟩)

/-- The other file of `prepare_log`. -/
def switchFile (w : World) (path : CStr) (env : Env) : Int × World :=
  let streams := if w.log.fp.isSome then w.streams - 1 else w.streams
  if env.fopenOk then
    let file := openFile w.files path env
    (0, ⟨file.2, { w.log with
      fp := some file.1
      filename := snprintf pathMax path
      inodeValue := getInode file.2 path }, streams + 1, w.lost⟩)
  else (-1, ⟨w.files, { w.log with fp := none, status := false }, streams, w.lost⟩)

def prepareLog (w : World) (env : Env) : Int × World :=
  let path := filePath w.log env.day
  if path ≠ w.log.filename.str then switchFile w path env
  else
    let curInodeValue := getInode w.files path
    if curInodeValue = -1 ∨ w.log.inodeValue ≠ curInodeValue then switchFile w path env else (0, w)

/-- The level of the log, and the level of a call. -/
def enabled (log : LogHandle) (level : Level) : Bool :=
  log.status && match log.level with
    | some least => decide (levelValue least ≤ levelValue level)
    | none => false

/-- The stream is line buffered: the line is in the file. -/
def fwrite (w : World) (line : Bytes) : Option World :=
  w.log.fp.map fun inode =>
    { w with files :=
      { w.files with content := Function.update w.files.content inode (w.files.content inode ++ line) } }

/-- `log_write`; `buf` is what the stack holds. -/
def logWrite (buf : Bytes) (w : World) (level : Level) (t : Stamp) (msg : CStr) (env : Env) : Option (Int × World) :=
  if enabled w.log level then
    match logv buf t level msg true with
    | none => none
    | some (none, ret) => some (ret, w)
    | some (some line, len) =>
      let prepared := prepareLog w env
      if prepared.1 = 0 then (fwrite prepared.2 line).map fun w => (len, w) else some (-1, prepared.2)
  else some (0, w)

/-- The streams lost when `fp` is set. -/
def lostWith (w : World) : Nat := if w.log.fp.isSome then w.lost + 1 else w.lost

/-- `dirOk` is whether `make_sure_dir` returned 0. -/
def openLog (w : World) (filename levelName : CStr) (dirOk : Bool) : Int × World :=
  let log : LogHandle := ⟨true, none, .lit "", snprintf pathMax (.lit ""), -1, getLevel levelName⟩
  let w := { w with lost := lostWith w }
  if filename.length > pathMax - 25 ∨ dirOk = false then (-1, { w with log := { log with status := false } })
  else (0, { w with log := { log with filenametpl := (snprintf pathMax filename).str } })

def closeLog (w : World) : World :=
  if w.log.status then
    if w.log.fp = none then w
    else { w with log := { w.log with fp := none, status := false }, streams := w.streams - 1 }
  else w

inductive Event where
  | openLog (filename levelName : CStr) (dirOk : Bool)
  | setLogLevel (levelName : CStr)
  | logWrite (buf : Bytes) (level : Level) (t : Stamp) (msg : CStr) (env : Env)
  | closeLog
  /-- What others do. -/
  | outside (files : Files)

def Event.opens : Event → Bool
  | .openLog .. => true
  | _ => false

/-- A file that is made has a number of its own. -/
def Fresh (files : Files) (inode : Nat) : Prop := ∀ x ∈ files.names, x.2 ≠ inode

instance (files : Files) (inode : Nat) : Decidable (Fresh files inode) := List.decidableBAll _ files.names

def step (w : World) : Event → Option World
  | .openLog filename levelName dirOk => some (LogFile.openLog w filename levelName dirOk).2
  | .setLogLevel levelName => some { w with log := { w.log with level := getLevel levelName } }
  | .logWrite buf level t msg env =>
    if buf.length = logBufLen ∧ Fresh w.files env.inode then
      (LogFile.logWrite buf w level t msg env).map (·.2)
    else none
  | .closeLog => some (LogFile.closeLog w)
  | .outside files => some { w with files := files }

/-- `g_log_h` before `open_log`. -/
def start (files : Files) : World := ⟨files, ⟨false, none, .lit "", snprintf pathMax (.lit ""), 0, some .debug⟩, 0, 0⟩

/-! ## The handle -/

variable {w w' : World} {files : Files} {path : CStr} {env : Env} {level : Level}

structure Inv (w : World) : Prop where
  /-- A log that is on has no stream only before its first line. -/
  first : w.log.fp = none → w.log.status = true → w.log.filename.str = .lit ""
  inode : ∀ i, w.log.fp = some i → w.log.inodeValue = i
  streams : w.streams = w.lost + if w.log.fp.isSome then 1 else 0

/-- A log that is off and has no stream. -/
theorem inv_off {w : World} (hoff : w.log.status = false) (hfp : w.log.fp = none) (hstreams : w.streams = w.lost) :
    Inv w where
  first _ hon := absurd (hoff.symm.trans hon) Bool.false_ne_true
  inode _ hi := absurd (hfp.symm.trans hi) (Option.some_ne_none _).symm
  streams := by
    rw [hstreams, hfp]
    rfl

/-- The content the file has in front of a line. -/
def before (files : Files) (path : CStr) : Bytes :=
  match files.names.lookup path with
  | some i => files.content i
  | none => []

/-- The file of `path`, made if it was not there, with `content`. -/
structure Opened (files files' : Files) (path : CStr) (i : Nat) (content : Bytes) : Prop where
  named : files'.names.lookup path = some i
  content : files'.content i = content
  others : ∀ j, j ≠ i → files'.content j = files.content j
  names : ∀ q, q ≠ path → files'.names.lookup q = files.names.lookup q

theorem filePath_ne_nil (log : LogHandle) (day : Day) : filePath log day ≠ .lit "" := by
  intro he
  have hlen := congrArg CStr.length he
  have hdot : (CStr.lit ".").length = 1 := by decide
  have hnil : (CStr.lit "").length = 0 := by decide
  rw [filePath, snprintf, CStr.length_take, hnil] at hlen
  simp only [dayPath, CStr.length_append, hdot] at hlen
  have hmax : pathMax = 4096 := rfl
  omega

theorem openFile_spec (files : Files) (path : CStr) (env : Env) :
    Opened files (openFile files path env).2 path (openFile files path env).1 (before files path) := by
  unfold openFile before
  cases hl : files.names.lookup path with
  | some i => exact ⟨hl, rfl, fun _ _ => rfl, fun _ _ => rfl⟩
  | none =>
    refine ⟨List.lookup_cons_self, Function.update_self .., fun j hj => Function.update_of_ne hj .., fun q hq => ?_⟩
    show List.lookup q ((path, env.inode) :: files.names) = _
    rw [List.lookup_cons, beq_false_of_ne hq]

/-- What `prepare_log` leaves. -/
inductive Prepared (w : World) (path : CStr) (env : Env) : Int × World → Prop
  | failed (log : LogHandle) (hok : env.fopenOk = false) (hstatus : log.status = false) (hfp : log.fp = none) :
      Prepared w path env (-1, ⟨w.files, log, w.lost, w.lost⟩)
  | ready {files : Files} {i : Nat} (log : LogHandle) (hstatus : log.status = true) (hfp : log.fp = some i)
      (hinode : log.inodeValue = i) (hopened : Opened w.files files path i (before w.files path)) :
      Prepared w path env (0, ⟨files, log, w.lost + 1, w.lost⟩)

theorem Inv.closed (h : Inv w) : (if w.log.fp.isSome then w.streams - 1 else w.streams) = w.lost := by
  have hstreams := h.streams
  split
  case isTrue hsome => rw [if_pos hsome] at hstreams; omega
  case isFalse hnone => rw [if_neg hnone] at hstreams; exact hstreams

theorem switchFile_spec (h : Inv w) (hstatus : w.log.status = true) : Prepared w path env (switchFile w path env) := by
  unfold switchFile
  dsimp only
  rw [h.closed]
  split
  case isTrue =>
    have hopened := openFile_spec w.files path env
    refine .ready _ hstatus rfl ?_ hopened
    show getInode (openFile w.files path env).2 path = _
    rw [getInode, hopened.named]
  case isFalse hok => exact .failed _ (Bool.eq_false_iff.mpr hok) rfl rfl

theorem prepareLog_spec (h : Inv w) (hstatus : w.log.status = true) :
    Prepared w (filePath w.log env.day) env (prepareLog w env) := by
  unfold prepareLog
  dsimp only
  split
  case isTrue => exact switchFile_spec h hstatus
  case isFalse hsame =>
    rw [not_not] at hsame
    split
    case isTrue => exact switchFile_spec h hstatus
    case isFalse hkeep =>
      rw [not_or, not_not] at hkeep
      obtain ⟨hthere, hinode⟩ := hkeep
      cases hfp : w.log.fp with
      | none => exact absurd (hsame.trans (h.first hfp hstatus)) (filePath_ne_nil w.log env.day)
      | some i =>
        rw [h.inode i hfp] at hinode
        have hnamed : w.files.names.lookup (filePath w.log env.day) = some i := by
          unfold getInode at hinode hthere
          split at hinode
          case h_1 j hj => rw [hj]; exact congrArg some (Int.ofNat.inj hinode).symm
          case h_2 hnone => rw [hnone] at hthere; exact absurd rfl hthere
        have hstreams := h.streams
        rw [hfp] at hstreams
        have hw : w = ⟨w.files, w.log, w.lost + 1, w.lost⟩ := by
          rw [← show w.streams = w.lost + 1 from hstreams]
        rw [hw]
        refine .ready w.log hstatus hfp (h.inode i hfp) ⟨hnamed, ?_, fun _ _ => rfl, fun _ _ => rfl⟩
        show w.files.content i = before w.files (filePath w.log env.day)
        rw [before, hnamed]

/-! ## A call -/

/-- The line `logv` makes. -/
def lineOf (t : Stamp) (level : Level) (msg : CStr) : Bytes :=
  if msg.length < space t level then cleanLine t level msg else cutLine t level msg

/-- What becomes of a call, with the value it returns. -/
inductive Placed (w : World) (level : Level) (t : Stamp) (msg : CStr) (env : Env) : Int → World → Prop
  /-- The log is off, or not for this level. -/
  | off (hoff : enabled w.log level = false) : Placed w level t msg env 0 w
  | long (hon : enabled w.log level = true) (hlong : 2 ^ 31 ≤ msg.length) : Placed w level t msg env (-1) w
  | failed {log : LogHandle} (hon : enabled w.log level = true) (hok : env.fopenOk = false)
      (hstatus : log.status = false) : Placed w level t msg env (-1) ⟨w.files, log, w.lost, w.lost⟩
  | placed {files : Files} {log : LogHandle} {i : Nat} (hon : enabled w.log level = true) (hstatus : log.status = true)
      (hopened : Opened w.files files (filePath w.log env.day) i
        (before w.files (filePath w.log env.day) ++ lineOf t level msg)) :
      Placed w level t msg env (lineOf t level msg).length ⟨files, log, w.lost + 1, w.lost⟩

theorem Opened.append {files' : Files} {i : Nat} {content : Bytes} (h : Opened files files' path i content)
    (line : Bytes) :
    Opened files { files' with content := Function.update files'.content i (files'.content i ++ line) } path i
      (content ++ line) := by
  refine ⟨h.named, ?_, fun j hj => (Function.update_of_ne hj ..).trans (h.others j hj), h.names⟩
  show Function.update files'.content i _ i = _
  rw [Function.update_self, h.content]

theorem status_of_enabled (h : enabled w.log level = true) : w.log.status = true := (Bool.and_eq_true_iff.mp h).1

theorem logWrite_spec (h : Inv w) {buf : Bytes} (hbuf : buf.length = logBufLen) (level : Level) (t : Stamp)
    (msg : CStr) (env : Env) : ∃ ret w', logWrite buf w level t msg env = some (ret, w') ∧
      Placed w level t msg env ret w' ∧ Inv w' := by
  unfold logWrite
  cases hon : enabled w.log level with
  | false => exact ⟨0, w, rfl, .off hon, h⟩
  | true =>
    rw [if_pos rfl, logv_result hbuf]
    by_cases hlong : 2 ^ 31 ≤ msg.length
    · rw [if_pos hlong]
      exact ⟨-1, w, rfl, .long hon hlong, h⟩
    rw [if_neg hlong]
    have hspec : Prepared w (filePath w.log env.day) env (prepareLog w env) :=
      prepareLog_spec h (status_of_enabled hon)
    have hline : logged true (if msg.length < space t level then cleanLine t level msg else cutLine t level msg) =
        (some (lineOf t level msg), ((lineOf t level msg).length : Int)) := rfl
    simp only [hline]
    generalize prepareLog w env = prepared at hspec
    cases hspec with
    | failed log hok hstatus hfp =>
      exact ⟨_, _, rfl, .failed hon hok hstatus, inv_off hstatus hfp rfl⟩
    | @ready files i log hstatus hfp hinode hopened =>
      refine ⟨_, _, ?_, .placed hon hstatus (hopened.append _), fun hnone => ?_, fun j hj => ?_, ?_⟩
      · rw [if_pos rfl, fwrite, hfp]
        rfl
      · rw [hfp] at hnone
        cases hnone
      · rw [hfp] at hj
        rw [hinode, Option.some.inj hj]
      · rw [hfp]
        rfl

/-! ## A run -/

theorem step_inv {e : Event} (h : Inv w) (hs : step w e = some w') : Inv w' := by
  cases e with
  | openLog filename levelName dirOk =>
    obtain rfl := Option.some.inj hs
    have hstreams : w.streams = lostWith w := by
      rw [h.streams, lostWith]
      split <;> rfl
    unfold LogFile.openLog
    dsimp only
    split
    · exact inv_off rfl rfl hstreams
    · exact ⟨fun _ _ => snprintf_str (by decide), fun _ hi => absurd hi (Option.some_ne_none _).symm, hstreams⟩
  | setLogLevel levelName =>
    obtain rfl := Option.some.inj hs
    exact ⟨h.first, h.inode, h.streams⟩
  | logWrite buf level t msg env =>
    rw [step] at hs
    split at hs
    case isFalse => cases hs
    case isTrue hcall =>
      obtain ⟨r, hr, rfl⟩ := Option.map_eq_some_iff.mp hs
      obtain ⟨ret, w', hcalled, -, hinv⟩ := logWrite_spec h hcall.1 level t msg env
      obtain rfl := Option.some.inj (hcalled.symm.trans hr)
      exact hinv
  | closeLog =>
    obtain rfl := Option.some.inj hs
    unfold LogFile.closeLog
    split
    case isFalse => exact h
    case isTrue =>
      split
      case isTrue => exact h
      case isFalse hfp =>
        have hstreams := h.streams
        rw [if_pos (Option.isSome_iff_ne_none.mpr hfp)] at hstreams
        apply inv_off rfl rfl
        show w.streams - 1 = w.lost
        omega
  | outside files =>
    obtain rfl := Option.some.inj hs
    exact ⟨h.first, h.inode, h.streams⟩

/-- Streams are lost by `open_log` alone. -/
theorem step_lost {e : Event} (h : Inv w) (hs : step w e = some w') :
    w'.lost = w.lost + if e.opens ∧ w.log.fp.isSome then 1 else 0 := by
  cases e with
  | openLog filename levelName dirOk =>
    obtain rfl := Option.some.inj hs
    have hlost : (LogFile.openLog w filename levelName dirOk).2.lost = lostWith w := by
      unfold LogFile.openLog
      dsimp only
      split <;> rfl
    rw [hlost, lostWith]
    by_cases hfp : w.log.fp.isSome
    · rw [if_pos hfp, if_pos ⟨rfl, hfp⟩]
    · rw [if_neg hfp, if_neg fun he => hfp he.2, Nat.add_zero]
  | setLogLevel levelName =>
    obtain rfl := Option.some.inj hs
    rfl
  | logWrite buf level t msg env =>
    rw [step] at hs
    split at hs
    case isFalse => cases hs
    case isTrue hcall =>
      obtain ⟨r, hr, rfl⟩ := Option.map_eq_some_iff.mp hs
      obtain ⟨ret, w', hcalled, hplaced, -⟩ := logWrite_spec h hcall.1 level t msg env
      obtain rfl := Option.some.inj (hcalled.symm.trans hr)
      cases hplaced <;> rfl
  | closeLog =>
    obtain rfl := Option.some.inj hs
    unfold LogFile.closeLog
    split
    · split <;> rfl
    · rfl
  | outside files =>
    obtain rfl := Option.some.inj hs
    rfl

/-- A log that is off stays off. -/
theorem step_off {e : Event} (hs : step w e = some w') (hoff : w.log.status = false)
    (hopen : ∀ filename levelName dirOk, e ≠ .openLog filename levelName dirOk) : w'.log.status = false := by
  cases e with
  | openLog filename levelName dirOk => exact absurd rfl (hopen filename levelName dirOk)
  | setLogLevel levelName =>
    obtain rfl := Option.some.inj hs
    exact hoff
  | logWrite buf level t msg env =>
    rw [step] at hs
    split at hs
    case isFalse => cases hs
    case isTrue =>
      have hnot : enabled w.log level = false := by rw [enabled, hoff, Bool.false_and]
      have hcalled : LogFile.logWrite buf w level t msg env = some (0, w) := by
        rw [LogFile.logWrite, hnot]
        rfl
      rw [hcalled] at hs
      obtain rfl := Option.some.inj hs
      exact hoff
  | closeLog =>
    obtain rfl := Option.some.inj hs
    rw [LogFile.closeLog, hoff]
    exact hoff
  | outside files =>
    obtain rfl := Option.some.inj hs
    exact hoff

/-- After any calls and whatever was done to the files between them, a line that is logged
    is the end of the file the day's path names; a log that cannot open that file writes
    nothing, and is off until it is opened again; and a stream that is open is the log's,
    or `open_log` has lost it. -/
theorem lines_placed {files : Files} {events : List Event} (h : events.foldlM step (start files) = some w) :
    (w.streams = w.lost + if w.log.fp.isSome then 1 else 0) ∧
    (∀ e w', step w e = some w' → w'.lost = w.lost + if e.opens ∧ w.log.fp.isSome then 1 else 0) ∧
    (∀ buf level t msg env, buf.length = logBufLen → ∃ ret w', logWrite buf w level t msg env = some (ret, w') ∧
      Placed w level t msg env ret w') ∧
    ∀ e w', step w e = some w' → w.log.status = false →
      (∀ filename levelName dirOk, e ≠ .openLog filename levelName dirOk) → w'.log.status = false := by
  have hstart : Inv (start files) := inv_off rfl rfl rfl
  have hinv : Inv w := Machine.foldlM_inv (I := fun _ => Inv) hstart (fun _ _ _ _ hs hstep => step_inv hs hstep) h
  refine ⟨hinv.streams, fun _ _ => step_lost hinv, fun buf level t msg env hbuf => ?_, fun _ _ => step_off⟩
  obtain ⟨ret, w', hcalled, hplaced, -⟩ := logWrite_spec hinv hbuf level t msg env
  exact ⟨ret, w', hcalled, hplaced⟩

/-! ### A line, where it is, and `open_log` called behind it -/

def sampleEnv : Env := ⟨⟨124, 2, 1⟩, true, 7⟩

def sampleStamp : Stamp := ⟨124, 2, 1, 10, 20, 30, 5, 77, 26⟩

def sampleOpen : Event := .openLog (.lit "/tmp/p.log") (.lit "info") true

def sampleFiles : Files := ⟨[], fun _ => []⟩

def sampleWorld : World := (openLog (start sampleFiles) (.lit "/tmp/p.log") (.lit "info") true).2

theorem lines_placed_sample : ∃ ret w i,
    logWrite (List.replicate logBufLen 0) sampleWorld .info sampleStamp (.lit "up") sampleEnv = some (ret, w) ∧
      w.files.names.lookup (.lit "/tmp/p.log.20240301") = some i ∧
      w.files.content i = (CStr.lit "2024-03-01 10:20:30.005 77:1a [INFO ] up\n").chars ∧ w.streams = 1 ∧
      ∀ w', step w sampleOpen = some w' → w'.log.fp = none ∧ w'.streams = 1 := by
  have hbuf : (List.replicate logBufLen (0 : UInt8)).length = logBufLen := List.length_replicate
  obtain ⟨-, -, hcalls, -⟩ := @lines_placed sampleWorld sampleFiles [sampleOpen] rfl
  obtain ⟨ret, w, hcalled, hplaced⟩ := hcalls _ .info sampleStamp (.lit "up") sampleEnv hbuf
  have hpath : filePath sampleWorld.log sampleEnv.day = .lit "/tmp/p.log.20240301" := by decide +kernel
  have hline : lineOf sampleStamp .info (.lit "up") =
      (CStr.lit "2024-03-01 10:20:30.005 77:1a [INFO ] up\n").chars := by decide +kernel
  cases hplaced with
  | off hoff => exact absurd hoff (by decide)
  | long _ hlong => exact absurd hlong (by decide)
  | failed _ hok => cases hok
  | @placed files log i _ _ hopened =>
    have hnamed := hopened.named
    have hcontent := hopened.content
    rw [hpath] at hnamed hcontent
    rw [hline] at hcontent
    refine ⟨_, _, i, hcalled, hnamed, hcontent, rfl, fun w' hw => ?_⟩
    obtain rfl := Option.some.inj hw
    exact ⟨rfl, rfl⟩

end Ddm.Provider.LogFile
