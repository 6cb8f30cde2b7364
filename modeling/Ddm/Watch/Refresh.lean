/-
  Ddm.Watch.Refresh — `watch_declared_services` and the file it reads, which may be
  rewritten between any two of a call's steps.

  Callers (the main thread, the checker thread, a signal, the event thread) take
  `global_watch_lock` in turn. A call looks at the modification time, reads the file,
  applies what it read, and looks at the modification time again, which it then records.
  `applied` is the content the declarations were last taken from. A rewrite gives the file
  a time it has not had, and never 0, which stands for a file that could not be opened.

  Proved: while no rewrite changes the content between a call's read and its last look,
  what a call applies is the file's content when it returns; the recorded time is then the
  file's only if the file's content is applied, and a call that returns early leaves
  nothing out. A rewrite in between leads on to a recorded time whose content is not
  applied (`recorded_is_applied`), as in `rewrite_is_skipped`.
-/

import Ddm.Lib.Machine
import Ddm.Watch.Declare

namespace Ddm.Watch

open Ddm.Lib Ddm.Registry Ddm.Registry.Json
open Machine (Reach exec)

namespace Refresh

structure File where
  content : Bytes
  modified : Int
  deriving DecidableEq

/-- Where a caller is in `watch_declared_services`. -/
inductive Pc where
  | idle
  | waiting (forceRefresh : Bool)
  | locked (forceRefresh : Bool)
  | reading
  | parsing (content : Bytes)
  | watched
  deriving DecidableEq

structure St where
  file : File
  /-- The times the file has had, and 0. -/
  times : List Int
  globalConfigFileLastModified : Int
  serviceFilters : List ServiceInfo
  watchedPaths : List CStr
  applied : Option Bytes
  /-- The file's content at the last look that ended a call. -/
  looked : Option Bytes
  watchLock : Option Nat
  pc : Nat → Pc
  /-- What a caller's last call returned. -/
  returned : Nat → Option Int

inductive Label where
  | rewrite (content : Bytes) (modified : Int)
  | call (w : Nat) (forceRefresh pathExists : Bool)
  | lock (w : Nat)
  | stat (w : Nat) (opened : Bool)
  | read (w : Nat) (opened : Bool)
  | apply (w : Nat)
  | finalStat (w : Nat) (opened : Bool)
  deriving DecidableEq

def getFileLastModified (file : File) (opened : Bool) : Int := if opened then file.modified else 0

/-- `fread` of no bytes is no success. -/
def readContentFromFile (file : File) (opened : Bool) : Option Bytes :=
  if opened ∧ file.content ≠ [] then some file.content else none

def moveTo (s : St) (w : Nat) (pc : Pc) : St := { s with pc := Function.update s.pc w pc }

/-- `watch_unlock` and return. -/
def leave (s : St) (w : Nat) (ret : Int) : St :=
  { s with watchLock := none, pc := Function.update s.pc w .idle, returned := Function.update s.returned w (some ret) }

/-- `none` where the step is not due, and where the document crashes the process. -/
def step (parse : Parse) (s : St) : Label → Option St
  | .rewrite content modified =>
    if modified ∈ s.times then none else some { s with file := ⟨content, modified⟩, times := modified :: s.times }
  | .call w forceRefresh pathExists =>
    if s.pc w = .idle then
      if pathExists then some (moveTo s w (.waiting forceRefresh))
      else some { s with returned := Function.update s.returned w (some (-1)) }
    else none
  | .lock w =>
    match s.pc w, s.watchLock with
    | .waiting forceRefresh, none => some (moveTo { s with watchLock := some w } w (.locked forceRefresh))
    | _, _ => none
  | .stat w opened =>
    match s.pc w with
    | .locked forceRefresh =>
      if forceRefresh = false ∧ getFileLastModified s.file opened = s.globalConfigFileLastModified then some (leave s w 0)
      else some (moveTo s w .reading)
    | _ => none
  | .read w opened =>
    match s.pc w with
    | .reading =>
      match readContentFromFile s.file opened with
      | some content => some (moveTo s w (.parsing content))
      | none => some (leave s w (-1))
    | _ => none
  | .apply w =>
    match s.pc w with
    | .parsing content =>
      match parse (CStr.ofBytes content) with
      | none => some (leave s w (-1))
      | some root =>
        (watchDocument s.serviceFilters root).map fun (serviceFilters, paths) =>
          moveTo { s with serviceFilters := serviceFilters, watchedPaths := s.watchedPaths ++ paths,
                          applied := some content } w .watched
    | _ => none
  | .finalStat w opened =>
    match s.pc w with
    | .watched =>
      some (leave { s with globalConfigFileLastModified := getFileLastModified s.file opened,
                           looked := some s.file.content } w 0)
    | _ => none

def boot (file : File) : St :=
  ⟨file, [file.modified, 0], 0, [], [], none, none, none, fun _ => .idle, fun _ => none⟩

/-! ## Rewrites in between -/

/-- A caller here has read the file, and gets to its last look with what it read. -/
def Pc.pending (parse : Parse) (serviceFilters : List ServiceInfo) : Pc → Bool
  | .parsing content => ((parse (CStr.ofBytes content)).bind (watchDocument serviceFilters)).isSome
  | .watched => true
  | _ => false

/-- No caller is between its read and its last look. -/
def nonePending (parse : Parse) (s : St) : Bool :=
  match s.watchLock with
  | some w => !(s.pc w).pending parse s.serviceFilters
  | none => true

/-- A rewrite keeps the content while a caller is between its read and its last look; and
    no call that need not refresh fails to open the file at its first look while 0 is
    recorded, unless the file is as it was when a call last looked at its end. -/
def Undisturbed (parse : Parse) (s : St) : Label → Prop
  | .rewrite content _ => content = s.file.content ∨ nonePending parse s = true
  | .stat w false => s.pc w = .locked false → s.globalConfigFileLastModified = 0 → s.looked = some s.file.content
  | _ => True

instance (parse : Parse) (s : St) (a : Label) : Decidable (Undisturbed parse s a) :=
  match a with
  | .rewrite .. => inferInstanceAs (Decidable (_ ∨ _))
  | .stat _ false => inferInstanceAs (Decidable (_ → _ → _))
  | .stat _ true => isTrue trivial
  | .finalStat .. => isTrue trivial
  | .call .. => isTrue trivial
  | .lock .. => isTrue trivial
  | .read .. => isTrue trivial
  | .apply .. => isTrue trivial

/-! ## The invariant -/

def Pc.inside : Pc → Prop
  | .idle => False
  | .waiting _ => False
  | _ => True

structure Inv (parse : Parse) (s : St) : Prop where
  recorded : s.globalConfigFileLastModified ∈ s.times
  modified : s.file.modified ∈ s.times
  zero : 0 ∈ s.times
  opened : s.file.modified ≠ 0
  locked : ∀ w, (s.pc w).inside → s.watchLock = some w
  /-- What a call is going to apply is the file's content. -/
  parsing : ∀ w content, s.pc w = .parsing content → (s.pc w).pending parse s.serviceFilters = true →
    content = s.file.content
  watched : ∀ w, s.pc w = .watched → s.applied = some s.file.content
  looked : (∀ w, s.pc w ≠ .watched) → s.applied = s.looked
  current : s.globalConfigFileLastModified = s.file.modified → s.applied = some s.file.content

variable {parse : Parse} {s t : St} {w : Nat} {a : Label}

theorem Inv.holder (hi : Inv parse s) {v : Nat} (hw : (s.pc w).inside) (hv : (s.pc v).inside) : v = w :=
  Option.some.inj ((hi.locked v hv).symm.trans (hi.locked w hw))

theorem moveTo_pc (pc : Pc) (v : Nat) : (moveTo s w pc).pc v = if v = w then pc else s.pc v := Function.update_apply ..

/-- A caller that is not at its last look moves on, and not to it. -/
theorem Inv.moveTo (hi : Inv parse s) {pc : Pc} (hw : s.pc w ≠ .watched) (hpc : pc ≠ .watched)
    (hl : pc.inside → s.watchLock = some w) (hp : ∀ content, pc = .parsing content → content = s.file.content) :
    Inv parse (moveTo s w pc) := by
  refine ⟨hi.recorded, hi.modified, hi.zero, hi.opened, fun v hv => ?_, fun v content hv hpend => ?_, fun v hv => ?_,
    fun h => hi.looked fun v hv => ?_, hi.current⟩
  · rw [moveTo_pc] at hv
    split at hv
    · rename_i e
      rw [e]
      exact hl hv
    · exact hi.locked v hv
  · rw [moveTo_pc] at hv hpend
    split at hv
    · exact hp content hv
    · rename_i e
      rw [if_neg e] at hpend
      exact hi.parsing v content hv hpend
  · rw [moveTo_pc] at hv
    split at hv
    · exact absurd hv hpc
    · exact hi.watched v hv
  · have e : v ≠ w := fun e => hw (by rw [← e]; exact hv)
    refine h v ?_
    rw [moveTo_pc, if_neg e]
    exact hv

/-- The caller that leaves had the lock, so nobody else is inside. -/
theorem Inv.leave (hi : Inv parse s) (hw : (s.pc w).inside) (ret : Int) {modified : Int} {looked : Option Bytes}
    (hm : modified ∈ s.times) (hl : s.applied = looked)
    (hc : modified = s.file.modified → s.applied = some s.file.content) :
    Inv parse (leave { s with globalConfigFileLastModified := modified, looked := looked } w ret) := by
  have hout : ∀ v p, Function.update s.pc w .idle v = p → ¬p.inside := fun v p hp hv => by
    subst hp
    by_cases e : v = w
    · rw [e, Function.update_self] at hv
      exact hv
    · rw [Function.update_of_ne e] at hv
      exact e (hi.holder hw hv)
  exact ⟨hm, hi.modified, hi.zero, hi.opened, fun v hv => absurd hv (hout v _ rfl),
    fun v content hv => absurd trivial (hout v _ hv), fun v hv => absurd trivial (hout v _ hv), fun _ => hl, hc⟩

/-- An early return, or a call that fails. -/
theorem Inv.giveUp (hi : Inv parse s) (hw : (s.pc w).inside) (hne : s.pc w ≠ .watched) (ret : Int) :
    Inv parse (Refresh.leave s w ret) := by
  refine hi.leave hw ret hi.recorded (hi.looked fun v hv => ?_) hi.current
  obtain rfl := hi.holder hw (v := v) (by rw [hv]; trivial)
  exact hne hv

theorem pending_holder (hlock : s.watchLock = some w) (hp : (s.pc w).pending parse s.serviceFilters = true) :
    nonePending parse s = false := by
  unfold nonePending
  rw [hlock]
  exact congrArg Bool.not hp

/-- A rewrite leaves nothing recorded as current. -/
theorem Inv.rewrite (hi : Inv parse s) {content : Bytes} {modified : Int} (hm : modified ∉ s.times)
    (hok : content = s.file.content ∨ nonePending parse s = true) :
    Inv parse { s with file := ⟨content, modified⟩, times := modified :: s.times } := by
  have hne : s.globalConfigFileLastModified ≠ modified := fun e => hm (e ▸ hi.recorded)
  have hkept : ∀ w, (s.pc w).inside → (s.pc w).pending parse s.serviceFilters = true → content = s.file.content := by
    intro w hin hp
    refine hok.resolve_right fun h => ?_
    rw [pending_holder (hi.locked w hin) hp] at h
    cases h
  refine ⟨List.mem_cons_of_mem _ hi.recorded, List.mem_cons_self, List.mem_cons_of_mem _ hi.zero,
    fun e => hm ((show modified = 0 from e) ▸ hi.zero), hi.locked, fun w c hw hp => ?_, fun w hw => ?_, hi.looked,
    fun h => absurd h hne⟩
  · exact (hi.parsing w c hw hp).trans (hkept w (by rw [hw]; trivial) hp).symm
  · rw [hi.watched w hw]
    exact congrArg some (hkept w (by rw [hw]; trivial) (by rw [hw]; rfl)).symm

theorem Inv.apply (hi : Inv parse s) {content : Bytes} {root : Item} {serviceFilters : List ServiceInfo}
    {paths : List CStr} (hpc : s.pc w = .parsing content) (hparse : parse (CStr.ofBytes content) = some root)
    (hwatch : watchDocument s.serviceFilters root = some (serviceFilters, paths)) :
    Inv parse (Refresh.moveTo { s with serviceFilters := serviceFilters, watchedPaths := s.watchedPaths ++ paths,
                                       applied := some content } w .watched) := by
  have hin : (s.pc w).inside := by rw [hpc]; trivial
  have hcontent : content = s.file.content := by
    refine hi.parsing w content hpc ?_
    rw [hpc]
    show (Option.bind (parse (CStr.ofBytes content)) _).isSome = true
    rw [hparse, Option.bind_some, hwatch]
    rfl
  subst hcontent
  have hout : ∀ v, v ≠ w → ¬(s.pc v).inside := fun v hne hv => hne (hi.holder hin hv)
  refine ⟨hi.recorded, hi.modified, hi.zero, hi.opened, fun v hv => ?_, fun v c hv => ?_, fun _ _ => rfl,
    fun h => absurd ((moveTo_pc _ w).trans (if_pos rfl)) (h w), fun _ => rfl⟩
  · by_cases e : v = w
    · rw [e]
      exact hi.locked w hin
    · rw [moveTo_pc, if_neg e] at hv
      exact absurd hv (hout v e)
  · rw [moveTo_pc] at hv
    split at hv
    · cases hv
    · rename_i e
      have hv : s.pc v = .parsing c := hv
      exact absurd (by rw [hv]; trivial) (hout v e)

theorem Inv.stat (hi : Inv parse s) {opened forceRefresh : Bool} (hok : Undisturbed parse s (.stat w opened))
    (hpc : s.pc w = .locked forceRefresh) (hf : forceRefresh = false)
    (he : getFileLastModified s.file opened = s.globalConfigFileLastModified) : s.applied = some s.file.content := by
  subst hf
  cases opened with
  | true => exact hi.current he.symm
  | false =>
    refine (hi.looked fun v hv => ?_).trans (hok hpc he.symm)
    obtain rfl := hi.holder (w := w) (v := v) (by rw [hpc]; trivial) (by rw [hv]; trivial)
    exact nomatch hpc.symm.trans hv

theorem Inv.step (hi : Inv parse s) (hok : Undisturbed parse s a) (h : step parse s a = some t) : Inv parse t := by
  cases a with
  | rewrite content modified =>
    simp only [Refresh.step] at h
    split at h
    · cases h
    · rename_i hm
      cases h
      exact hi.rewrite hm hok
  | call w forceRefresh pathExists =>
    simp only [Refresh.step] at h
    split at h
    · rename_i hidle
      split at h
      · cases h
        exact hi.moveTo (by rw [hidle]; nofun) nofun (fun hin => hin.elim) nofun
      · cases h
        exact ⟨hi.recorded, hi.modified, hi.zero, hi.opened, hi.locked, hi.parsing, hi.watched, hi.looked, hi.current⟩
    · cases h
  | lock w =>
    simp only [Refresh.step] at h
    split at h
    · rename_i forceRefresh hpc hfree
      cases h
      have hout : ∀ v, ¬ (s.pc v).inside := fun v hv => by
        have := hi.locked v hv
        rw [hfree] at this
        cases this
      have hi' : Inv parse { s with watchLock := some w } :=
        ⟨hi.recorded, hi.modified, hi.zero, hi.opened, fun v hv => absurd hv (hout v), hi.parsing, hi.watched,
          hi.looked, hi.current⟩
      exact hi'.moveTo (by rw [hpc]; nofun) nofun (fun _ => rfl) nofun
    · cases h
  | stat w opened =>
    simp only [Refresh.step] at h
    split at h
    · rename_i forceRefresh hpc
      have hin : (s.pc w).inside := by rw [hpc]; trivial
      have hne : s.pc w ≠ .watched := by rw [hpc]; nofun
      split at h
      · cases h
        exact hi.giveUp hin hne 0
      · cases h
        exact hi.moveTo hne nofun (fun _ => hi.locked w hin) nofun
    · cases h
  | read w opened =>
    simp only [Refresh.step] at h
    split at h
    · rename_i hpc
      have hin : (s.pc w).inside := by rw [hpc]; trivial
      have hne : s.pc w ≠ .watched := by rw [hpc]; nofun
      split at h
      · rename_i content hread
        cases h
        have hc : content = s.file.content := by
          unfold readContentFromFile at hread
          split at hread
          · exact (Option.some.inj hread).symm
          · cases hread
        exact hi.moveTo hne nofun (fun _ => hi.locked w hin) (fun _ hp => by cases hp; exact hc)
      · cases h
        exact hi.giveUp hin hne (-1)
    · cases h
  | apply w =>
    simp only [Refresh.step] at h
    split at h
    · rename_i content hpc
      have hin : (s.pc w).inside := by rw [hpc]; trivial
      split at h
      · cases h
        exact hi.giveUp hin (by rw [hpc]; nofun) (-1)
      · rename_i root hparse
        obtain ⟨⟨serviceFilters, paths⟩, hwatch, rfl⟩ := Option.map_eq_some_iff.mp h
        exact hi.apply hpc hparse hwatch
    · cases h
  | finalStat w opened =>
    simp only [Refresh.step] at h
    split at h
    · rename_i hpc
      cases h
      have hwatched := hi.watched w hpc
      refine hi.leave (by rw [hpc]; trivial) 0 ?_ hwatched fun _ => hwatched
      cases opened with
      | true => exact hi.modified
      | false => exact hi.zero
    · cases h

theorem inv_of_reach {file : File} (h0 : file.modified ≠ 0)
    (h : Reach (step parse) (Undisturbed parse) (boot file) s) : Inv parse s := by
  refine h.inv (I := Inv parse) ?_ fun s a t hi hok hst => hi.step hok hst
  exact ⟨by simp [boot], by simp [boot], by simp [boot], h0, fun _ hin => hin.elim, nofun, nofun, fun _ => rfl,
    fun hr => absurd hr.symm h0⟩

/-! ## What a disturbance leads on to -/

theorem finalStat_records {content : Bytes} (hpc : s.pc w = .watched) (happlied : s.applied = some content)
    (hne : content ≠ s.file.content) : ∃ u, Reach (step parse) (Undisturbed parse) s u ∧ u.returned w = some 0 ∧
      u.globalConfigFileLastModified = u.file.modified ∧ u.applied ≠ some u.file.content := by
  have hs : step parse s (.finalStat w true) =
      some (leave { s with globalConfigFileLastModified := getFileLastModified s.file true,
                           looked := some s.file.content } w 0) := by
    simp only [step, hpc]
  refine ⟨_, .next (.finalStat w true) .start trivial hs, Function.update_self .., rfl, fun h => ?_⟩
  exact hne (Option.some.inj (happlied.symm.trans h))

/-- The content is changed before the call gets to its last look. -/
theorem rewrite_leads_on (hi : Inv parse s) {content : Bytes} {modified : Int}
    (hok : ¬Undisturbed parse s (.rewrite content modified)) (h : step parse s (.rewrite content modified) = some t) :
    ∃ w u, Reach (step parse) (Undisturbed parse) t u ∧ u.returned w = some 0 ∧
      u.globalConfigFileLastModified = u.file.modified ∧ u.applied ≠ some u.file.content := by
  simp only [Undisturbed, not_or, Bool.not_eq_true, nonePending] at hok
  obtain ⟨hne, hpend⟩ := hok
  simp only [step] at h
  split at h
  · cases h
  · cases h
    split at hpend
    case h_2 => cases hpend
    case h_1 w hlock =>
      rw [Bool.not_eq_false'] at hpend
      refine ⟨w, ?_⟩
      cases hpc : s.pc w <;> rw [hpc] at hpend
      case watched => exact finalStat_records hpc (hi.watched w hpc) fun e => hne e.symm
      case parsing read =>
        have hread : read = s.file.content := hi.parsing w read hpc (by rw [hpc]; exact hpend)
        obtain ⟨⟨serviceFilters, paths⟩, hdoc⟩ := Option.isSome_iff_exists.mp hpend
        obtain ⟨root, hparse, hwatch⟩ := Option.bind_eq_some_iff.mp hdoc
        let rewritten : St := { s with file := ⟨content, modified⟩, times := modified :: s.times }
        let applied : St := { rewritten with serviceFilters := serviceFilters,
                                             watchedPaths := s.watchedPaths ++ paths, applied := some read }
        have hs : step parse rewritten (.apply w) = some (moveTo applied w .watched) := by
          simp only [step, rewritten, hpc, hparse, hwatch, Option.map_some, applied]
        have hnext : (moveTo applied w .watched).pc w = .watched := (moveTo_pc _ w).trans (if_pos rfl)
        have hfar : read ≠ content := fun e => hne (e.symm.trans hread)
        obtain ⟨u, hu, hbad⟩ := @finalStat_records parse _ _ _ hnext rfl hfar
        exact ⟨u, (Reach.next (.apply w) .start trivial hs).trans hu, hbad⟩
      all_goals cases hpend

/-- The file cannot be opened, and is taken for one that has never been recorded. -/
theorem stat_leaves_out (hi : Inv parse s) (hok : ¬Undisturbed parse s (.stat w false))
    (h : step parse s (.stat w false) = some t) :
    t.pc w = .idle ∧ t.returned w = some 0 ∧ t.applied ≠ some t.file.content := by
  simp only [Undisturbed, not_forall] at hok
  obtain ⟨hpc, hzero, hlooked⟩ := hok
  have happlied : s.applied = s.looked := hi.looked fun v hv => by
    obtain rfl := hi.holder (w := w) (v := v) (by rw [hpc]; trivial) (by rw [hv]; trivial)
    exact nomatch hpc.symm.trans hv
  simp only [step, hpc] at h
  rw [if_pos ⟨trivial, hzero.symm⟩] at h
  obtain rfl := Option.some.inj h
  exact ⟨Function.update_self .., Function.update_self .., fun e => hlooked (happlied.symm.trans e)⟩

/-! ## What is recorded and what is applied -/

/-- In the runs in which no rewrite comes between a call's read and its last look the
    recorded time is the file's only if its content is applied, and so it is when a call
    returns early; a rewrite in between leads on to a call that records the time of what
    it did not apply, and an early return with nothing recorded and a file that cannot be
    opened leaves its content out. -/
theorem recorded_is_applied {file : File} (h0 : file.modified ≠ 0)
    (h : Reach (step parse) (Undisturbed parse) (boot file) s) :
    (s.globalConfigFileLastModified = s.file.modified → s.applied = some s.file.content) ∧
    (∀ w opened t, Undisturbed parse s (.stat w opened) → s.pc w = .locked false →
      step parse s (.stat w opened) = some t → t.pc w = .idle → t.applied = some t.file.content) ∧
    (∀ content modified t, step parse s (.rewrite content modified) = some t →
      ¬Undisturbed parse s (.rewrite content modified) →
      ∃ w u, Reach (step parse) (Undisturbed parse) t u ∧ u.returned w = some 0 ∧
        u.globalConfigFileLastModified = u.file.modified ∧ u.applied ≠ some u.file.content) ∧
    ∀ w t, step parse s (.stat w false) = some t → ¬Undisturbed parse s (.stat w false) →
      t.pc w = .idle ∧ t.returned w = some 0 ∧ t.applied ≠ some t.file.content := by
  have hi := inv_of_reach h0 h
  refine ⟨hi.current, fun w opened t hok hpc hst hidle => ?_, fun _ _ _ hst hok => rewrite_leads_on hi hok hst,
    fun _ _ hst hok => stat_leaves_out hi hok hst⟩
  simp only [step, hpc, true_and] at hst
  split at hst
  · rename_i he
    cases hst
    exact hi.stat hok hpc rfl he
  · cases hst
    simp only [moveTo, Function.update_self] at hidle
    cases hidle

/-! ## Runs -/

def emptyFile : Bytes := (CStr.lit "[]").chars
def oneGroup : Bytes := (CStr.lit "[\x7b\"group\":\"g\",\"services\":[]\x7d]").chars

/-- What `cJSON_Parse` makes of the two. -/
def sampleParse : Parse := fun text =>
  if text.chars = emptyFile then some (.array [])
  else if text.chars = oneGroup then
    some (.array [.object [(.lit "group", .string (.lit "g")), (.lit "services", .array [])]])
  else none

/-- A call, a rewrite, and a call that finds and applies it. -/
def refreshRun : List Label :=
  [.call 0 true true, .lock 0, .stat 0 true, .read 0 true, .apply 0, .finalStat 0 true, .rewrite oneGroup 200,
    .call 1 false true, .lock 1, .stat 1 true, .read 1 true, .apply 1, .finalStat 1 true]

theorem recorded_is_applied_sample : ∃ s : St, s.globalConfigFileLastModified = 200 ∧ s.file.modified = 200 ∧
    s.file.content = oneGroup ∧ s.applied = some oneGroup := by
  have hrun : (exec (step sampleParse) (Undisturbed sampleParse) (boot ⟨emptyFile, 100⟩) refreshRun).any (fun s =>
      decide (s.globalConfigFileLastModified = 200 ∧ s.file = ⟨oneGroup, 200⟩)) = true := by decide +kernel
  obtain ⟨s, hreach, hs⟩ := Machine.reach_of_exec_any hrun
  obtain ⟨hr, hf⟩ := of_decide_eq_true hs
  have happlied := (recorded_is_applied (by decide) hreach).1 (by rw [hr, hf])
  rw [hf] at happlied
  exact ⟨s, hr, by rw [hf], by rw [hf], happlied⟩

/-- The first call reads the file without the group; the file is rewritten before the
    call ends, and the second call finds nothing new. -/
theorem rewrite_is_skipped : ∃ s, Reach (step sampleParse) (fun _ _ => True) (boot ⟨emptyFile, 100⟩) s ∧
    s.returned 0 = some 0 ∧ s.globalConfigFileLastModified = s.file.modified ∧ s.applied = some emptyFile ∧
    s.file.content = oneGroup ∧ s.returned 1 = some 0 ∧ s.watchedPaths = [] := by
  have hrun : (exec (step sampleParse) (fun _ _ => True) (boot ⟨emptyFile, 100⟩)
      [.call 0 true true, .lock 0, .stat 0 true, .read 0 true, .rewrite oneGroup 200, .apply 0, .finalStat 0 true,
        .call 1 false true, .lock 1, .stat 1 true]).any (fun s =>
      decide (s.returned 0 = some 0 ∧ s.globalConfigFileLastModified = s.file.modified ∧ s.applied = some emptyFile ∧
        s.file.content = oneGroup ∧ s.returned 1 = some 0 ∧ s.watchedPaths = [])) = true := by decide +kernel
  obtain ⟨s, hreach, hs⟩ := Machine.reach_of_exec_any hrun
  exact ⟨s, hreach, of_decide_eq_true hs⟩

end Refresh

end Ddm.Watch
