/-
  Ddm.Watch.Contexts — the pointers that ZooKeeper holds into `watchers_context_array`.

  `watch_group_change` pushes a context and registers the address of its element with the
  group's watch. The array is a `utarray`: a push that finds it full moves it, and every
  address given out before is one into a freed buffer. `Ddm.Watch.Model` takes a context
  by its path; here it is the pointer, and a step that goes through one into a freed
  buffer is undefined (`none`). The tables and the znodes are left out, so a fetch may
  fail or not as it likes.

  A context is outstanding while ZooKeeper may still hand it back or the event thread is
  at it. Proved: as long as no push moves the array under an outstanding context, in
  every run each armed watch has its group's context and every child event reads the
  group again; and the first push that does leaves a dangling one (`contexts_valid`).
  Eight contexts never move (`valid_of_few`); nine groups in the file do.
-/

import Ddm.Lib.Growable
import Ddm.Watch.Model

namespace Ddm.Watch.Contexts

open Ddm.Lib Ddm.Registry Ddm.Registry.Json

inductive ExecuteType where
  | full
  | increment
  deriving DecidableEq

/-- `change_context`, but for its function, which is the same in all. -/
structure ChangeContext where
  exeType : ExecuteType
  nodeGroupValue : CStr
  deriving DecidableEq

/-- The address a watch hands back, and the group it was registered for; no step reads
    the group. -/
structure Registered where
  cxt : Growable.Ptr
  group : CStr
  deriving DecidableEq

/-- A watch that is armed at a path. -/
structure ArmedWatch where
  path : CStr
  registered : Registered
  deriving DecidableEq

inductive Event where
  | child (registered : Registered)
  | session
  deriving DecidableEq

/-- What a thread has ahead of it. -/
inductive Pc where
  | idle
  /-- `fini_zk_handle`, then `init_zk_handle`. -/
  | reinit
  /-- In `watch_declared_services`, before its lock. -/
  | entering
  /-- `watch_group_change` of each group. -/
  | walking (groups : List CStr)
  /-- `get_children`; `rest` are the groups still to walk, `none` for the event's handler. -/
  | toFetch (registered : Registered) (rest : Option (List CStr))
  | toApply (registered : Registered) (rest : Option (List CStr))
  deriving DecidableEq

structure St (ι : Type) where
  watchersContextArray : Growable ChangeContext
  watches : List ArmedWatch
  queue : List Event
  /-- The handle has a session. -/
  live : Bool
  watchLock : Option (Thread ι)
  pc : Thread ι → Pc

inductive Label (ι : Type) where
  | change (path : CStr)
  | expire
  | deliver
  /-- `kept`: the closed handle's events are still delivered. -/
  | reinit (opened kept : Bool)
  | call (i : ι)
  /-- The file is not there, not changed, or not one. -/
  | giveUp (th : Thread ι)
  | begin (th : Thread ι) (file : Item)
  | push (th : Thread ι)
  | fetch (th : Thread ι) (ok : Bool)
  | apply (th : Thread ι)
  | finish (th : Thread ι)

variable {ι : Type} [DecidableEq ι]

def moveTo (s : St ι) (th : Thread ι) (pc : Pc) : St ι := { s with pc := Function.update s.pc th pc }

/-- After `get_children`: the handler returns, a walk goes on. -/
def Pc.next : Option (List CStr) → Pc
  | none => .idle
  | some rest => .walking rest

def ChangeContext.toIncrement (cxt : ChangeContext) : ChangeContext := { cxt with exeType := .increment }

/-- `none` where the step is not due, and where it is undefined. -/
def step (s : St ι) : Label ι → Option (St ι)
  | .change path =>
    some { s with watches := s.watches.filter (·.path ≠ path)
                  queue := s.queue ++ (s.watches.filter (·.path = path)).map (.child ·.registered) }
  | .expire =>
    if s.live then some { s with live := false, watches := [], queue := s.queue ++ [.session] } else none
  | .deliver =>
    match s.pc none, s.queue with
    | .idle, .child r :: queue =>
      (s.watchersContextArray.write r.cxt .toIncrement).map fun array =>
        moveTo { s with watchersContextArray := array, queue := queue } none (.toFetch r none)
    | .idle, .session :: queue => some (moveTo { s with queue := queue } none .reinit)
    | _, _ => none
  | .reinit opened kept =>
    match s.pc none with
    | .reinit =>
      some (moveTo { s with live := opened, watches := [], queue := if kept then s.queue else [] } none
        (if opened then .entering else .idle))
    | _ => none
  | .call i => if s.pc (some i) = .idle then some (moveTo s (some i) .entering) else none
  | .giveUp th =>
    match s.pc th with
    | .entering => some (moveTo s th .idle)
    | _ => none
  | .begin th file =>
    match s.pc th with
    | .entering =>
      if s.watchLock.isSome then none
      -- the filters it adds are left to `Ddm.Watch.Model`
      else (declareDocument [] file).map fun declared => moveTo { s with watchLock := some th } th (.walking declared.2)
    | _ => none
  | .push th =>
    match s.pc th with
    | .walking (group :: rest) =>
      (contextPath group).bind fun nodeGroupValue =>
        (s.watchersContextArray.push ⟨.full, nodeGroupValue⟩).map fun array =>
          moveTo { s with watchersContextArray := array } th (.toFetch ⟨array.last, group⟩ (some rest))
    | _ => none
  | .fetch th ok =>
    match s.pc th with
    | .toFetch r rest =>
      (s.watchersContextArray.read r.cxt).bind fun cxt =>
        if ok then
          if s.live then some (moveTo { s with watches := ⟨cxt.nodeGroupValue, r⟩ :: s.watches } th (.toApply r rest))
          else none
        else some (moveTo s th (.next rest))
    | _ => none
  | .apply th =>
    match s.pc th with
    -- `get_children` reads the context once more, for `children_change_func_impl`
    | .toApply r rest => (s.watchersContextArray.read r.cxt).map fun _ => moveTo s th (.next rest)
    | _ => none
  | .finish th =>
    match s.pc th with
    | .walking [] => some (moveTo { s with watchLock := none } th .idle)
    | _ => none

/-- Before the first call of `watch_declared_services`. -/
def boot : St ι := ⟨.empty, [], [], true, none, fun _ => .idle⟩

/-! ## Valid contexts -/

/-- What the event thread's handler is at. -/
def Pc.handling : Pc → List Registered
  | .toFetch r none => [r]
  | .toApply r none => [r]
  | _ => []

def Event.registered : Event → List Registered
  | .child r => [r]
  | .session => []

/-- The contexts of the armed watches, of the child events to come and of the one that is
    being handled. -/
def outstanding (s : St ι) : List Registered :=
  s.watches.map (·.registered) ++ s.queue.flatMap Event.registered ++ (s.pc none).handling

/-- The pointer is one into the array, to a context of its group's provider path. -/
def Denotes (array : Growable ChangeContext) (r : Registered) : Prop :=
  ∃ cxt, array.read r.cxt = some cxt ∧ cxt.nodeGroupValue = providerPath r.group

structure Valid (s : St ι) : Prop where
  armed : ∀ w ∈ s.watches, w.path = providerPath w.registered.group ∧ Denotes s.watchersContextArray w.registered
  outstanding : ∀ r ∈ outstanding s, Denotes s.watchersContextArray r
  /-- The next child event gets the event thread to its group's context. -/
  delivers : ∀ r queue, s.pc none = .idle → s.queue = .child r :: queue →
    ∃ t, step s .deliver = some t ∧ t.pc none = .toFetch r none
  /-- From there it reads the group's path again, and arms its watch. -/
  rereads : ∀ r, s.pc none = .toFetch r none → s.live = true →
    ∃ t, step s (.fetch none true) = some t ∧ t.watches = ⟨providerPath r.group, r⟩ :: s.watches

/-- A push that moves the array finds no context outstanding. -/
def Stays (s : St ι) : Label ι → Prop
  | .push _ => s.watchersContextArray.full = true → outstanding s = []
  | _ => True

instance (s : St ι) (a : Label ι) : Decidable (Stays s a) :=
  match a with
  | .push _ => inferInstanceAs (Decidable (s.watchersContextArray.full = true → outstanding s = []))
  | .change _ | .expire | .deliver | .reinit _ _ | .call _ | .giveUp _ | .begin _ _ | .fetch _ _ | .apply _
  | .finish _ => .isTrue trivial

/-! ## What a step can do -/

variable {s t : St ι} {th : Thread ι} {r : Registered}

theorem deliver_cases (h : step s .deliver = some t) : s.pc none = .idle ∧ ∃ queue,
    (∃ r array, s.queue = .child r :: queue ∧ s.watchersContextArray.write r.cxt .toIncrement = some array ∧
        t = moveTo { s with watchersContextArray := array, queue := queue } none (.toFetch r none)) ∨
      s.queue = .session :: queue ∧ t = moveTo { s with queue := queue } none .reinit := by
  simp only [step] at h
  split at h
  · rename_i r queue hpc hq
    obtain ⟨array, hw, rfl⟩ := Option.map_eq_some_iff.mp h
    exact ⟨hpc, queue, Or.inl ⟨r, array, hq, hw, rfl⟩⟩
  · rename_i queue hpc hq
    exact ⟨hpc, queue, Or.inr ⟨hq, (Option.some.inj h).symm⟩⟩
  · cases h

theorem reinit_cases {opened kept : Bool} (h : step s (.reinit opened kept) = some t) : s.pc none = .reinit ∧
    t = moveTo { s with live := opened, watches := [], queue := if kept then s.queue else [] } none
      (if opened then .entering else .idle) := by
  simp only [step] at h
  split at h
  · rename_i hpc
    exact ⟨hpc, (Option.some.inj h).symm⟩
  · cases h

theorem giveUp_cases (h : step s (.giveUp th) = some t) : s.pc th = .entering ∧ t = moveTo s th .idle := by
  simp only [step] at h
  split at h
  · rename_i hpc
    exact ⟨hpc, (Option.some.inj h).symm⟩
  · cases h

theorem begin_cases {file : Item} (h : step s (.begin th file) = some t) : s.pc th = .entering ∧ s.watchLock = none ∧
    ∃ groups, t = moveTo { s with watchLock := some th } th (.walking groups) := by
  simp only [step] at h
  split at h
  · rename_i hpc
    split at h
    · cases h
    · rename_i hlock
      obtain ⟨declared, -, rfl⟩ := Option.map_eq_some_iff.mp h
      exact ⟨hpc, Option.not_isSome_iff_eq_none.mp hlock, declared.2, rfl⟩
  · cases h

theorem push_cases (h : step s (.push th) = some t) : ∃ group rest array, s.pc th = .walking (group :: rest) ∧
    s.watchersContextArray.push ⟨.full, providerPath group⟩ = some array ∧
    t = moveTo { s with watchersContextArray := array } th (.toFetch ⟨array.last, group⟩ (some rest)) := by
  simp only [step] at h
  split at h
  · rename_i group rest hpc
    obtain ⟨nodeGroupValue, hpath, h⟩ := Option.bind_eq_some_iff.mp h
    obtain ⟨rfl, -⟩ := contextPath_eq_some.mp hpath
    obtain ⟨array, hp, rfl⟩ := Option.map_eq_some_iff.mp h
    exact ⟨group, rest, array, hpc, hp, rfl⟩
  · cases h

theorem fetch_cases {ok : Bool} (h : step s (.fetch th ok) = some t) : ∃ r rest cxt, s.pc th = .toFetch r rest ∧
    s.watchersContextArray.read r.cxt = some cxt ∧
    (t = moveTo { s with watches := ⟨cxt.nodeGroupValue, r⟩ :: s.watches } th (.toApply r rest) ∨
      t = moveTo s th (.next rest)) := by
  simp only [step] at h
  split at h
  · rename_i r rest hpc
    obtain ⟨cxt, hr, h⟩ := Option.bind_eq_some_iff.mp h
    refine ⟨r, rest, cxt, hpc, hr, ?_⟩
    split at h
    · split at h
      · exact Or.inl (Option.some.inj h).symm
      · cases h
    · exact Or.inr (Option.some.inj h).symm
  · cases h

theorem apply_cases (h : step s (.apply th) = some t) : ∃ r rest, s.pc th = .toApply r rest ∧
    t = moveTo s th (.next rest) := by
  simp only [step] at h
  split at h
  · rename_i r rest hpc
    obtain ⟨cxt, -, rfl⟩ := Option.map_eq_some_iff.mp h
    exact ⟨r, rest, hpc, rfl⟩
  · cases h

theorem finish_cases (h : step s (.finish th) = some t) :
    s.pc th = .walking [] ∧ t = moveTo { s with watchLock := none } th .idle := by
  simp only [step] at h
  split at h
  · rename_i hpc
    exact ⟨hpc, (Option.some.inj h).symm⟩
  · cases h

/-! ## The contexts that are known -/

/-- What a thread is at, in a handler or in a walk. -/
def Pc.held : Pc → Option Registered
  | .toFetch r _ => some r
  | .toApply r _ => some r
  | _ => none

/-- Some watch, some event or some thread has the context. -/
def Known (s : St ι) (r : Registered) : Prop :=
  (∃ w ∈ s.watches, w.registered = r) ∨ .child r ∈ s.queue ∨ ∃ th, (s.pc th).held = some r

@[simp] theorem held_next (rest : Option (List CStr)) : (Pc.next rest).held = none := by cases rest <;> rfl

theorem held_of_handling {pc : Pc} (h : r ∈ pc.handling) : pc.held = some r := by
  unfold Pc.handling at h
  split at h
  · exact congrArg some (List.mem_singleton.mp h).symm
  · exact congrArg some (List.mem_singleton.mp h).symm
  · cases h

omit [DecidableEq ι] in
theorem mem_outstanding : r ∈ outstanding s ↔
    (∃ w ∈ s.watches, w.registered = r) ∨ .child r ∈ s.queue ∨ r ∈ (s.pc none).handling := by
  have hevent : r ∈ s.queue.flatMap Event.registered ↔ .child r ∈ s.queue := by
    rw [List.mem_flatMap]
    constructor
    · intro h
      obtain ⟨e, he, hr⟩ := h
      cases e with
      | child r' =>
        obtain rfl := List.mem_singleton.mp hr
        exact he
      | session => cases hr
    · intro h
      exact ⟨.child r, h, List.mem_singleton_self r⟩
  rw [outstanding, List.mem_append, List.mem_append, List.mem_map, hevent, or_assoc]

omit [DecidableEq ι] in
theorem known_of_outstanding (h : r ∈ outstanding s) : Known s r := by
  rcases mem_outstanding.mp h with h | h | h
  · exact Or.inl h
  · exact Or.inr (Or.inl h)
  · exact Or.inr (Or.inr ⟨none, held_of_handling h⟩)

/-- A thread that moves knows what was known, and what it is at now. -/
theorem known_moveTo {pc : Pc} (h : Known (moveTo s th pc) r) : Known s r ∨ pc.held = some r := by
  rcases h with h | h | ⟨th', h⟩
  · exact Or.inl (Or.inl h)
  · exact Or.inl (Or.inr (Or.inl h))
  · by_cases e : th' = th
    · subst e
      simp only [moveTo, Function.update_self] at h
      exact Or.inr h
    · simp only [moveTo, Function.update_of_ne e] at h
      exact Or.inl (Or.inr (Or.inr ⟨th', h⟩))

theorem known_of_moveTo {pc : Pc} (hpc : pc.held = none) (h : Known (moveTo s th pc) r) : Known s r := by
  rcases known_moveTo h with h | h
  · exact h
  · rw [hpc] at h
    cases h

/-! ## Every step but a push -/

/-- What every step but a push keeps. -/
structure Frame (s t : St ι) : Prop where
  /-- No context becomes known. -/
  known : ∀ r, Known t r → Known s r
  /-- The array is the same, or a context of it was written to in place. -/
  array : t.watchersContextArray = s.watchersContextArray ∨
    ∃ p, s.watchersContextArray.write p .toIncrement = some t.watchersContextArray
  /-- A watch is there already, or a fetch has armed it with what it read. -/
  watches : ∀ w ∈ t.watches, w ∈ s.watches ∨ Known s w.registered ∧
    ∃ cxt, s.watchersContextArray.read w.registered.cxt = some cxt ∧ w.path = cxt.nodeGroupValue

/-- A thread that moves on without a context, and what it does to the lock. -/
theorem frame_moveTo {pc : Pc} (hpc : pc.held = none) (watchLock : Option (Thread ι)) :
    Frame s (moveTo { s with watchLock := watchLock } th pc) :=
  ⟨fun _ hr => known_of_moveTo hpc hr, Or.inl rfl, fun _ hw => Or.inl hw⟩

theorem frame_change {path : CStr} (h : step s (.change path) = some t) : Frame s t := by
  obtain rfl := Option.some.inj h
  refine ⟨fun r hr => ?_, Or.inl rfl, fun w hw => Or.inl (List.mem_filter.mp hw).1⟩
  rcases hr with ⟨w, hw, rfl⟩ | hr | hr
  · exact Or.inl ⟨w, (List.mem_filter.mp hw).1, rfl⟩
  · rcases List.mem_append.mp hr with hr | hr
    · exact Or.inr (Or.inl hr)
    · obtain ⟨w, hw, he⟩ := List.mem_map.mp hr
      exact Or.inl ⟨w, (List.mem_filter.mp hw).1, Event.child.inj he⟩
  · exact Or.inr (Or.inr hr)

theorem frame_expire (h : step s .expire = some t) : Frame s t := by
  simp only [step, Option.ite_none_right_eq_some, Option.some.injEq] at h
  obtain ⟨-, rfl⟩ := h
  refine ⟨fun r hr => ?_, Or.inl rfl, fun w hw => absurd hw List.not_mem_nil⟩
  rcases hr with ⟨w, hw, -⟩ | hr | hr
  · cases hw
  · rcases List.mem_append.mp hr with hr | hr
    · exact Or.inr (Or.inl hr)
    · cases List.mem_singleton.mp hr
  · exact Or.inr (Or.inr hr)

theorem frame_deliver (h : step s .deliver = some t) : Frame s t := by
  obtain ⟨-, queue, ⟨r', array, hq, hw, rfl⟩ | ⟨hq, rfl⟩⟩ := deliver_cases h
  · refine ⟨fun r hr => ?_, Or.inr ⟨r'.cxt, hw⟩, fun w hw => Or.inl hw⟩
    rcases known_moveTo hr with (hr | hr | hr) | hr
    · exact Or.inl hr
    · exact Or.inr (Or.inl (hq ▸ List.mem_cons_of_mem _ hr))
    · exact Or.inr (Or.inr hr)
    · obtain rfl := Option.some.inj hr
      exact Or.inr (Or.inl (hq ▸ List.mem_cons_self))
  · refine ⟨fun r hr => ?_, Or.inl rfl, fun w hw => Or.inl hw⟩
    rcases known_of_moveTo rfl hr with hr | hr | hr
    · exact Or.inl hr
    · exact Or.inr (Or.inl (hq ▸ List.mem_cons_of_mem _ hr))
    · exact Or.inr (Or.inr hr)

theorem frame_reinit {opened kept : Bool} (h : step s (.reinit opened kept) = some t) : Frame s t := by
  obtain ⟨-, rfl⟩ := reinit_cases h
  refine ⟨fun r hr => ?_, Or.inl rfl, fun w hw => absurd hw List.not_mem_nil⟩
  rcases known_of_moveTo (by cases opened <;> rfl) hr with ⟨w, hw, -⟩ | hr | hr
  · cases hw
  · cases kept with
    | true => exact Or.inr (Or.inl hr)
    | false => cases hr
  · exact Or.inr (Or.inr hr)

theorem frame_fetch {ok : Bool} (h : step s (.fetch th ok) = some t) : Frame s t := by
  obtain ⟨r', rest, cxt, hpc, hread, rfl | rfl⟩ := fetch_cases h
  · have hheld : Known s r' := Or.inr (Or.inr ⟨th, by rw [hpc]; rfl⟩)
    refine ⟨fun r hr => ?_, Or.inl rfl, fun w hw => ?_⟩
    · rcases known_moveTo hr with (⟨w, hw, rfl⟩ | hr | hr) | hr
      · rcases List.mem_cons.mp hw with rfl | hw
        · exact hheld
        · exact Or.inl ⟨w, hw, rfl⟩
      · exact Or.inr (Or.inl hr)
      · exact Or.inr (Or.inr hr)
      · exact Option.some.inj hr ▸ hheld
    · rcases List.mem_cons.mp hw with rfl | hw
      · exact Or.inr ⟨hheld, cxt, hread, rfl⟩
      · exact Or.inl hw
  · exact frame_moveTo (held_next rest) s.watchLock

theorem frame_step {a : Label ι} (ha : ∀ th, a ≠ .push th) (h : step s a = some t) : Frame s t := by
  cases a with
  | change path => exact frame_change h
  | expire => exact frame_expire h
  | deliver => exact frame_deliver h
  | reinit opened kept => exact frame_reinit h
  | call i =>
    simp only [step, Option.ite_none_right_eq_some, Option.some.injEq] at h
    obtain ⟨-, rfl⟩ := h
    exact frame_moveTo rfl s.watchLock
  | giveUp th =>
    obtain ⟨-, rfl⟩ := giveUp_cases h
    exact frame_moveTo rfl s.watchLock
  | begin th file =>
    obtain ⟨-, -, groups, rfl⟩ := begin_cases h
    exact frame_moveTo rfl (some th)
  | push th => exact absurd rfl (ha th)
  | fetch th ok => exact frame_fetch h
  | apply th =>
    obtain ⟨r', rest, -, rfl⟩ := apply_cases h
    exact frame_moveTo (held_next rest) s.watchLock
  | finish th =>
    obtain ⟨-, rfl⟩ := finish_cases h
    exact frame_moveTo rfl none

omit [DecidableEq ι] in
theorem Frame.buffer (hf : Frame s t) : t.watchersContextArray.buffer = s.watchersContextArray.buffer := by
  rcases hf.array with e | ⟨p, hw⟩
  · rw [e]
  · exact (Growable.write_cases hw).1

omit [DecidableEq ι] in
theorem Frame.capacity (hf : Frame s t) : t.watchersContextArray.capacity = s.watchersContextArray.capacity := by
  rcases hf.array with e | ⟨p, hw⟩
  · rw [e]
  · exact (Growable.write_cases hw).2.1

omit [DecidableEq ι] in
theorem Frame.denotes (hf : Frame s t) (hr : Denotes s.watchersContextArray r) : Denotes t.watchersContextArray r := by
  rcases hf.array with e | ⟨p, hw⟩
  · rw [e]
    exact hr
  · obtain ⟨cxt, hread, hpath⟩ := hr
    rcases Growable.read_write hw hread with hread | hread
    · exact ⟨cxt, hread, hpath⟩
    · exact ⟨cxt.toIncrement, hread, hpath⟩

/-! ## The lock -/

/-- In the walk of `watch_declared_services`, which holds the lock. -/
def Pc.inWalk : Pc → Bool
  | .walking _ => true
  | .toFetch _ rest => rest.isSome
  | .toApply _ rest => rest.isSome
  | _ => false

/-- A walk has the lock to itself, and only the event thread handles events. -/
structure Locked (s : St ι) : Prop where
  walk : ∀ th, (s.pc th).inWalk = true → s.watchLock = some th
  handler : ∀ i, (s.pc (some i)).handling = []

theorem locked_moveTo {pc : Pc} (hothers : ∀ th', th' ≠ th → (s.pc th').inWalk = true → s.watchLock = some th')
    (hhandler : ∀ i, (s.pc (some i)).handling = []) (hwalk : pc.inWalk = true → s.watchLock = some th)
    (hpc : th ≠ none → pc.handling = []) : Locked (moveTo s th pc) := by
  constructor
  · intro th' h
    by_cases e : th' = th
    · subst e
      simp only [moveTo, Function.update_self] at h
      exact hwalk h
    · simp only [moveTo, Function.update_of_ne e] at h
      exact hothers th' e h
  · intro i
    by_cases e : some i = th
    · subst e
      simp only [moveTo, Function.update_self]
      exact hpc (Option.some_ne_none i)
    · simp only [moveTo, Function.update_of_ne e]
      exact hhandler i

theorem Locked.moveTo (hi : Locked s) {pc : Pc} (hwalk : pc.inWalk = true → s.watchLock = some th)
    (hpc : th ≠ none → pc.handling = []) : Locked (moveTo s th pc) :=
  locked_moveTo (fun th' _ => hi.walk th') hi.handler hwalk hpc

omit [DecidableEq ι] in
theorem Locked.of_ne_none (hi : Locked s) (h : th ≠ none) : (s.pc th).handling = [] := by
  cases th with
  | none => exact absurd rfl h
  | some i => exact hi.handler i

theorem inWalk_next {rest : Option (List CStr)} : (Pc.next rest).inWalk = rest.isSome := by cases rest <;> rfl

theorem handling_next (rest : Option (List CStr)) : (Pc.next rest).handling = [] := by cases rest <;> rfl

theorem locked_step {a : Label ι} (hi : Locked s) (h : step s a = some t) : Locked t := by
  cases a with
  | change path =>
    obtain rfl := Option.some.inj h
    exact ⟨hi.walk, hi.handler⟩
  | expire =>
    simp only [step, Option.ite_none_right_eq_some, Option.some.injEq] at h
    obtain ⟨-, rfl⟩ := h
    exact ⟨hi.walk, hi.handler⟩
  | deliver =>
    obtain ⟨-, queue, ⟨r', array, -, -, rfl⟩ | ⟨-, rfl⟩⟩ := deliver_cases h
    · exact locked_moveTo (fun th' _ => hi.walk th') hi.handler Bool.noConfusion (absurd rfl)
    · exact locked_moveTo (fun th' _ => hi.walk th') hi.handler Bool.noConfusion (absurd rfl)
  | reinit opened kept =>
    obtain ⟨-, rfl⟩ := reinit_cases h
    refine locked_moveTo (fun th' _ => hi.walk th') hi.handler (fun hw => ?_) (absurd rfl)
    cases opened <;> cases hw
  | call i =>
    simp only [step, Option.ite_none_right_eq_some, Option.some.injEq] at h
    obtain ⟨-, rfl⟩ := h
    exact hi.moveTo Bool.noConfusion fun _ => rfl
  | giveUp th =>
    obtain ⟨-, rfl⟩ := giveUp_cases h
    exact hi.moveTo Bool.noConfusion fun _ => rfl
  | begin th file =>
    obtain ⟨-, hfree, groups, rfl⟩ := begin_cases h
    refine locked_moveTo (fun th' _ hw => ?_) hi.handler (fun _ => rfl) fun _ => rfl
    -- nobody else is in a walk: the lock was free
    have hlock := hi.walk th' hw
    rw [hfree] at hlock
    cases hlock
  | push th =>
    obtain ⟨group, rest, array, hpc, -, rfl⟩ := push_cases h
    exact locked_moveTo (fun th' _ => hi.walk th') hi.handler (fun _ => hi.walk th (by rw [hpc]; rfl)) fun _ => rfl
  | fetch th ok =>
    obtain ⟨r', rest, cxt, hpc, -, rfl | rfl⟩ := fetch_cases h
    · have hmine : rest.isSome = true → s.watchLock = some th := fun hw => hi.walk th (by rw [hpc]; exact hw)
      refine locked_moveTo (fun th' _ => hi.walk th') hi.handler hmine fun hth => ?_
      have hh := hi.of_ne_none hth
      rw [hpc] at hh
      cases rest with
      | none => cases hh
      | some rest => rfl
    · exact hi.moveTo (fun hw => hi.walk th (by rw [hpc]; exact inWalk_next.symm.trans hw)) fun _ => handling_next rest
  | apply th =>
    obtain ⟨r', rest, hpc, rfl⟩ := apply_cases h
    exact hi.moveTo (fun hw => hi.walk th (by rw [hpc]; exact inWalk_next.symm.trans hw)) fun _ => handling_next rest
  | finish th =>
    obtain ⟨hpc, rfl⟩ := finish_cases h
    refine locked_moveTo (fun th' hne hw => ?_) hi.handler Bool.noConfusion fun _ => rfl
    -- the lock was this thread's
    have hmine := hi.walk th (by rw [hpc]; rfl)
    rw [hi.walk th' hw] at hmine
    exact absurd (Option.some.inj hmine) hne

/-! ## A push -/

/-- Out of a walk, a thread is at a context as the handler of its event. -/
theorem handling_of_held {pc : Pc} (h : pc.held = some r) (hw : pc.inWalk = false) : r ∈ pc.handling := by
  cases pc with
  | toFetch r' rest =>
    obtain rfl := Option.some.inj h
    cases rest with
    | none => exact List.mem_singleton_self _
    | some rest => cases hw
  | toApply r' rest =>
    obtain rfl := Option.some.inj h
    cases rest with
    | none => exact List.mem_singleton_self _
    | some rest => cases hw
  | idle => cases h
  | reinit => cases h
  | entering => cases h
  | walking groups => cases h

/-- Whoever pushes has the lock, so what else is known is outstanding. -/
theorem known_push (hi : Locked s) (h : step s (.push th) = some t) (hr : Known t r) :
    r ∈ outstanding s ∨ t.watchersContextArray.read r.cxt = some ⟨.full, providerPath r.group⟩ := by
  obtain ⟨group, rest, array, hpc, hpush, rfl⟩ := push_cases h
  have hmine := hi.walk th (by rw [hpc]; rfl)
  rcases hr with hr | hr | ⟨th', hr⟩
  · exact Or.inl (mem_outstanding.mpr (Or.inl hr))
  · exact Or.inl (mem_outstanding.mpr (Or.inr (Or.inl hr)))
  · by_cases e : th' = th
    · subst e
      simp only [moveTo, Function.update_self, Pc.held, Option.some.injEq] at hr
      subst hr
      exact Or.inr (Growable.read_last hpush)
    · simp only [moveTo, Function.update_of_ne e] at hr
      have hnot : (s.pc th').inWalk = false := by
        by_contra hw
        rw [hi.walk th' (Bool.not_eq_false _ ▸ hw)] at hmine
        exact e (Option.some.inj hmine)
      have hhandling := handling_of_held hr hnot
      cases th' with
      | none => exact Or.inl (mem_outstanding.mpr (Or.inr (Or.inr hhandling)))
      | some i =>
        rw [hi.handler i] at hhandling
        cases hhandling

theorem outstanding_push (h : step s (.push th) = some t) (hr : r ∈ outstanding s) : r ∈ outstanding t := by
  obtain ⟨group, rest, array, hpc, -, rfl⟩ := push_cases h
  rw [mem_outstanding] at hr ⊢
  refine hr.imp_right (Or.imp_right fun hr => ?_)
  by_cases e : none = th
  · subst e
    rw [hpc] at hr
    cases hr
  · simp only [moveTo, Function.update_of_ne e]
    exact hr

/-! ## Every run -/

/-- Whatever the run, the pointers are into the array or into buffers before it. -/
structure Past (s : St ι) : Prop where
  locked : Locked s
  past : ∀ r, Known s r → r.cxt.buffer ≤ s.watchersContextArray.buffer

omit [DecidableEq ι] in
theorem not_known_boot (h : Known (boot : St ι) r) : False := by
  rcases h with ⟨w, hw, -⟩ | hr | ⟨th, hr⟩
  · cases hw
  · cases hr
  · cases hr

omit [DecidableEq ι] in
theorem past_boot : Past (boot : St ι) :=
  ⟨⟨fun _ h => absurd h Bool.noConfusion, fun _ => rfl⟩, fun _ h => (not_known_boot h).elim⟩

theorem past_step {a : Label ι} (hi : Past s) (h : step s a = some t) : Past t := by
  refine ⟨locked_step hi.locked h, fun r hr => ?_⟩
  by_cases ha : ∃ th, a = .push th
  · obtain ⟨th, rfl⟩ := ha
    rcases known_push hi.locked h hr with hout | hnew
    · obtain ⟨group, rest, array, -, hpush, rfl⟩ := push_cases h
      exact (hi.past r (known_of_outstanding hout)).trans (Growable.buffer_le_push hpush)
    · exact (Growable.read_eq_some.mp hnew).1.le
  · have hf := frame_step (fun th e => ha ⟨th, e⟩) h
    rw [hf.buffer]
    exact hi.past r (hf.known r hr)

/-- A push that moves the array under an outstanding context leaves it dangling. -/
theorem not_valid_of_moved {a : Label ι} (hi : Past s) (h : step s a = some t) (ha : ¬Stays s a) : ¬Valid t := by
  intro hvalid
  cases a with
  | push th =>
    obtain ⟨hfull, hne⟩ := Classical.not_imp.mp ha
    obtain ⟨r, hr⟩ := List.exists_mem_of_ne_nil _ hne
    obtain ⟨cxt, hread, -⟩ := hvalid.outstanding r (outstanding_push h hr)
    obtain ⟨group, rest, array, -, hpush, rfl⟩ := push_cases h
    have hnone : array.read r.cxt = none := Growable.read_push_full hfull hpush (hi.past r (known_of_outstanding hr))
    exact Option.some_ne_none cxt (hread.symm.trans hnone)
  | change path => exact ha trivial
  | expire => exact ha trivial
  | deliver => exact ha trivial
  | reinit opened kept => exact ha trivial
  | call i => exact ha trivial
  | giveUp th => exact ha trivial
  | begin th file => exact ha trivial
  | fetch th ok => exact ha trivial
  | apply th => exact ha trivial
  | finish th => exact ha trivial

/-! ## The runs that keep the array in its place -/

structure Kept (s : St ι) : Prop where
  past : Past s
  denotes : ∀ r, Known s r → Denotes s.watchersContextArray r
  paths : ∀ w ∈ s.watches, w.path = providerPath w.registered.group

omit [DecidableEq ι] in
theorem kept_boot : Kept (boot : St ι) :=
  ⟨past_boot, fun _ h => (not_known_boot h).elim, fun _ h => absurd h List.not_mem_nil⟩

theorem kept_push (hi : Kept s) (hok : Stays s (.push th)) (h : step s (.push th) = some t) : Kept t := by
  refine ⟨past_step hi.past h, fun r hr => ?_, ?_⟩
  · rcases known_push hi.past.locked h hr with hout | hnew
    · obtain ⟨cxt, hread, hpath⟩ := hi.denotes r (known_of_outstanding hout)
      have hroom : s.watchersContextArray.full = false := by
        by_contra hfull
        rw [hok (Bool.not_eq_false _ ▸ hfull)] at hout
        cases hout
      obtain ⟨group, rest, array, -, hpush, rfl⟩ := push_cases h
      exact ⟨cxt, Growable.read_push hroom hpush hread, hpath⟩
    · exact ⟨_, hnew, rfl⟩
  · obtain ⟨group, rest, array, -, -, rfl⟩ := push_cases h
    exact hi.paths

theorem kept_step {a : Label ι} (hi : Kept s) (hok : Stays s a) (h : step s a = some t) : Kept t := by
  by_cases ha : ∃ th, a = .push th
  · obtain ⟨th, rfl⟩ := ha
    exact kept_push hi hok h
  · have hf := frame_step (fun th e => ha ⟨th, e⟩) h
    refine ⟨past_step hi.past h, fun r hr => hf.denotes (hi.denotes r (hf.known r hr)), fun w hw => ?_⟩
    rcases hf.watches w hw with hw | ⟨hknown, cxt, hread, hpath⟩
    · exact hi.paths w hw
    · obtain ⟨cxt', hread', hpath'⟩ := hi.denotes _ hknown
      obtain rfl := Option.some.inj (hread.symm.trans hread')
      exact hpath.trans hpath'

theorem Kept.valid (hi : Kept s) : Valid s := by
  refine ⟨fun w hw => ⟨hi.paths w hw, hi.denotes _ (Or.inl ⟨w, hw, rfl⟩)⟩,
    fun r hr => hi.denotes r (known_of_outstanding hr), fun r queue hpc hq => ?_, fun r hpc hlive => ?_⟩
  · obtain ⟨cxt, hread, -⟩ := hi.denotes r (Or.inr (Or.inl (hq ▸ List.mem_cons_self)))
    obtain ⟨array, hw⟩ := Growable.write_of_read (f := .toIncrement) hread
    refine ⟨moveTo { s with watchersContextArray := array, queue := queue } none (.toFetch r none), ?_, ?_⟩
    · simp only [step, hpc, hq, hw, Option.map_some]
    · simp only [moveTo, Function.update_self]
  · obtain ⟨cxt, hread, hpath⟩ := hi.denotes r (Or.inr (Or.inr ⟨none, by rw [hpc]; rfl⟩))
    refine ⟨moveTo { s with watches := ⟨cxt.nodeGroupValue, r⟩ :: s.watches } none (.toApply r none), ?_, ?_⟩
    · simp only [step, hpc, hread, hlive, Option.bind_some, if_true]
    · rw [hpath]
      rfl

/-! ## Eight contexts -/

/-- There is no buffer yet, and no context, or there is room for eight. -/
def Roomy (s : St ι) : Prop :=
  s.watchersContextArray.capacity = 0 ∧ (∀ r, ¬Known s r) ∨ 8 ≤ s.watchersContextArray.capacity

omit [DecidableEq ι] in
theorem Roomy.stays (hi : Roomy s) {a : Label ι}
    (hfew : ∀ th, a = .push th → s.watchersContextArray.elems.length < 8) : Stays s a := by
  cases a with
  | push th =>
    intro hfull
    rcases hi with ⟨-, hnone⟩ | hroom
    · exact List.eq_nil_iff_forall_not_mem.mpr fun r hr => hnone r (known_of_outstanding hr)
    · have hlen := hfew th rfl
      have hcap := of_decide_eq_true hfull
      omega
  | _ => trivial

theorem roomy_step {a : Label ι} (hi : Roomy s) (h : step s a = some t) : Roomy t := by
  by_cases ha : ∃ th, a = .push th
  · obtain ⟨th, rfl⟩ := ha
    obtain ⟨group, rest, array, -, hpush, rfl⟩ := push_cases h
    refine Or.inr ?_
    rcases (Growable.push_cases hpush).2 with ⟨hroom, -, hcap⟩ | ⟨-, -, hgrow⟩
    · -- an array without a buffer is full
      rcases hi with ⟨h0, -⟩ | h8
      · have := of_decide_eq_false hroom
        omega
      · exact h8.trans hcap.ge
    · unfold Growable.grow at hgrow
      show 8 ≤ array.capacity
      rcases hi with ⟨h0, -⟩ | h8
      · rw [if_pos h0, Option.some.injEq] at hgrow
        omega
      · rw [if_neg (by omega), Option.ite_none_right_eq_some, Option.some.injEq] at hgrow
        omega
  · have hf := frame_step (fun th e => ha ⟨th, e⟩) h
    unfold Roomy
    rw [hf.capacity]
    exact hi.imp_left fun hnone => ⟨hnone.1, fun r hr => hnone.2 r (hf.known r hr)⟩

/-- Up to eight calls of `watch_group_change` in all, whoever makes them. -/
theorem valid_of_few {s : St ι}
    (h : Machine.Reach step (fun s a => ∀ th, a = .push th → s.watchersContextArray.elems.length < 8) boot s) :
    Valid s := by
  have hi := h.inv (I := fun s => Kept s ∧ Roomy s) ⟨kept_boot, Or.inl ⟨rfl, fun r hr => not_known_boot hr⟩⟩
    fun s a t hi hfew hs => ⟨kept_step hi.1 (hi.2.stays hfew) hs, roomy_step hi.2 hs⟩
  exact hi.1.valid

/-! ## The condition -/

theorem contexts_valid : (∀ s : St ι, Machine.Reach step Stays boot s → Valid s) ∧
    ∀ (s : St ι) a t, Machine.Reach step (fun _ _ => True) boot s → step s a = some t → ¬Stays s a → ¬Valid t := by
  constructor
  · intro s h
    exact (h.inv kept_boot fun s a t hi hok hs => kept_step hi hok hs).valid
  · intro s a t h hs ha
    exact not_valid_of_moved (h.inv past_boot fun s a t hi _ hs => past_step hi hs) hs ha

/-- A services file of these groups, without services. -/
def fileOf (groups : List CStr) : Item :=
  .array (groups.map fun group => .object [(lGroup, .string group), (lServices, .array [])])

def nineGroups : List CStr :=
  [.lit "a", .lit "b", .lit "c", .lit "d", .lit "e", .lit "f", .lit "g", .lit "h", .lit "i"]

/-- A thread walks over `n` groups. -/
def walk (th : Thread ι) (n : Nat) : List (Label ι) := (List.replicate n [.push th, .fetch th true, .apply th]).flatten

/-- Eight groups and a child event of the first; and the ninth group's push. -/
theorem contexts_valid_sample :
    (∃ s : St (Fin 1), (∃ r, s.pc none = .toFetch r none ∧ r.group = .lit "a") ∧ s.watches.length = 7 ∧ Valid s) ∧
      ∃ s : St (Fin 1), s.watches.length = 8 ∧ ∃ t, step s (.push (some 0)) = some t ∧ ¬Valid t := by
  constructor
  · have hrun : (Machine.exec step Stays (boot : St (Fin 1)) (.call 0 :: .begin (some 0) (fileOf (nineGroups.take 8)) ::
        walk (some 0) 8 ++ [.finish (some 0), .change (.lit "/a/providers"), .deliver])).any (fun s => decide
          (s.pc none = .toFetch ⟨⟨1, 0⟩, .lit "a"⟩ none ∧ s.watches.length = 7)) = true := by decide +kernel
    obtain ⟨s, hreach, hs⟩ := Machine.reach_of_exec_any hrun
    have hs := of_decide_eq_true hs
    exact ⟨s, ⟨_, hs.1, rfl⟩, hs.2, contexts_valid.1 s hreach⟩
  · have hrun : (Machine.exec step (fun _ _ => True) (boot : St (Fin 1)) (.call 0 ::
        .begin (some 0) (fileOf nineGroups) :: walk (some 0) 8)).any (fun s => decide
          (s.watches.length = 8 ∧ (step s (.push (some 0))).isSome = true ∧ ¬Stays s (.push (some 0)))) = true := by
      decide +kernel
    obtain ⟨s, hreach, hs⟩ := Machine.reach_of_exec_any hrun
    have hs := of_decide_eq_true hs
    obtain ⟨t, ht⟩ := Option.isSome_iff_exists.mp hs.2.1
    exact ⟨s, hs.1, t, ht, contexts_valid.2 s _ t hreach ht hs.2.2⟩

/-- At startup the ninth context moves the array under the first eight. -/
theorem ninth_group_dangles :
    ¬∀ s : St (Fin 1), Machine.Reach step (fun _ _ => True) boot s → Valid s := by
  intro hall
  have hrun : (Machine.exec step (fun _ _ => True) (boot : St (Fin 1))
      (.call 0 :: .begin (some 0) (fileOf nineGroups) :: walk (some 0) 9)).any (fun s =>
        s.watches.any fun w => (s.watchersContextArray.read w.registered.cxt).isNone) = true := by decide +kernel
  obtain ⟨s, hreach, hs⟩ := Machine.reach_of_exec_any hrun
  obtain ⟨w, hw, hnone⟩ := List.any_eq_true.mp hs
  obtain ⟨cxt, hread, -⟩ := ((hall s hreach).armed w hw).2
  rw [hread] at hnone
  cases hnone

end Ddm.Watch.Contexts
