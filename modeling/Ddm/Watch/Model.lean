/-
  Ddm.Watch.Model — the watches of the declared groups: ZooKeeper, the event thread and
  the threads that call `watch_declared_services`.

  ZooKeeper: a successful `zoo_wget_children2` arms one watch of the path; a change of the
  children uses up the path's watches and queues one child event for each; the end of
  a session drops all watches and queues a session event. A fetch of a path that does
  not exist fails.

  The event thread takes one event at a time. A child event makes it read its path
  again, a session event close the handle, open another and watch all groups anew. The
  other threads (startup, the checker, the signal) call `watch_declared_services`, which
  holds `global_watch_lock` throughout. `get_children` is two steps: the fetch, and
  `children_change_func_impl` on what was fetched. A context is taken by its path.

  Proved: what each step can do (`deliver_cases`, `reinit_cases`, `begin_cases`,
  `fetch_cases`, `apply_cases`, `finish_cases`), from which the invariants of
  `Ddm.Watch.Agreement` and `Ddm.Watch.Coverage` follow.
-/

import Ddm.Lib.Machine
import Ddm.Registry.ChildrenChange
import Ddm.Watch.Declare

namespace Ddm.Watch

open Ddm.Lib Ddm.Registry Ddm.Registry.Json

/-- `none` is the event thread, the others are callers. -/
abbrev Thread (ι : Type) := Option ι

inductive Event where
  | child (path : CStr)
  | session
  deriving DecidableEq

/-- The children of a path, and how often they have changed. -/
structure Znode where
  names : List CStr
  cversion : Nat
  deriving DecidableEq

/-- What a thread has ahead of it. -/
inductive Pc where
  | idle
  /-- `fini_zk_handle`, then `init_zk_handle`. -/
  | reinit
  /-- In `watch_declared_services`, before its lock. -/
  | entering (forceRefresh : Bool)
  /-- `get_children` of each path; `walk` if they are `watch_declared_services`'s. -/
  | toFetch (paths : List CStr) (walk : Bool)
  | toApply (path : CStr) (node : Znode) (rest : List CStr) (walk : Bool)
  deriving DecidableEq

structure St (ι : Type) where
  znodes : CStr → Option Znode
  armed : CStr → Nat
  queue : List Event
  /-- The handle has a session. -/
  live : Bool
  /-- What `cJSON_Parse` makes of the services file. -/
  file : Item
  /-- The file's time is not the recorded one. -/
  modified : Bool
  agent : Agent
  /-- The versions applied to a path, the last one first; no step reads them. -/
  applied : CStr → List Nat
  /-- The paths of `watchers_context_array`. -/
  watched : List CStr
  watchLock : Option (Thread ι)
  pc : Thread ι → Pc
  /-- Some call of `watch_declared_services` has returned 0. -/
  succeeded : Bool

/-- How `watch_declared_services` finds the file. -/
inductive Found where
  | missing
  | unreadable
  | parsed
  deriving DecidableEq

inductive Label (ι : Type) where
  | change (path : CStr) (names : List CStr)
  | expire
  | deliver
  /-- `kept`: the closed handle's events are still delivered. An `init_zk_handle` that fails
      at `exist_node`, with its handle open, counts as one that opened none: it leaves a
      dead handle, and reads fail from then on. -/
  | reinit (opened kept : Bool)
  | touch
  | rewrite (file : Item)
  | call (i : ι) (forceRefresh : Bool)
  | begin (th : Thread ι) (found : Found)
  | fetch (th : Thread ι) (ok : Bool)
  | apply (th : Thread ι)
  | finish (th : Thread ι)

variable {ι : Type} [DecidableEq ι]

def moveTo (s : St ι) (th : Thread ι) (pc : Pc) : St ι := { s with pc := Function.update s.pc th pc }

/-- `watch_declared_services` returns. -/
def leave (s : St ι) (th : Thread ι) (ret : Int) : St ι :=
  moveTo { s with succeeded := s.succeeded || ret == 0 } th .idle

/-- After a path's turn: a handler that has read its path returns. -/
def Pc.next (rest : List CStr) (walk : Bool) : Pc := if rest = [] ∧ walk = false then .idle else .toFetch rest walk

def Znode.changed (old : Option Znode) (names : List CStr) : Znode := ⟨names, (old.map (·.cversion + 1)).getD 0⟩

/-- `none` where the step is not due, and where a document crashes the process. -/
def step (parse : Parse) (s : St ι) : Label ι → Option (St ι)
  | .change path names =>
    some { s with znodes := Function.update s.znodes path (some (.changed (s.znodes path) names))
                  armed := Function.update s.armed path 0
                  queue := s.queue ++ List.replicate (s.armed path) (.child path) }
  | .expire =>
    if s.live then some { s with live := false, armed := fun _ => 0, queue := s.queue ++ [.session] } else none
  | .deliver =>
    match s.pc none, s.queue with
    | .idle, .child path :: queue => some (moveTo { s with queue := queue } none (.toFetch [path] false))
    | .idle, .session :: queue => some (moveTo { s with queue := queue } none .reinit)
    | _, _ => none
  | .reinit opened kept =>
    match s.pc none with
    | .reinit =>
      some (moveTo { s with live := opened, armed := fun _ => 0, queue := if kept then s.queue else [] } none
        (if opened then .entering true else .idle))
    | _ => none
  | .touch => some { s with modified := true }
  | .rewrite file => some { s with file := file, modified := true }
  | .call i forceRefresh => if s.pc (some i) = .idle then some (moveTo s (some i) (.entering forceRefresh)) else none
  | .begin th found =>
    match s.pc th with
    | .entering forceRefresh =>
      if found = .missing then some (leave s th (-1))
      else if s.watchLock.isSome then none
      else if forceRefresh = false ∧ s.modified = false then some (leave s th 0)
      else if found = .unreadable then some (leave s th (-1))
      else (watchDocument s.agent.serviceFilters s.file).map fun (serviceFilters, paths) =>
        moveTo { s with agent := { s.agent with serviceFilters := serviceFilters }, watched := s.watched ++ paths,
                        watchLock := some th } th (.toFetch paths true)
    | _ => none
  | .fetch th ok =>
    match s.pc th with
    | .toFetch (path :: rest) walk =>
      if ok then
        if s.live then (s.znodes path).map fun node =>
          moveTo { s with armed := Function.update s.armed path (s.armed path + 1) } th (.toApply path node rest walk)
        else none
      else some (moveTo s th (.next rest walk))
    | _ => none
  | .apply th =>
    match s.pc th with
    | .toApply path node rest walk =>
      (childrenChangeFuncImpl parse s.agent path node.names).map fun agent =>
        moveTo { s with agent := agent, applied := Function.update s.applied path (node.cversion :: s.applied path) } th
          (.next rest walk)
    | _ => none
  | .finish th =>
    match s.pc th with
    | .toFetch [] true => some (leave { s with modified := false, watchLock := none } th 0)
    | _ => none

/-- Before the first call of `watch_declared_services`. -/
def boot (file : Item) (znodes : CStr → Option Znode) : St ι :=
  ⟨znodes, fun _ => 0, [], true, file, true, .init, fun _ => [], [], none, fun _ => .idle, false⟩

/-! ## What a step can do -/

variable {parse : Parse} {s t : St ι} {th : Thread ι}

theorem deliver_cases (h : step parse s .deliver = some t) : s.pc none = .idle ∧ ∃ queue,
    (∃ path, s.queue = .child path :: queue ∧ t = moveTo { s with queue := queue } none (.toFetch [path] false)) ∨
      s.queue = .session :: queue ∧ t = moveTo { s with queue := queue } none .reinit := by
  simp only [step] at h
  split at h
  · rename_i path queue hpc hq
    exact ⟨hpc, queue, Or.inl ⟨path, hq, (Option.some.inj h).symm⟩⟩
  · rename_i queue hpc hq
    exact ⟨hpc, queue, Or.inr ⟨hq, (Option.some.inj h).symm⟩⟩
  · cases h

theorem reinit_cases {opened kept : Bool} (h : step parse s (.reinit opened kept) = some t) : s.pc none = .reinit ∧
    t = moveTo { s with live := opened, armed := fun _ => 0, queue := if kept then s.queue else [] } none
      (if opened then .entering true else .idle) := by
  simp only [step] at h
  split at h
  · rename_i hpc
    exact ⟨hpc, (Option.some.inj h).symm⟩
  · cases h

/-- A call gives up, has nothing to do, or takes the lock and the file's groups. -/
theorem begin_cases {found : Found} (h : step parse s (.begin th found) = some t) : ∃ forceRefresh,
    s.pc th = .entering forceRefresh ∧
      (found ≠ .parsed ∧ t = leave s th (-1) ∨
        forceRefresh = false ∧ s.modified = false ∧ t = leave s th 0 ∨
        found = .parsed ∧ s.watchLock = none ∧ ∃ serviceFilters paths,
          watchDocument s.agent.serviceFilters s.file = some (serviceFilters, paths) ∧
          t = moveTo { s with agent := { s.agent with serviceFilters := serviceFilters }, watched := s.watched ++ paths,
                              watchLock := some th } th (.toFetch paths true)) := by
  simp only [step] at h
  split at h
  · rename_i forceRefresh hpc
    refine ⟨forceRefresh, hpc, ?_⟩
    split at h
    · rename_i hf
      exact Or.inl ⟨by rw [hf]; exact Found.noConfusion, (Option.some.inj h).symm⟩
    · rename_i hmissing
      split at h
      · cases h
      · rename_i hlock
        split at h
        · rename_i hskip
          exact Or.inr (Or.inl ⟨hskip.1, hskip.2, (Option.some.inj h).symm⟩)
        · split at h
          · rename_i hf
            exact Or.inl ⟨by rw [hf]; exact Found.noConfusion, (Option.some.inj h).symm⟩
          · rename_i hunreadable
            obtain ⟨⟨serviceFilters, paths⟩, hd, rfl⟩ := Option.map_eq_some_iff.mp h
            refine Or.inr (Or.inr ⟨?_, Option.not_isSome_iff_eq_none.mp hlock, serviceFilters, paths, hd, rfl⟩)
            cases found with
            | missing => exact absurd rfl hmissing
            | unreadable => exact absurd rfl hunreadable
            | parsed => rfl
  · cases h

theorem fetch_cases {ok : Bool} (h : step parse s (.fetch th ok) = some t) : ∃ path rest walk,
    s.pc th = .toFetch (path :: rest) walk ∧
      ((∃ node, ok = true ∧ s.live = true ∧ s.znodes path = some node ∧
          t = moveTo { s with armed := Function.update s.armed path (s.armed path + 1) } th
            (.toApply path node rest walk)) ∨
        ok = false ∧ t = moveTo s th (.next rest walk)) := by
  simp only [step] at h
  split at h
  · rename_i path rest walk hpc
    refine ⟨path, rest, walk, hpc, ?_⟩
    split at h
    · rename_i hok
      split at h
      · rename_i hlive
        obtain ⟨node, hn, rfl⟩ := Option.map_eq_some_iff.mp h
        exact Or.inl ⟨node, hok, hlive, hn, rfl⟩
      · cases h
    · rename_i hok
      exact Or.inr ⟨Bool.eq_false_iff.mpr hok, (Option.some.inj h).symm⟩
  · cases h

theorem apply_cases (h : step parse s (.apply th) = some t) : ∃ path node rest walk agent,
    s.pc th = .toApply path node rest walk ∧ childrenChangeFuncImpl parse s.agent path node.names = some agent ∧
      t = moveTo { s with agent := agent, applied := Function.update s.applied path (node.cversion :: s.applied path) } th
        (.next rest walk) := by
  simp only [step] at h
  split at h
  · rename_i path node rest walk hpc
    obtain ⟨agent, ha, rfl⟩ := Option.map_eq_some_iff.mp h
    exact ⟨path, node, rest, walk, agent, hpc, ha, rfl⟩
  · cases h

theorem finish_cases (h : step parse s (.finish th) = some t) :
    s.pc th = .toFetch [] true ∧ t = leave { s with modified := false, watchLock := none } th 0 := by
  simp only [step] at h
  split at h
  · rename_i hpc
    exact ⟨hpc, (Option.some.inj h).symm⟩
  · cases h

/-! ## What is ahead -/

/-- The paths a thread is still going to fetch. -/
def Pc.ahead : Pc → List CStr
  | .toFetch paths _ => paths
  | .toApply _ _ rest _ => rest
  | _ => []

/-- The thread is in the walk of `watch_declared_services`. -/
def Pc.walking : Pc → Bool
  | .toFetch _ walk => walk
  | .toApply _ _ _ walk => walk
  | _ => false

@[simp] theorem ahead_next (rest : List CStr) (walk : Bool) : (Pc.next rest walk).ahead = rest := by
  unfold Pc.next
  split
  · rename_i h; exact h.1.symm
  · rfl

@[simp] theorem walking_next (rest : List CStr) (walk : Bool) : (Pc.next rest walk).walking = walk := by
  unfold Pc.next
  split
  · rename_i h; exact h.2.symm
  · rfl

/-- What holds of the thread that moved and of the others holds of all. -/
theorem forall_update {pc : Thread ι → Pc} {pc' : Pc} {P : Thread ι → Pc → Prop} (h : P th pc')
    (hothers : ∀ th', th' ≠ th → P th' (pc th')) (th' : Thread ι) : P th' (Function.update pc th pc' th') := by
  by_cases e : th' = th
  · subst e
    rw [Function.update_self]
    exact h
  · rw [Function.update_of_ne e]
    exact hothers th' e

/-! ## A sample -/

def samplePath : CStr := .lit "/g/providers"

/-- A services file that declares one service. -/
def sampleFile : Item :=
  .array [.object [(lGroup, .string (.lit "g")),
    (lServices, .array [.object [(lService, .string (.lit "s")), (lVersion, .string (.lit "v"))]])]]

/-- The group's path is there, without a provider. -/
def sampleZnodes : CStr → Option Znode := Function.update (fun _ => none) samplePath (some ⟨[], 0⟩)

def sampleStartup {n : Nat} : List (Label (Fin (n + 1))) :=
  [.call 0 true, .begin (some 0) .parsed, .fetch (some 0) true, .apply (some 0), .finish (some 0)]

end Ddm.Watch
