/-
  Ddm.Watch.Agreement — the list stored for a watched path once everything is quiet.

  The fetch of a path's children and their application are two steps, and two threads may
  read one path at a time: what was fetched first can be applied last, with no event left
  to undo it. `agreeing` is the condition that rules this out. It also asks that a path fits
  its key in the mapping, and that new filters change nothing for a path nobody reads again.

  Proved: in runs whose steps are healthy and agreeing, a quiet state has for each watched
  path the list computed from its current children, and no older version was applied after
  a newer one (`quiet_agrees`); an application that does not meet it leaves an older
  version in place, and nothing under way for the path (`outdated`), as a startup and a
  refresh around one join do (`stale_is_applied_last`).
-/

import Mathlib.Data.Fintype.Option
import Ddm.Registry.Mirror
import Ddm.Watch.Model

namespace Ddm.Watch

open Ddm.Lib Ddm.Registry Ddm.Registry.Json
open Machine (Reach exec)

namespace Agreement

variable {ι : Type}

/-- Another reading of `p` is certain to come. -/
def Coming (s : St ι) (p : CStr) : Prop := .child p ∈ s.queue ∨ ∃ th, p ∈ (s.pc th).ahead

/-- The children of `p` that a thread is about to apply. -/
def fetched (p : CStr) : Pc → Option Znode
  | .toApply path node _ _ => if path = p then some node else none
  | _ => none

/-- The path a thread is about to apply children of. -/
def applies : Pc → Option CStr
  | .toApply path _ _ _ => some path
  | _ => none

theorem fetched_next (p : CStr) (rest : List CStr) (walk : Bool) : fetched p (.next rest walk) = none := by
  unfold Pc.next
  split <;> rfl

/-- Some thread is about to apply the current children of `p`. -/
def Applying (s : St ι) (p : CStr) : Prop := ∃ th, (fetched p (s.pc th)).isSome ∧ fetched p (s.pc th) = s.znodes p

/-- Someone will still bring `p` up to date. -/
def Due (s : St ι) (p : CStr) : Prop := Coming s p ∨ Applying s p

/-- The list `children_change_func_impl` makes of a path's children. -/
def computed (parse : Parse) (serviceFilters : List ServiceInfo) (node : Option Znode) :
    Option (Option RegisterInfoArray) :=
  node.bind fun node => parseNodes parse serviceFilters node.names

/-- The calls of ZooKeeper succeed and no session ends. -/
def healthy : Label ι → Prop
  | .expire => False
  | .reinit .. => False
  | .fetch _ false => False
  | _ => True

/-- What is applied is current or will be brought up to date; and a refresh takes only paths
    that fit their keys, and changes nothing for those that it does not read again. -/
def agreeing (parse : Parse) (s : St ι) : Label ι → Prop
  | .apply th => ∀ path ∈ applies (s.pc th), Due s path
  | .begin _ .parsed =>
    ∀ taken ∈ watchDocument s.agent.serviceFilters s.file,
      (∀ p ∈ taken.2, p.length < providerKeyLen) ∧
        ∀ p ∈ s.watched, p ∈ taken.2 ∨ Due s p ∨
          computed parse taken.1 (s.znodes p) = computed parse s.agent.serviceFilters (s.znodes p)
  | _ => True

/-- No event is undelivered and no thread has anything ahead of it. -/
def Quiet (s : St ι) : Prop := s.queue = [] ∧ ∀ th, s.pc th = .idle

/-- The list stored for `p` is the one computed from its current children, which are also
    the last that were applied, and none newer. -/
structure Agrees (parse : Parse) (s : St ι) (p : CStr) (node : Znode) : Prop where
  current : s.znodes p = some node
  stored : parseNodes parse s.agent.serviceFilters node.names = some (registerMappingFind s.agent.registerMapping p)
  last : (s.applied p).head? = some node.cversion
  newest : ∀ v ∈ s.applied p, v ≤ node.cversion

/-! ## The invariant -/

/-- Version `v` of `p` is not from the future. -/
def Behind (s : St ι) (p : CStr) (v : Nat) : Prop := ∃ node, s.znodes p = some node ∧ v ≤ node.cversion

/-- What was fetched of `p` is there still, or is older. -/
def Snapshot (s : St ι) (p : CStr) (node : Znode) : Prop :=
  s.znodes p = some node ∨ ∃ current, s.znodes p = some current ∧ node.cversion < current.cversion

theorem Snapshot.behind {s : St ι} {p : CStr} {node : Znode} (h : Snapshot s p node) : Behind s p node.cversion := by
  rcases h with h | ⟨current, hc, hlt⟩
  · exact ⟨node, h, le_refl _⟩
  · exact ⟨current, hc, Nat.le_of_lt hlt⟩

/-- A reading of `p` is to come, or its watch is armed and what was read is stored or about to be. -/
def Settled (parse : Parse) (s : St ι) (p : CStr) : Prop :=
  Coming s p ∨ 0 < s.armed p ∧ (Applying s p ∨ ∃ node, Agrees parse s p node)

structure Inv (parse : Parse) (s : St ι) : Prop where
  distinct : HashTable.Distinct RegisterMapItem.key s.agent.registerMapping
  short : ∀ p ∈ s.watched, p.length < providerKeyLen
  queued : ∀ p, .child p ∈ s.queue → p ∈ s.watched
  armed : ∀ p, 0 < s.armed p → p ∈ s.watched
  ahead : ∀ th, ∀ p ∈ (s.pc th).ahead, p ∈ s.watched
  fetched : ∀ th p node, fetched p (s.pc th) = some node → p ∈ s.watched ∧ Snapshot s p node
  applied : ∀ p, ∀ v ∈ s.applied p, Behind s p v
  settled : ∀ p ∈ s.watched, Settled parse s p

variable [DecidableEq ι] {parse : Parse} {s t : St ι} {th : Thread ι} {a : Label ι} {p : CStr} {pc : Pc}

/-- `th` moved on; what it had ahead it still has. -/
theorem Coming.step (h : Coming s p) (hpc : t.pc = Function.update s.pc th pc)
    (hq : .child p ∈ s.queue → .child p ∈ t.queue) (hth : p ∈ (s.pc th).ahead → p ∈ pc.ahead) : Coming t p := by
  rcases h with h | ⟨th', h'⟩
  · exact Or.inl (hq h)
  · refine Or.inr ⟨th', ?_⟩
    rw [hpc]
    by_cases e : th' = th
    · subst e
      rw [Function.update_self]
      exact hth h'
    · rw [Function.update_of_ne e]
      exact h'

theorem Coming.of_ahead (hpc : t.pc = Function.update s.pc th pc) (h : p ∈ pc.ahead) : Coming t p :=
  Or.inr ⟨th, by rw [hpc, Function.update_self]; exact h⟩

theorem Applying.step (h : Applying s p) (hpc : t.pc = Function.update s.pc th pc) (hz : t.znodes p = s.znodes p)
    (hth : fetched p (s.pc th) = none) : Applying t p := by
  obtain ⟨th', hs, h'⟩ := h
  have e : th' ≠ th := by
    intro e
    rw [e, hth] at hs
    cases hs
  refine ⟨th', ?_⟩
  rw [hpc, Function.update_of_ne e, hz]
  exact ⟨hs, h'⟩

/-- A thread that was not about to apply anything moved on, and nothing of `p` changed. -/
theorem Settled.step (h : Settled parse s p) (hpc : t.pc = Function.update s.pc th pc)
    (hq : .child p ∈ s.queue → .child p ∈ t.queue) (harmed : 0 < s.armed p → 0 < t.armed p)
    (hz : t.znodes p = s.znodes p) (hahead : p ∈ (s.pc th).ahead → p ∈ pc.ahead) (hnone : fetched p (s.pc th) = none)
    (hagrees : ∀ node, Agrees parse s p node → Agrees parse t p node) : Settled parse t p := by
  rcases h with hc | ⟨harm, happ | ⟨node, hn⟩⟩
  · exact Or.inl (hc.step hpc hq hahead)
  · exact Or.inr ⟨harmed harm, Or.inl (happ.step hpc hz hnone)⟩
  · exact Or.inr ⟨harmed harm, Or.inr ⟨node, hagrees node hn⟩⟩

omit [DecidableEq ι] in
theorem Agrees.congr {node : Znode} (h : Agrees parse s p node) (hz : t.znodes p = s.znodes p)
    (hs : parseNodes parse t.agent.serviceFilters node.names = parseNodes parse s.agent.serviceFilters node.names)
    (hm : registerMappingFind t.agent.registerMapping p = registerMappingFind s.agent.registerMapping p)
    (happlied : t.applied p = s.applied p) : Agrees parse t p node := by
  refine ⟨hz.trans h.current, ?_, ?_, ?_⟩
  · rw [hs, hm]
    exact h.stored
  · rw [happlied]
    exact h.last
  · rw [happlied]
    exact h.newest

omit [DecidableEq ι] in
/-- The file, its time, the lock and the returns have no part in it. -/
theorem Inv.record (hi : Inv parse s) (file : Item) (modified : Bool) (watchLock : Option (Thread ι))
    (succeeded : Bool) :
    Inv parse { s with file := file, modified := modified, watchLock := watchLock, succeeded := succeeded } := by
  refine ⟨hi.distinct, hi.short, hi.queued, hi.armed, hi.ahead, hi.fetched, hi.applied, ?_⟩
  intro p hp
  rcases hi.settled p hp with hc | ⟨harm, happ | ⟨node, hn⟩⟩
  · exact Or.inl hc
  · exact Or.inr ⟨harm, Or.inl happ⟩
  · exact Or.inr ⟨harm, Or.inr ⟨node, hn.congr rfl rfl rfl rfl⟩⟩

/-- A thread moves on with only watched paths ahead and nothing to apply. -/
theorem Inv.onward (hi : Inv parse s) (hpc : t.pc = Function.update s.pc th pc)
    (hwatched : ∀ p ∈ s.watched, p ∈ t.watched) (hz : t.znodes = s.znodes) (hahead : ∀ p ∈ pc.ahead, p ∈ t.watched)
    (hnone : ∀ p, Agreement.fetched p pc = none) :
    (∀ th, ∀ p ∈ (t.pc th).ahead, p ∈ t.watched) ∧
      ∀ th p node, Agreement.fetched p (t.pc th) = some node → p ∈ t.watched ∧ Snapshot t p node := by
  rw [hpc]
  constructor
  · exact forall_update (P := fun _ pc => ∀ p ∈ pc.ahead, p ∈ t.watched) hahead fun th' _ p hp =>
      hwatched p (hi.ahead th' p hp)
  · refine forall_update (P := fun _ pc => ∀ p node, Agreement.fetched p pc = some node →
      p ∈ t.watched ∧ Snapshot t p node) (fun p node hf => ?_) fun th' _ p node hf => ?_
    · rw [hnone p] at hf
      cases hf
    · obtain ⟨hp, hsnap⟩ := hi.fetched th' p node hf
      exact ⟨hwatched p hp, by rw [Snapshot, hz]; exact hsnap⟩

/-- A thread that was not about to apply anything moves on, with nothing less ahead of it. -/
theorem Inv.moveTo (hi : Inv parse s) (hnone : ∀ p, Agreement.fetched p (s.pc th) = none)
    (hahead : (s.pc th).ahead ⊆ pc.ahead) (hwatched : ∀ p ∈ pc.ahead, p ∈ s.watched)
    (hnone' : ∀ p, Agreement.fetched p pc = none) : Inv parse (moveTo s th pc) := by
  obtain ⟨hpaths, hfetched⟩ := hi.onward (t := Watch.moveTo s th pc) rfl (fun _ => id) rfl hwatched hnone'
  refine ⟨hi.distinct, hi.short, hi.queued, hi.armed, hpaths, hfetched, hi.applied, fun p hp => ?_⟩
  exact (hi.settled p hp).step rfl id id rfl (fun h => hahead h) (hnone p) fun node hn => hn.congr rfl rfl rfl rfl

/-! ## One lemma for each step -/

theorem Inv.change (hi : Inv parse s) (path : CStr) (names : List CStr)
    (h : step parse s (.change path names) = some t) : Inv parse t := by
  cases h
  -- a change leaves every version of its path in the past
  have hz : ∀ {p}, p ≠ path → Function.update s.znodes path (some (.changed (s.znodes path) names)) p = s.znodes p :=
    fun e => Function.update_of_ne e ..
  have hpast : ∀ {v}, Behind s path v → ∃ node,
      Function.update s.znodes path (some (.changed (s.znodes path) names)) path = some node ∧ v < node.cversion := by
    intro v ⟨node, hn, hv⟩
    refine ⟨_, Function.update_self .., ?_⟩
    simp only [hn, Znode.changed, Option.map_some, Option.getD_some]
    omega
  refine ⟨hi.distinct, hi.short, ?_, ?_, hi.ahead, ?_, ?_, ?_⟩
  · intro p hp
    rcases List.mem_append.mp hp with hq | hr
    · exact hi.queued p hq
    · obtain ⟨hne, he⟩ := List.mem_replicate.mp hr
      cases he
      exact hi.armed path (Nat.pos_of_ne_zero hne)
  · intro p hp
    by_cases e : p = path
    · subst e
      simp only [Function.update_self, lt_irrefl] at hp
    · simp only [Function.update_of_ne e] at hp
      exact hi.armed p hp
  · intro th p node hf
    obtain ⟨hp, hsnap⟩ := hi.fetched th p node hf
    by_cases e : p = path
    · subst e
      exact ⟨hp, Or.inr (hpast hsnap.behind)⟩
    · exact ⟨hp, by simpa only [Snapshot, hz e] using hsnap⟩
  · intro p v hv
    by_cases e : p = path
    · subst e
      obtain ⟨node, hn, hlt⟩ := hpast (hi.applied p v hv)
      exact ⟨node, hn, Nat.le_of_lt hlt⟩
    · simpa only [Behind, hz e] using hi.applied p v hv
  · intro p hp
    rcases hi.settled p hp with hc | ⟨harm, hfresh⟩
    · exact Or.inl (hc.imp_left fun hq => List.mem_append_left _ hq)
    · by_cases e : p = path
      · -- the watches that the change used up are events now
        subst e
        exact Or.inl (Or.inl (List.mem_append_right _ (List.mem_replicate.mpr ⟨by omega, rfl⟩)))
      · refine Or.inr ⟨by simpa only [Function.update_of_ne e] using harm, ?_⟩
        rcases hfresh with ⟨th, hs, hf⟩ | ⟨node, hn⟩
        · exact Or.inl ⟨th, hs, hf.trans (hz e).symm⟩
        · exact Or.inr ⟨node, hn.congr (hz e) rfl rfl rfl⟩

/-- The event thread takes an event, and with it the path of a child event. -/
theorem Inv.take (hi : Inv parse s) (hidle : s.pc none = .idle) {event : Event} {queue : List Event}
    (hq : s.queue = event :: queue) (hahead : ∀ p, p ∈ pc.ahead ↔ event = .child p)
    (hnone : ∀ p, Agreement.fetched p pc = none) : Inv parse (Watch.moveTo { s with queue := queue } none pc) := by
  have hqueued : ∀ p, .child p ∈ queue → p ∈ s.watched := fun p hp =>
    hi.queued p (by rw [hq]; exact List.mem_cons_of_mem _ hp)
  have hpath : ∀ p ∈ pc.ahead, p ∈ s.watched := fun p hp =>
    hi.queued p (by rw [hq, (hahead p).mp hp]; exact List.mem_cons_self)
  obtain ⟨hpaths, hfetched⟩ :=
    hi.onward (t := Watch.moveTo { s with queue := queue } none pc) rfl (fun _ => id) rfl hpath hnone
  refine ⟨hi.distinct, hi.short, hqueued, hi.armed, hpaths, hfetched, hi.applied, fun p hp => ?_⟩
  by_cases e : event = .child p
  · exact Or.inl (Coming.of_ahead rfl ((hahead p).mpr e))
  · refine (hi.settled p hp).step rfl (fun h => ?_) id rfl (fun h => ?_) ?_ fun node hn => hn.congr rfl rfl rfl rfl
    · rw [hq] at h
      exact (List.mem_cons.mp h).resolve_left (Ne.symm e)
    · rw [hidle] at h
      cases h
    · rw [hidle]
      rfl

theorem Inv.deliver (hi : Inv parse s) (h : step parse s .deliver = some t) : Inv parse t := by
  obtain ⟨hpc, queue, ⟨path, hq, rfl⟩ | ⟨hq, rfl⟩⟩ := deliver_cases h
  · refine hi.take hpc hq (fun p => ?_) fun p => rfl
    rw [Event.child.injEq, eq_comm]
    exact List.mem_singleton
  · refine hi.take hpc hq (fun p => ?_) fun p => rfl
    exact iff_of_false List.not_mem_nil Event.noConfusion

theorem Inv.begin {found : Found} (hi : Inv parse s) (hok : agreeing parse s (.begin th found))
    (h : step parse s (.begin th found) = some t) : Inv parse t := by
  obtain ⟨forceRefresh, hpc, hcases⟩ := begin_cases h
  have hnone : ∀ p, Agreement.fetched p (s.pc th) = none := fun p => by rw [hpc]; rfl
  have hentering : ∀ pc : Pc, (s.pc th).ahead ⊆ pc.ahead := fun pc p hp => by rw [hpc] at hp; cases hp
  have hleave : ∀ ret, Inv parse (leave s th ret) := by
    intro ret
    have hi' := hi.record s.file s.modified s.watchLock (s.succeeded || ret == 0)
    exact hi'.moveTo hnone (hentering _) (fun p hp => nomatch hp) fun p => rfl
  rcases hcases with ⟨-, rfl⟩ | ⟨-, -, rfl⟩ | ⟨rfl, -, serviceFilters, paths, hd, ht⟩
  · exact hleave (-1)
  · exact hleave 0
  · obtain ⟨hshort, hsame⟩ := hok _ hd
    have hold : ∀ p ∈ s.watched, p ∈ s.watched ++ paths := fun p hp => List.mem_append_left _ hp
    obtain ⟨hpaths, hfetched⟩ := hi.onward (t := t) (by rw [ht]; rfl) (by rw [ht]; exact hold) (by rw [ht]; rfl)
      (by rw [ht]; exact fun p hp => List.mem_append_right _ hp) fun p => rfl
    subst ht
    refine ⟨hi.distinct, fun p hp => (List.mem_append.mp hp).elim (hi.short p) (hshort p),
      fun p hp => hold p (hi.queued p hp), fun p hp => hold p (hi.armed p hp), hpaths, hfetched, hi.applied, ?_⟩
    intro p hp
    by_cases hnew : p ∈ paths
    · exact Or.inl (Coming.of_ahead rfl hnew)
    · have hwatched : p ∈ s.watched := (List.mem_append.mp hp).resolve_right hnew
      rcases hi.settled p hwatched with hc | ⟨harm, happ | ⟨node, hn⟩⟩
      · exact Or.inl (hc.step rfl id fun h => hentering _ h)
      · exact Or.inr ⟨harm, Or.inl (happ.step rfl rfl (hnone p))⟩
      · rcases hsame p hwatched with h' | (hc | happ) | hsame
        · exact absurd h' hnew
        · exact Or.inl (hc.step rfl id fun h => hentering _ h)
        · exact Or.inr ⟨harm, Or.inl (happ.step rfl rfl (hnone p))⟩
        · -- the new filters make the same of the same children
          simp only [computed, hn.current, Option.bind_some] at hsame
          exact Or.inr ⟨harm, Or.inr ⟨node, hn.congr rfl hsame rfl rfl⟩⟩

theorem Inv.fetch (hi : Inv parse s) (h : step parse s (.fetch th true) = some t) : Inv parse t := by
  obtain ⟨path, rest, walk, hpc, hcases⟩ := fetch_cases h
  have hahead : ∀ p, p ∈ path :: rest → p ∈ s.watched := fun p hp => hi.ahead th p (by rw [hpc]; exact hp)
  have hnone : ∀ p, Agreement.fetched p (s.pc th) = none := fun p => by rw [hpc]; rfl
  rcases hcases with ⟨node, -, -, hz, rfl⟩ | ⟨hok, -⟩
  · refine ⟨hi.distinct, hi.short, hi.queued, ?_, ?_, ?_, hi.applied, ?_⟩
    · intro p hp
      by_cases e : p = path
      · exact e ▸ hahead path List.mem_cons_self
      · exact hi.armed p (by simpa only [Watch.moveTo, Function.update_of_ne e] using hp)
    · exact forall_update (P := fun _ pc => ∀ p ∈ pc.ahead, p ∈ s.watched)
        (fun p hp => hahead p (List.mem_cons_of_mem _ hp)) fun th' _ => hi.ahead th'
    · refine forall_update (P := fun _ pc => ∀ p node, Agreement.fetched p pc = some node →
        p ∈ s.watched ∧ Snapshot s p node) ?_ fun th' _ => hi.fetched th'
      intro p node' hf
      simp only [Agreement.fetched, Option.ite_none_right_eq_some, Option.some.injEq] at hf
      obtain ⟨rfl, rfl⟩ := hf
      exact ⟨hahead path List.mem_cons_self, Or.inl hz⟩
    · intro p hp
      by_cases e : p = path
      · subst e
        refine Or.inr ⟨by simp [Watch.moveTo], Or.inl ⟨th, ?_⟩⟩
        simp [Watch.moveTo, Agreement.fetched, hz]
      · refine (hi.settled p hp).step rfl id (fun harm => ?_) rfl (fun h => ?_) (hnone p) fun node hn =>
          hn.congr rfl rfl rfl rfl
        · simpa only [Watch.moveTo, Function.update_of_ne e] using harm
        · rw [hpc] at h
          exact (List.mem_cons.mp h).resolve_left e
  · cases hok

theorem Inv.apply (hi : Inv parse s) (hok : agreeing parse s (.apply th)) (h : step parse s (.apply th) = some t) :
    Inv parse t := by
  obtain ⟨path, node, rest, walk, agent, hpc, ha, ht⟩ := apply_cases h
  have hdue : Due s path := hok path (by rw [hpc]; rfl)
  obtain ⟨remote, hr, rfl⟩ := childrenChange_eq_some ha
  have hself : Agreement.fetched path (s.pc th) = some node := by rw [hpc]; exact if_pos rfl
  obtain ⟨hwatched, hsnap⟩ := hi.fetched th path node hself
  obtain ⟨hdistinct, hfind⟩ := registerMappingFind_put hi.distinct (hi.short path hwatched) remote
  have hahead : ∀ p, p ∈ (s.pc th).ahead → p ∈ (Pc.next rest walk).ahead := fun p h => by
    rw [hpc] at h; rw [ahead_next]; exact h
  have hrest : ∀ p ∈ (Pc.next rest walk).ahead, p ∈ s.watched := fun p hp =>
    hi.ahead th p (by rw [hpc]; rwa [ahead_next] at hp)
  obtain ⟨hpaths, hfetched⟩ := hi.onward (t := t) (by rw [ht]; rfl) (by rw [ht]; exact fun _ => id) (by rw [ht]; rfl)
    (by rw [ht]; exact hrest) fun p => fetched_next p rest walk
  subst ht
  refine ⟨hdistinct, hi.short, hi.queued, hi.armed, hpaths, hfetched, ?_, ?_⟩
  · intro p v hv
    by_cases e : p = path
    · subst e
      simp only [Watch.moveTo, Function.update_self, List.mem_cons] at hv
      rcases hv with rfl | hv
      · exact hsnap.behind
      · exact hi.applied p v hv
    · simp only [Watch.moveTo, Function.update_of_ne e] at hv
      exact hi.applied p v hv
  · intro p hp
    rcases hi.settled p hp with hc | ⟨harm, hfresh⟩
    · exact Or.inl (hc.step rfl id (hahead p))
    · by_cases e : p = path
      · subst e
        rcases hdue with hc | ⟨th', hs', happ⟩
        · exact Or.inl (hc.step rfl id (hahead p))
        · refine Or.inr ⟨harm, ?_⟩
          by_cases e : th' = th
          · -- it was this thread that had the current children
            subst e
            have hz : s.znodes p = some node := happ.symm.trans hself
            refine Or.inr ⟨node, hz, ?_, ?_, ?_⟩
            · simp only [Watch.moveTo]
              rw [hr, hfind, if_pos rfl]
            · simp only [Watch.moveTo, Function.update_self, List.head?_cons]
            · intro v hv
              simp only [Watch.moveTo, Function.update_self, List.mem_cons] at hv
              rcases hv with rfl | hv
              · exact le_refl _
              · obtain ⟨node', hz', hle⟩ := hi.applied p v hv
                rw [hz] at hz'
                cases hz'
                exact hle
          · exact Or.inl ⟨th', by simpa only [Watch.moveTo, Function.update_of_ne e] using hs',
              by simpa only [Watch.moveTo, Function.update_of_ne e] using happ⟩
      · refine Or.inr ⟨harm, ?_⟩
        rcases hfresh with happ | ⟨node', hn⟩
        · exact Or.inl (happ.step rfl rfl (by rw [hpc]; exact if_neg (Ne.symm e)))
        · refine Or.inr ⟨node', hn.congr rfl rfl ?_ ?_⟩
          · simp only [Watch.moveTo]
            rw [hfind, if_neg e]
          · exact Function.update_of_ne e ..

theorem Inv.finish (hi : Inv parse s) (h : step parse s (.finish th) = some t) : Inv parse t := by
  obtain ⟨hpc, rfl⟩ := finish_cases h
  have hi' := hi.record s.file false none (s.succeeded || (0 : Int) == 0)
  refine hi'.moveTo (fun p => ?_) (fun p hp => ?_) (fun p hp => nomatch hp) fun p => rfl
  · show Agreement.fetched p (s.pc th) = none
    rw [hpc]
    rfl
  · have hp' : p ∈ (s.pc th).ahead := hp
    rw [hpc] at hp'
    cases hp'

theorem Inv.step (hi : Inv parse s) (hok : healthy a ∧ agreeing parse s a) (h : step parse s a = some t) :
    Inv parse t := by
  cases a with
  | change path names => exact hi.change path names h
  | expire => exact hok.1.elim
  | deliver => exact hi.deliver h
  | reinit opened kept => exact hok.1.elim
  | touch =>
    cases h
    exact hi.record s.file true s.watchLock s.succeeded
  | rewrite file =>
    cases h
    exact hi.record file true s.watchLock s.succeeded
  | call i forceRefresh =>
    simp only [Watch.step] at h
    split at h
    · rename_i hpc
      cases h
      refine hi.moveTo (fun p => ?_) (fun p hp => ?_) (fun p hp => ?_) fun p => rfl
      · rw [hpc]; rfl
      · rw [hpc] at hp; cases hp
      · cases hp
    · cases h
  | begin th found => exact hi.begin hok.2 h
  | fetch th ok =>
    cases ok with
    | true => exact hi.fetch h
    | false => exact hok.1.elim
  | apply th => exact hi.apply hok.2 h
  | finish th => exact hi.finish h

theorem inv_of_reach {file : Item} {znodes : CStr → Option Znode}
    (h : Reach (Watch.step parse) (fun s a => healthy a ∧ agreeing parse s a) (boot file znodes) s) : Inv parse s := by
  refine h.inv (I := Inv parse) ?_ fun s a t hi hok hst => hi.step hok hst
  refine ⟨List.Pairwise.nil, ?_, ?_, fun p hp => absurd hp (lt_irrefl 0), ?_, ?_, ?_, ?_⟩
  · intro p hp; cases hp
  · intro p hp; cases hp
  · intro th p hp; cases hp
  · intro th p node hf; cases hf
  · intro p v hv; cases hv
  · intro p hp; cases hp

/-! ## The quiet states -/

/-- In runs in which what is applied late is brought up to date, quiet means in agreement. -/
theorem quiet_agrees {file : Item} {znodes : CStr → Option Znode}
    (h : Reach (step parse) (fun s a => healthy a ∧ agreeing parse s a) (boot file znodes) s) (hquiet : Quiet s) :
    ∀ p ∈ s.watched, ∃ node, Agrees parse s p node := by
  obtain ⟨hqueue, hidle⟩ := hquiet
  intro p hp
  rcases (inv_of_reach h).settled p hp with (hc | ⟨th, hth⟩) | ⟨-, ⟨th, hs, -⟩ | hn⟩
  · rw [hqueue] at hc
    cases hc
  · rw [hidle th] at hth
    cases hth
  · rw [hidle th] at hs
    cases hs
  · exact hn

/-- Nothing else is left out of what may be applied: an application that nobody makes up
    for leaves an older version, and nothing is under way for its path. -/
theorem outdated (hi : Inv parse s) {path : CStr} (hpath : applies (s.pc th) = some path) (hbad : ¬Due s path)
    (h : step parse s (.apply th) = some t) : ¬Due t path ∧ ∀ node, ¬Agrees parse t path node := by
  obtain ⟨_, node, rest, walk, agent, hpc, -, rfl⟩ := apply_cases h
  rw [hpc] at hpath
  cases hpath
  have hself : fetched path (s.pc th) = some node := by rw [hpc]; exact if_pos rfl
  refine ⟨?_, fun current hn => ?_⟩
  · intro h
    rcases h with (hq | ⟨th', hth⟩) | ⟨th', hs, happ⟩
    · exact hbad (Or.inl (Or.inl hq))
    · refine hbad (Or.inl (Or.inr ⟨th', ?_⟩))
      by_cases e : th' = th
      · subst e
        simp only [Watch.moveTo, Function.update_self, ahead_next] at hth
        rw [hpc]
        exact hth
      · simpa only [Watch.moveTo, Function.update_of_ne e] using hth
    · by_cases e : th' = th
      · subst e
        simp only [Watch.moveTo, Function.update_self, fetched_next] at hs
        cases hs
      · simp only [Watch.moveTo, Function.update_of_ne e] at hs happ
        exact hbad (Or.inr ⟨th', hs, happ⟩)
  · have hlast : some node.cversion = some current.cversion := by
      simpa only [Watch.moveTo, Function.update_self, List.head?_cons] using hn.last
    rcases (hi.fetched th path node hself).2 with hz | ⟨newer, hz, hlt⟩
    · exact hbad (Or.inr ⟨th, by rw [hself]; rfl, hself.trans hz.symm⟩)
    · have hsame : current = newer := Option.some.inj (hn.current.symm.trans hz)
      rw [← hsame, ← Option.some.inj hlast] at hlt
      omega

instance [Fintype ι] (s : St ι) (p : CStr) : Decidable (Coming s p) := inferInstanceAs (Decidable (_ ∨ _))

instance [Fintype ι] (s : St ι) (p : CStr) : Decidable (Due s p) :=
  inferInstanceAs (Decidable (_ ∨ ∃ _, _ ∧ _))

instance (a : Label ι) : Decidable (healthy a) :=
  match a with
  | .expire => isFalse id
  | .reinit .. => isFalse id
  | .fetch _ false => isFalse id
  | .fetch _ true => isTrue trivial
  | .change .. => isTrue trivial
  | .deliver => isTrue trivial
  | .touch => isTrue trivial
  | .rewrite _ => isTrue trivial
  | .call .. => isTrue trivial
  | .begin .. => isTrue trivial
  | .apply _ => isTrue trivial
  | .finish _ => isTrue trivial

instance [Fintype ι] (s : St ι) (a : Label ι) : Decidable (agreeing parse s a) :=
  match a with
  | .apply _ => inferInstanceAs (Decidable (∀ path ∈ applies _, Due s path))
  | .begin _ .parsed => inferInstanceAs (Decidable (∀ taken ∈ watchDocument _ _, _ ∧ _))
  | .begin _ .missing => isTrue trivial
  | .begin _ .unreadable => isTrue trivial
  | .expire => isTrue trivial
  | .reinit .. => isTrue trivial
  | .fetch .. => isTrue trivial
  | .change .. => isTrue trivial
  | .deliver => isTrue trivial
  | .touch => isTrue trivial
  | .rewrite _ => isTrue trivial
  | .call .. => isTrue trivial
  | .finish _ => isTrue trivial

def sampleName : CStr := UrlCodec.encodeStr Mirror.sampleText

/-- A refresh that reads the path while the join's two events are handled. -/
def refreshed : List (Label (Fin 2)) :=
  sampleStartup ++ [.touch, .call 1 false, .begin (some 1) .parsed, .fetch (some 1) true,
    .change samplePath [sampleName], .deliver, .fetch none true, .apply (some 1), .apply none, .deliver,
    .fetch none true, .apply none, .finish (some 1)]

theorem quiet_agrees_sample : ∃ s : St (Fin 2), samplePath ∈ s.watched ∧ s.applied samplePath = [1, 1, 0, 0] ∧
    ∃ node, Agrees Mirror.sampleParse s samplePath node := by
  have hrun : (exec (step Mirror.sampleParse) (fun s a => healthy a ∧ agreeing Mirror.sampleParse s a)
      (boot sampleFile sampleZnodes) refreshed).any
      (fun s : St (Fin 2) => decide ((samplePath ∈ s.watched ∧ s.applied samplePath = [1, 1, 0, 0]) ∧
        s.queue = [] ∧ ∀ th, s.pc th = .idle)) = true := by decide +kernel
  obtain ⟨s, hreach, hs⟩ := Machine.reach_of_exec_any hrun
  obtain ⟨⟨hwatched, happlied⟩, hquiet⟩ := of_decide_eq_true hs
  exact ⟨s, hwatched, happlied, quiet_agrees hreach hquiet samplePath hwatched⟩

/-- The same refresh, which applies what it read before the join only after the events. -/
def overtaken : List (Label (Fin 2)) :=
  sampleStartup ++ [.touch, .call 1 false, .begin (some 1) .parsed, .fetch (some 1) true,
    .change samplePath [sampleName], .deliver, .fetch none true, .apply none, .deliver, .fetch none true,
    .apply none, .apply (some 1), .finish (some 1)]

/-- Every call succeeds and all is quiet, but the provider that joined is not in the list. -/
theorem stale_is_applied_last : ∃ s : St (Fin 2),
    Reach (step Mirror.sampleParse) (fun _ a => healthy a) (boot sampleFile sampleZnodes) s ∧ Quiet s ∧
      samplePath ∈ s.watched ∧ s.znodes samplePath = some ⟨[sampleName], 1⟩ ∧
      parseNodes Mirror.sampleParse s.agent.serviceFilters [sampleName] ≠
        some (registerMappingFind s.agent.registerMapping samplePath) ∧ s.applied samplePath = [0, 1, 1, 0] := by
  have hrun : (exec (step Mirror.sampleParse) (fun _ a => healthy a) (boot sampleFile sampleZnodes) overtaken).any
      (fun s : St (Fin 2) => decide ((s.queue = [] ∧ ∀ th, s.pc th = .idle) ∧ samplePath ∈ s.watched ∧
        s.znodes samplePath = some ⟨[sampleName], 1⟩ ∧
        parseNodes Mirror.sampleParse s.agent.serviceFilters [sampleName] ≠
          some (registerMappingFind s.agent.registerMapping samplePath) ∧
        s.applied samplePath = [0, 1, 1, 0])) = true := by decide +kernel
  obtain ⟨s, hreach, hs⟩ := Machine.reach_of_exec_any hrun
  obtain ⟨hquiet, h⟩ := of_decide_eq_true hs
  exact ⟨s, hreach, hquiet, h⟩

end Agreement

end Ddm.Watch
