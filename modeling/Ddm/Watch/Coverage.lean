/-
  Ddm.Watch.Coverage — whether a declared group can be left without a watch.

  A watch is armed by a fetch that succeeds and used up by a change or the end of a session,
  which leave an event instead. Whoever takes the event owes the path a fetch, and a fetch
  that fails is not made again: `watch_group_change` and the event handler drop the
  result of `get_children`, and a failed `init_zk_handle` or re-watch is only logged.
  `makesUpFor` asks that what such a failure gives up is pending or owed by somebody else.

  Proved: in runs that meet it, once a call has returned 0 and with no handler in progress,
  every declared group's path has an armed watch or an undelivered event
  (`declared_is_pending`); a step that does not meet it leaves a path with neither
  (`given_up`), as a startup does that comes before the group's path, and returns 0
  (`missing_path_is_unwatched`).
-/

import Mathlib.Data.Fintype.Option
import Ddm.Watch.Model

namespace Ddm.Watch

open Ddm.Lib Ddm.Registry Ddm.Registry.Json
open Machine (Reach exec)

namespace Coverage

variable {ι : Type}

/-- `p` has an armed watch, or an event that makes the agent read it again. -/
def Pending (s : St ι) (p : CStr) : Prop := 0 < s.armed p ∨ .child p ∈ s.queue ∨ .session ∈ s.queue

/-- A thread is bound to read `p`: the event thread, in its handler; a caller, in the walk
    before the first call has returned 0. -/
def Owes (s : St ι) (p : CStr) : Thread ι → Prop
  | none => s.pc none = .reinit ∨ s.pc none = .entering true ∨ p ∈ (s.pc none).ahead
  | some i => s.succeeded = false ∧ p ∈ (s.pc (some i)).ahead

/-- The path a thread fetches next. -/
def fetches : Pc → Option CStr
  | .toFetch (path :: _) _ => some path
  | _ => none

/-- The file stays as it is. -/
def unedited : Label ι → Prop
  | .rewrite _ => False
  | _ => True

/-- A failure gives up only paths that are pending or owed otherwise. -/
def makesUpFor (s : St ι) : Label ι → Prop
  | .fetch th false => ∀ p ∈ fetches (s.pc th), Pending s p ∨ ∃ th', th' ≠ th ∧ Owes s p th'
  | .begin none .missing => ∀ p ∈ s.watched, Pending s p ∨ ∃ th, th ≠ none ∧ Owes s p th
  | .begin none .unreadable => ∀ p ∈ s.watched, Pending s p ∨ ∃ th, th ≠ none ∧ Owes s p th
  | .reinit false kept =>
    ∀ p ∈ s.watched, kept = true ∧ (.child p ∈ s.queue ∨ .session ∈ s.queue) ∨ ∃ th, th ≠ none ∧ Owes s p th
  | _ => True

/-! ## The invariant -/

structure Inv (root : Item) (s : St ι) : Prop where
  file : s.file = root
  declared : ∀ p ∈ s.watched, ∃ g ∈ declaredGroups root, contextPath g = some p
  /-- A walk takes all the groups. -/
  complete : s.succeeded = true ∨ (∃ th, (s.pc th).walking = true) →
    ∀ g ∈ declaredGroups root, providerPath g ∈ s.watched
  recorded : s.modified = false → s.succeeded = true
  walkers : ∀ th, (s.pc th).walking = true → s.watchLock = some th
  callers : ∀ i, (s.pc (some i)).ahead ≠ [] → (s.pc (some i)).walking = true
  covered : ∀ p ∈ s.watched, Pending s p ∨ ∃ th, Owes s p th

variable [DecidableEq ι] {parse : Parse} {root : Item} {s t : St ι} {th : Thread ι} {a : Label ι} {p : CStr} {pc : Pc}

/-- `th` moved on; what it was bound to read is ahead of it. -/
theorem Owes.step {th' : Thread ι} (h : Owes s p th') (hpc : t.pc = Function.update s.pc th pc)
    (hs : t.succeeded = s.succeeded) (hth : th' = th → p ∈ pc.ahead) : Owes t p th' := by
  by_cases e : th' = th
  · have hmem := hth e
    subst e
    cases th' with
    | none =>
      refine Or.inr (Or.inr ?_)
      rw [hpc, Function.update_self]
      exact hmem
    | some i =>
      refine ⟨hs.trans h.1, ?_⟩
      rw [hpc, Function.update_self]
      exact hmem
  · cases th' with
    | none =>
      simp only [Owes, hpc, Function.update_of_ne e]
      exact h
    | some i =>
      simp only [Owes, hpc, Function.update_of_ne e, hs]
      exact h

/-- What another thread is bound to read after a step of `th` it was bound to before. -/
theorem Owes.before {th' : Thread ι} (h : Owes t p th') (hpc : t.pc = Function.update s.pc th pc)
    (hs : t.succeeded = false → s.succeeded = false) (hne : th' ≠ th) : Owes s p th' := by
  cases th' with
  | none =>
    simp only [Owes, hpc, Function.update_of_ne hne] at h
    exact h
  | some i =>
    simp only [Owes, hpc, Function.update_of_ne hne] at h
    exact ⟨hs h.1, h.2⟩

omit [DecidableEq ι] in
/-- A thread past the entrance of its handler or call is bound to what is ahead of it. -/
theorem Owes.ahead (h : Owes s p th) (hreinit : s.pc th ≠ .reinit) (hentering : s.pc th ≠ .entering true) :
    p ∈ (s.pc th).ahead := by
  cases th with
  | none =>
    rcases h with h | h | h
    · exact absurd h hreinit
    · exact absurd h hentering
    · exact h
  | some i => exact h.2

/-- A thread moves, and neither the walk nor the file's record begins or ends. -/
theorem Inv.moved (hi : Inv root s) (hpc : t.pc = Function.update s.pc th pc) (hfile : t.file = s.file)
    (hwatched : t.watched = s.watched) (hmodified : t.modified = s.modified) (hsucceeded : t.succeeded = s.succeeded)
    (hlock : t.watchLock = s.watchLock) (hwalking : pc.walking = true → (s.pc th).walking = true)
    (hcaller : th ≠ none → pc.ahead ≠ [] → pc.walking = true)
    (hcovered : ∀ p ∈ s.watched, Pending t p ∨ ∃ th, Owes t p th) : Inv root t := by
  have hwalkers : ∀ th', (t.pc th').walking = true → (s.pc th').walking = true := by
    rw [hpc]
    exact forall_update (P := fun th' pc => pc.walking = true → (s.pc th').walking = true) hwalking fun _ _ h => h
  refine ⟨hfile.trans hi.file, hwatched ▸ hi.declared, ?_, ?_, ?_, ?_, hwatched ▸ hcovered⟩
  · rw [hwatched, hsucceeded]
    exact fun h => hi.complete (h.imp_right fun ⟨th', h'⟩ => ⟨th', hwalkers th' h'⟩)
  · rw [hmodified, hsucceeded]
    exact hi.recorded
  · intro th' h'
    rw [hlock]
    exact hi.walkers th' (hwalkers th' h')
  · intro i
    rw [hpc]
    by_cases e : some i = th
    · rw [← e, Function.update_self]
      exact hcaller (by rw [← e]; exact Option.some_ne_none i)
    · rw [Function.update_of_ne e]
      exact hi.callers i

/-! ## One lemma for each step -/

theorem Inv.change (hi : Inv root s) (path : CStr) (names : List CStr)
    (h : step parse s (.change path names) = some t) : Inv root t := by
  cases h
  refine ⟨hi.file, hi.declared, hi.complete, hi.recorded, hi.walkers, hi.callers, fun p hp => ?_⟩
  rcases hi.covered p hp with (harm | hc | hs) | howes
  · by_cases e : p = path
    · -- the watches that the change used up are events now
      subst e
      exact Or.inl (Or.inr (Or.inl (List.mem_append_right _ (List.mem_replicate.mpr ⟨by omega, rfl⟩))))
    · exact Or.inl (Or.inl (by simpa only [Function.update_of_ne e] using harm))
  · exact Or.inl (Or.inr (Or.inl (List.mem_append_left _ hc)))
  · exact Or.inl (Or.inr (Or.inr (List.mem_append_left _ hs)))
  · exact Or.inr howes

theorem Inv.expire (hi : Inv root s) (h : step parse s .expire = some t) : Inv root t := by
  simp only [Watch.step] at h
  split at h
  · cases h
    exact ⟨hi.file, hi.declared, hi.complete, hi.recorded, hi.walkers, hi.callers, fun p _ =>
      Or.inl (Or.inr (Or.inr (List.mem_append_right _ (List.mem_singleton_self _))))⟩
  · cases h

theorem Inv.deliver (hi : Inv root s) (h : step parse s .deliver = some t) : Inv root t := by
  obtain ⟨hpc, queue, hcases⟩ := deliver_cases h
  have hidle : ∀ p, ¬ Owes s p none := fun p howes => by
    have := howes.ahead (by rw [hpc]; exact Pc.noConfusion) (by rw [hpc]; exact Pc.noConfusion)
    rw [hpc] at this
    cases this
  rcases hcases with ⟨path, hq, rfl⟩ | ⟨hq, rfl⟩
  · refine hi.moved rfl rfl rfl rfl rfl rfl (fun hw => absurd hw Bool.false_ne_true) (fun hne => absurd rfl hne) fun p hp => ?_
    rcases hi.covered p hp with (harm | hc | hs) | ⟨th, howes⟩
    · exact Or.inl (Or.inl harm)
    · rw [hq] at hc
      rcases List.mem_cons.mp hc with he | hc
      · cases he
        exact Or.inr ⟨none, Or.inr (Or.inr (by simp [moveTo, Pc.ahead]))⟩
      · exact Or.inl (Or.inr (Or.inl hc))
    · rw [hq] at hs
      exact Or.inl (Or.inr (Or.inr ((List.mem_cons.mp hs).resolve_left Event.noConfusion)))
    · exact Or.inr ⟨th, howes.step rfl rfl fun e => absurd (e ▸ howes) (hidle p)⟩
  · refine hi.moved rfl rfl rfl rfl rfl rfl (fun hw => absurd hw Bool.false_ne_true) (fun hne => absurd rfl hne) fun p _ => ?_
    exact Or.inr ⟨none, Or.inl (by simp only [moveTo, Function.update_self])⟩

theorem Inv.reinit {opened kept : Bool} (hi : Inv root s) (hok : makesUpFor s (.reinit opened kept))
    (h : step parse s (.reinit opened kept) = some t) : Inv root t := by
  obtain ⟨hpc, rfl⟩ := reinit_cases h
  cases opened with
  | true =>
    refine hi.moved rfl rfl rfl rfl rfl rfl (fun hw => absurd hw Bool.false_ne_true) (fun hne => absurd rfl hne) fun p _ => ?_
    exact Or.inr ⟨none, Or.inr (Or.inl (by simp only [moveTo, Function.update_self, if_true]))⟩
  | false =>
    refine hi.moved rfl rfl rfl rfl rfl rfl (fun hw => absurd hw Bool.false_ne_true) (fun hne => absurd rfl hne) fun p hp => ?_
    rcases hok p hp with ⟨rfl, hevent⟩ | ⟨th, hne, howes⟩
    · exact Or.inl (Or.inr hevent)
    · exact Or.inr ⟨th, howes.step rfl rfl fun e => absurd e hne⟩

theorem Inv.call (hi : Inv root s) {i : ι} {forceRefresh : Bool} (h : step parse s (.call i forceRefresh) = some t) :
    Inv root t := by
  simp only [Watch.step] at h
  split at h
  · rename_i hpc
    cases h
    refine hi.moved rfl rfl rfl rfl rfl rfl (fun hw => absurd hw Bool.false_ne_true) (fun _ hne => absurd rfl hne) fun p hp => ?_
    rcases hi.covered p hp with h | ⟨th, howes⟩
    · exact Or.inl h
    · refine Or.inr ⟨th, howes.step rfl rfl fun e => ?_⟩
      subst e
      rw [Owes, hpc] at howes
      cases howes.2
  · cases h

/-- A call returns without a walk. -/
theorem Inv.giveUp (hi : Inv root s) {ret : Int} (hret : (s.succeeded || ret == 0) = s.succeeded)
    (hcovered : ∀ p ∈ s.watched, Pending s p ∨ ∃ th', th' ≠ th ∧ Owes s p th') : Inv root (leave s th ret) := by
  have hpc : (leave s th ret).pc = Function.update s.pc th .idle := rfl
  refine hi.moved hpc rfl rfl rfl hret rfl (fun hw => absurd hw Bool.false_ne_true) (fun _ hne => absurd rfl hne) fun p hp => ?_
  rcases hcovered p hp with h | ⟨th', hne, howes⟩
  · exact Or.inl h
  · exact Or.inr ⟨th', howes.step hpc hret fun e => absurd e hne⟩

omit [DecidableEq ι] in
/-- What covers a path is not the thread at the entrance of a call, but for the event thread's. -/
theorem Inv.others (hi : Inv root s) {forceRefresh : Bool} (hpc : s.pc th = .entering forceRefresh)
    (hth : th = none → forceRefresh = false) :
    ∀ p ∈ s.watched, Pending s p ∨ ∃ th', th' ≠ th ∧ Owes s p th' := by
  intro p hp
  rcases hi.covered p hp with h | ⟨th', howes⟩
  · exact Or.inl h
  · refine Or.inr ⟨th', fun e => ?_, howes⟩
    subst e
    cases th' with
    | none =>
      have := howes.ahead (by rw [hpc]; exact Pc.noConfusion) (by rw [hpc, hth rfl]; simp)
      rw [hpc] at this
      cases this
    | some i =>
      rw [Owes, hpc] at howes
      cases howes.2

theorem contextPath_declared {g : CStr} (h : contextPath g = some p) : p = providerPath g :=
  (contextPath_eq_some.mp h).1

theorem Inv.begin {found : Found} (hi : Inv root s) (hok : makesUpFor s (.begin th found))
    (h : step parse s (.begin th found) = some t) : Inv root t := by
  obtain ⟨forceRefresh, hpc, hcases⟩ := begin_cases h
  rcases hcases with ⟨hfound, rfl⟩ | ⟨hforce, hmodified, rfl⟩ | ⟨rfl, hlock, serviceFilters, paths, hd, rfl⟩
  · refine hi.giveUp (by simp) ?_
    cases th with
    | some i => exact hi.others hpc fun e => nomatch e
    | none =>
      cases found with
      | missing => exact hok
      | unreadable => exact hok
      | parsed => exact absurd rfl hfound
  · have hsucceeded := hi.recorded hmodified
    exact hi.giveUp (by rw [hsucceeded]; rfl) (hi.others hpc fun _ => hforce)
  · rw [hi.file] at hd
    obtain ⟨hdeclared, hall⟩ := mem_watchDocument hd
    have hnowalk : ∀ th', (s.pc th').walking ≠ true := fun th' hw => by
      have := hi.walkers th' hw
      rw [hlock] at this
      cases this
    have hpath : ∀ p ∈ s.watched, p ∈ paths := fun p hp => by
      obtain ⟨g, hg, he⟩ := hi.declared p hp
      obtain ⟨q, hq, he'⟩ := hall g hg
      rw [he] at he'
      cases he'
      exact hq
    refine ⟨hi.file, ?_, ?_, hi.recorded, ?_, ?_, ?_⟩
    · intro p hp
      exact (List.mem_append.mp hp).elim (hi.declared p) (hdeclared p)
    · intro _ g hg
      obtain ⟨p, hp, he⟩ := hall g hg
      rw [← contextPath_declared he]
      exact List.mem_append_right _ hp
    · exact forall_update (P := fun th' pc => pc.walking = true → some th = some th') (fun _ => rfl)
        fun th' _ hw => absurd hw (hnowalk th')
    · intro i
      by_cases e : some i = th
      · simp only [moveTo, ← e, Function.update_self]
        exact fun _ => rfl
      · simp only [moveTo, Function.update_of_ne e]
        exact hi.callers i
    · -- what was watched is still covered; the event thread's own walk and a first walk cover all
      intro p hp
      by_cases hw : p ∈ s.watched
      · rcases hi.covered p hw with h | ⟨th', howes⟩
        · exact Or.inl h
        · exact Or.inr ⟨th', howes.step rfl rfl fun _ => hpath p hw⟩
      · have hnew : p ∈ paths := (List.mem_append.mp hp).resolve_left hw
        have hfirst : s.succeeded = false := by
          by_contra hs
          obtain ⟨g, hg, he⟩ := hdeclared p hnew
          exact hw (contextPath_declared he ▸ hi.complete (Or.inl (Bool.eq_true_of_not_eq_false hs)) g hg)
        refine Or.inr ⟨th, ?_⟩
        cases th with
        | none => exact Or.inr (Or.inr (by simpa [moveTo, Pc.ahead] using hnew))
        | some i => exact ⟨hfirst, by simpa [moveTo, Pc.ahead] using hnew⟩

theorem Inv.fetch {ok : Bool} (hi : Inv root s) (hok : makesUpFor s (.fetch th ok))
    (h : step parse s (.fetch th ok) = some t) : Inv root t := by
  obtain ⟨path, rest, walk, hpc, hcases⟩ := fetch_cases h
  have hcaller : th ≠ none → walk = true := fun hne => by
    cases th with
    | none => exact absurd rfl hne
    | some i =>
      have := hi.callers i (by rw [hpc]; exact List.cons_ne_nil _ _)
      rwa [hpc] at this
  have hrest : ∀ {p}, p ≠ path → Owes s p th → p ∈ rest := fun hne howes => by
    have := howes.ahead (by rw [hpc]; exact Pc.noConfusion) (by rw [hpc]; exact Pc.noConfusion)
    rw [hpc] at this
    exact (List.mem_cons.mp this).resolve_left hne
  rcases hcases with ⟨node, -, -, -, rfl⟩ | ⟨rfl, rfl⟩
  · refine hi.moved rfl rfl rfl rfl rfl rfl (fun hw => by rw [hpc]; exact hw) (fun hne _ => hcaller hne) fun p hp => ?_
    by_cases e : p = path
    · subst e
      exact Or.inl (Or.inl (by simp [moveTo]))
    · rcases hi.covered p hp with (harm | hevent) | ⟨th', howes⟩
      · exact Or.inl (Or.inl (by simpa only [moveTo, Function.update_of_ne e] using harm))
      · exact Or.inl (Or.inr hevent)
      · exact Or.inr ⟨th', howes.step rfl rfl fun e' => hrest e (e' ▸ howes)⟩
  · refine hi.moved rfl rfl rfl rfl rfl rfl (fun hw => ?_) (fun hne _ => ?_) fun p hp => ?_
    · rw [walking_next] at hw
      rw [hpc]
      exact hw
    · rw [walking_next]
      exact hcaller hne
    · by_cases e : p = path
      · subst e
        rcases hok p (by rw [hpc]; rfl) with h | ⟨th', hne, howes⟩
        · exact Or.inl h
        · exact Or.inr ⟨th', howes.step rfl rfl fun e => absurd e hne⟩
      · rcases hi.covered p hp with h | ⟨th', howes⟩
        · exact Or.inl h
        · exact Or.inr ⟨th', howes.step rfl rfl fun e' => by rw [ahead_next]; exact hrest e (e' ▸ howes)⟩

theorem Inv.apply (hi : Inv root s) (h : step parse s (.apply th) = some t) : Inv root t := by
  obtain ⟨path, node, rest, walk, agent, hpc, -, rfl⟩ := apply_cases h
  refine hi.moved rfl rfl rfl rfl rfl rfl (fun hw => ?_) (fun hne hahead => ?_) fun p hp => ?_
  · rw [walking_next] at hw
    rw [hpc]
    exact hw
  · rw [ahead_next] at hahead
    rw [walking_next]
    cases th with
    | none => exact absurd rfl hne
    | some i =>
      have := hi.callers i (by rw [hpc]; exact hahead)
      rwa [hpc] at this
  · rcases hi.covered p hp with h | ⟨th', howes⟩
    · exact Or.inl h
    · refine Or.inr ⟨th', howes.step rfl rfl fun e => ?_⟩
      subst e
      have := howes.ahead (by rw [hpc]; exact Pc.noConfusion) (by rw [hpc]; exact Pc.noConfusion)
      rw [hpc] at this
      rw [ahead_next]
      exact this

/-- The caller that finishes had the lock, so no other caller has a path ahead. -/
theorem Inv.finish (hi : Inv root s) (h : step parse s (.finish th) = some t) : Inv root t := by
  obtain ⟨hpc, rfl⟩ := finish_cases h
  have hwalking : (s.pc th).walking = true := by rw [hpc]; rfl
  have hlock := hi.walkers th hwalking
  have halone : ∀ th', (s.pc th').walking = true → th' = th := fun th' hw =>
    Option.some.inj ((hi.walkers th' hw).symm.trans hlock)
  have hdone : ∀ i, (s.pc (some i)).ahead = [] := fun i => by
    by_contra hne
    have := halone (some i) (hi.callers i hne)
    rw [this, hpc] at hne
    exact hne rfl
  refine ⟨hi.file, hi.declared, fun _ => hi.complete (Or.inr ⟨th, hwalking⟩), fun _ => by simp [leave, moveTo],
    ?_, ?_, ?_⟩
  · refine forall_update (P := fun th' pc => pc.walking = true → (none : Option (Thread ι)) = some th')
      (fun hw => absurd hw Bool.false_ne_true) fun th' hne hw => absurd (halone th' hw) hne
  · intro i
    by_cases e : some i = th
    · simp only [leave, moveTo, ← e, Function.update_self]
      exact fun hne => absurd rfl hne
    · simp only [leave, moveTo, Function.update_of_ne e]
      exact hi.callers i
  · intro p hp
    rcases hi.covered p hp with h | ⟨th', howes⟩
    · exact Or.inl h
    · cases th' with
      | some i =>
        have := howes.2
        rw [hdone i] at this
        cases this
      | none =>
        have hne : none ≠ th := by
          intro e
          have := howes.ahead (by rw [e, hpc]; exact Pc.noConfusion) (by rw [e, hpc]; exact Pc.noConfusion)
          rw [e, hpc] at this
          cases this
        refine Or.inr ⟨none, ?_⟩
        simp only [Owes, leave, moveTo, Function.update_of_ne hne]
        exact howes

theorem Inv.step (hi : Inv root s) (hok : unedited a ∧ makesUpFor s a) (h : step parse s a = some t) : Inv root t := by
  cases a with
  | change path names => exact hi.change path names h
  | expire => exact hi.expire h
  | deliver => exact hi.deliver h
  | reinit opened kept => exact hi.reinit hok.2 h
  | touch =>
    cases h
    exact ⟨hi.file, hi.declared, hi.complete, fun hm => (nomatch hm), hi.walkers, hi.callers, hi.covered⟩
  | rewrite file => exact hok.1.elim
  | call i forceRefresh => exact hi.call h
  | begin th found => exact hi.begin hok.2 h
  | fetch th ok => exact hi.fetch hok.2 h
  | apply th => exact hi.apply h
  | finish th => exact hi.finish h

theorem inv_of_reach {znodes : CStr → Option Znode}
    (h : Reach (Watch.step parse) (fun s a => unedited a ∧ makesUpFor s a) (boot root znodes) s) : Inv root s := by
  refine h.inv (I := Inv root) ?_ fun s a t hi hok hst => hi.step hok hst
  refine ⟨rfl, ?_, ?_, ?_, ?_, fun i hne => absurd rfl hne, ?_⟩
  · intro p hp; cases hp
  · intro h
    rcases h with h | ⟨th, h⟩
    · cases h
    · cases h
  · intro hm; cases hm
  · intro th hw; cases hw
  · intro p hp; cases hp

/-! ## The watches of the declared groups -/

/-- In runs in which what a failure gives up is pending or owed otherwise. -/
theorem declared_is_pending {znodes : CStr → Option Znode}
    (h : Reach (step parse) (fun s a => unedited a ∧ makesUpFor s a) (boot root znodes) s) (hzero : s.succeeded = true)
    (hidle : s.pc none = .idle) : ∀ g ∈ declaredGroups root, Pending s (providerPath g) := by
  have hi := inv_of_reach h
  intro g hg
  rcases hi.covered _ (hi.complete (Or.inl hzero) g hg) with h | ⟨th, howes⟩
  · exact h
  · exfalso
    cases th with
    | none =>
      rcases howes with h | h | h
      · rw [hidle] at h; cases h
      · rw [hidle] at h; cases h
      · rw [hidle] at h; cases h
    | some i =>
      rw [howes.1] at hzero
      cases hzero

/-- Nothing else is left out: a step against `makesUpFor` leaves the path it gives up, or one
    of those that it was to watch anew, with no watch, no event and nobody else bound to read it. -/
theorem given_up (hbad : ¬makesUpFor s a) (h : step parse s a = some t) : ∃ p th,
    (fetches (s.pc th) = some p ∨ p ∈ s.watched) ∧ ¬Pending t p ∧ ∀ th', th' ≠ th → ¬Owes t p th' := by
  cases a with
  | fetch th ok =>
    cases ok with
    | true => exact absurd trivial hbad
    | false =>
      obtain ⟨path, rest, walk, hpc, ⟨node, hok, -⟩ | ⟨-, rfl⟩⟩ := fetch_cases h
      · cases hok
      · have hpath : fetches (s.pc th) = some path := by rw [hpc]; rfl
        refine ⟨path, th, Or.inl hpath, fun hp => hbad fun p hf => ?_, fun th' hne howes => hbad fun p hf => ?_⟩
        · obtain rfl := Option.some.inj (hpath.symm.trans hf)
          exact Or.inl hp
        · obtain rfl := Option.some.inj (hpath.symm.trans hf)
          exact Or.inr ⟨th', hne, howes.before rfl id hne⟩
  | begin th found =>
    obtain ⟨forceRefresh, hpc, hcases⟩ := begin_cases h
    have hth : th = none ∧ found ≠ .parsed ∧ ∃ p ∈ s.watched, ¬Pending s p ∧ ∀ th', th' ≠ none → ¬Owes s p th' := by
      cases th with
      | some i => exact absurd trivial hbad
      | none =>
        cases found with
        | parsed => exact absurd trivial hbad
        | missing => exact ⟨rfl, Found.noConfusion, by simpa [makesUpFor] using hbad⟩
        | unreadable => exact ⟨rfl, Found.noConfusion, by simpa [makesUpFor] using hbad⟩
    obtain ⟨rfl, hfound, p, hwatched, hp, howes⟩ := hth
    have hleave : ∀ ret, ¬Pending (leave s none ret) p ∧ ∀ th', th' ≠ none → ¬Owes (leave s none ret) p th' :=
      fun ret => ⟨hp, fun th' hne h' => howes th' hne (h'.before rfl (fun hs => (Bool.or_eq_false_iff.mp hs).1) hne)⟩
    rcases hcases with ⟨-, rfl⟩ | ⟨-, -, rfl⟩ | ⟨hf, -⟩
    · exact ⟨p, none, Or.inr hwatched, hleave (-1)⟩
    · exact ⟨p, none, Or.inr hwatched, hleave 0⟩
    · exact absurd hf hfound
  | reinit opened kept =>
    obtain ⟨hpc, rfl⟩ := reinit_cases h
    cases opened with
    | true => exact absurd trivial hbad
    | false =>
      simp only [makesUpFor, not_forall, not_or, not_exists, not_and] at hbad
      obtain ⟨p, hwatched, hevents, howes⟩ := hbad
      refine ⟨p, none, Or.inr hwatched, ?_, fun th' hne h' => howes th' hne (h'.before rfl id hne)⟩
      intro h
      rcases h with harmed | hevent
      · exact absurd harmed (lt_irrefl 0)
      · cases kept with
        | true =>
          obtain ⟨hc, hs⟩ := hevents rfl
          exact hevent.elim hc hs
        | false => exact hevent.elim List.not_mem_nil List.not_mem_nil
  | change path names => exact absurd trivial hbad
  | expire => exact absurd trivial hbad
  | deliver => exact absurd trivial hbad
  | touch => exact absurd trivial hbad
  | rewrite file => exact absurd trivial hbad
  | call i forceRefresh => exact absurd trivial hbad
  | apply th => exact absurd trivial hbad
  | finish th => exact absurd trivial hbad

instance (s : St ι) (p : CStr) : Decidable (Pending s p) := inferInstanceAs (Decidable (_ ∨ _))

instance (s : St ι) (p : CStr) (th : Thread ι) : Decidable (Owes s p th) :=
  match th with
  | none => inferInstanceAs (Decidable (_ ∨ _))
  | some _ => inferInstanceAs (Decidable (_ ∧ _))

instance (a : Label ι) : Decidable (unedited a) :=
  match a with
  | .rewrite _ => isFalse id
  | .change .. => isTrue trivial
  | .expire => isTrue trivial
  | .deliver => isTrue trivial
  | .reinit .. => isTrue trivial
  | .touch => isTrue trivial
  | .call .. => isTrue trivial
  | .begin .. => isTrue trivial
  | .fetch .. => isTrue trivial
  | .apply _ => isTrue trivial
  | .finish _ => isTrue trivial

instance [Fintype ι] (s : St ι) (a : Label ι) : Decidable (makesUpFor s a) :=
  match a with
  | .fetch _ false => inferInstanceAs (Decidable (∀ p ∈ fetches _, _ ∨ ∃ _, _ ∧ _))
  | .begin none .missing => inferInstanceAs (Decidable (∀ p ∈ s.watched, _ ∨ ∃ _, _ ∧ _))
  | .begin none .unreadable => inferInstanceAs (Decidable (∀ p ∈ s.watched, _ ∨ ∃ _, _ ∧ _))
  | .reinit false _ => inferInstanceAs (Decidable (∀ p ∈ s.watched, _ ∨ ∃ _, _ ∧ _))
  | .fetch _ true => isTrue trivial
  | .begin none .parsed => isTrue trivial
  | .begin (some _) _ => isTrue trivial
  | .reinit true _ => isTrue trivial
  | .rewrite _ => isTrue trivial
  | .change .. => isTrue trivial
  | .expire => isTrue trivial
  | .deliver => isTrue trivial
  | .touch => isTrue trivial
  | .call .. => isTrue trivial
  | .apply _ => isTrue trivial
  | .finish _ => isTrue trivial

/-- A change, a failed re-read and the end of the session, which makes up for it. -/
def expiredRun : List (Label (Fin 1)) :=
  sampleStartup ++ [.change samplePath [], .deliver, .expire, .fetch none false, .deliver, .reinit true true,
    .begin none .parsed, .fetch none true, .apply none, .finish none]

theorem declared_is_pending_sample : ∃ s : St (Fin 1), s.armed samplePath = 1 ∧ s.queue = [] ∧
    ∀ g ∈ declaredGroups sampleFile, Pending s (providerPath g) := by
  have hrun : (exec (step fun _ => none) (fun s a => unedited a ∧ makesUpFor s a) (boot sampleFile sampleZnodes)
      expiredRun).any (fun s : St (Fin 1) => decide ((s.armed samplePath = 1 ∧ s.queue = []) ∧ s.succeeded = true ∧
        s.pc none = .idle)) = true := by decide +kernel
  obtain ⟨s, hreach, hs⟩ := Machine.reach_of_exec_any hrun
  obtain ⟨⟨harmed, hqueue⟩, hzero, hidle⟩ := of_decide_eq_true hs
  exact ⟨s, harmed, hqueue, declared_is_pending hreach hzero hidle⟩

/-- A startup before the group's path exists, and then its first provider. -/
def earlyRun : List (Label (Fin 1)) :=
  [.call 0 true, .begin (some 0) .parsed, .fetch (some 0) false, .finish (some 0), .change samplePath [.lit "x"]]

theorem missing_path_is_unwatched : ∃ s : St (Fin 1),
    Reach (step fun _ => none) (fun _ a => unedited a) (boot sampleFile fun _ => none) s ∧ s.succeeded = true ∧
      (∀ th, s.pc th = .idle) ∧ ∃ g ∈ declaredGroups sampleFile, ¬ Pending s (providerPath g) := by
  have hrun : (exec (step fun _ => none) (fun _ a => unedited a) (boot sampleFile fun _ => none) earlyRun).any
      (fun s : St (Fin 1) => decide (s.succeeded = true ∧ (∀ th, s.pc th = .idle) ∧
        ∃ g ∈ declaredGroups sampleFile, ¬ Pending s (providerPath g))) = true := by decide +kernel
  obtain ⟨s, hreach, hs⟩ := Machine.reach_of_exec_any hrun
  exact ⟨s, hreach, of_decide_eq_true hs⟩

end Coverage

end Ddm.Watch
