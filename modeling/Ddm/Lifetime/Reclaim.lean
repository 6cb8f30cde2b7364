/-
  Ddm.Lifetime.Reclaim — when a call may rely on the pointers it took under a lock it has
  given back.

  An item, a string and a node are each used after the lock that found them is released,
  and `service_resource_delete` and `pool_destroy_thd_func` free them without asking who
  still has them. Two of the windows are guarded: `invoke_service` copies the key ("need
  to copy because of free"), and `pool_destroy` fails while a connection is in use. The
  others are not: between `service_resource_get` and the second lock, between the second
  lock and the copy, between `node_resource_get_by_key` and `pool_require_connection`,
  and at the last log line, after the connection is back.

  Proved: in every run in which nothing is freed, and no pool destroyed, while a call
  stands in an unguarded window on it (`Undisturbed`), no call ever uses what has been
  freed (`no_use_after_free`). One deletion at the wrong moment breaks it
  (`freed_item_used`).
-/

import Ddm.Lifetime.Objects

namespace Ddm.Lifetime

open Ddm.Lib Ddm.Lib.Machine Ddm.Pool Ddm.Registry

/-- No call stands in an unguarded window on what the step takes away. -/
def Undisturbed (s : St) : Label → Prop
  | .registry _ => ∀ x ∈ s.registry.frees s.tables, ∀ w < s.started, (s.calls w).uses ≠ some x
  | .destroy ptr => (s.pools ptr).usedConnList = [] → ∀ w < s.started, s.calls w ≠ .node ptr
  | .free ptr => ∀ w < s.started, s.calls w ≠ .logging ptr
  | _ => True

/-! ## Memory -/

/-- No object is there twice, or both there and freed; a node with a destroyer is out of
    the table, and freed when the destroyer says so. -/
structure Memory (t : Tables) (freed : List Obj) (destroyers : Nat → Destroyer) : Prop where
  nodup : (tableObjs t ++ freed).Nodup
  below : ∀ x ∈ tableObjs t ++ freed, x.ptr < t.next
  unlinked : ∀ n, destroyers n ≠ .absent → n < t.next ∧ .node n ∉ tableObjs t
  gone : ∀ n, .node n ∈ freed → destroyers n = .finished

variable {t t' : Tables} {freed : List Obj} {destroyers : Nat → Destroyer}

theorem Memory.objs_nodup (hm : Memory t freed destroyers) : (tableObjs t).Nodup := (List.nodup_append.mp hm.nodup).1

theorem Memory.live (hm : Memory t freed destroyers) {x : Obj} (hx : x ∈ tableObjs t) : x ∉ freed ∧ x.ptr < t.next :=
  ⟨fun hf => (List.nodup_append.mp hm.nodup).2.2 x hx x hf rfl, hm.below x (List.mem_append_left _ hx)⟩

theorem Memory.grow (hm : Memory t freed destroyers) (new : List Obj) (hperm : (tableObjs t').Perm (new ++ tableObjs t))
    (hnd : new.Nodup) (hle : t.next ≤ t'.next) (hnew : ∀ x ∈ new, t.next ≤ x.ptr ∧ x.ptr < t'.next) :
    Memory t' freed destroyers := by
  have hall : (tableObjs t' ++ freed).Perm (new ++ (tableObjs t ++ freed)) := by
    rw [← List.append_assoc]; exact hperm.append_right freed
  have hfresh : ∀ x ∈ new, x ∉ tableObjs t ++ freed := fun x hx hold => by
    have := hm.below x hold
    have := (hnew x hx).1
    omega
  refine ⟨?_, fun x hx => ?_, fun n hn => ?_, hm.gone⟩
  · rw [hall.nodup_iff]
    exact List.nodup_append.mpr ⟨hnd, hm.nodup, fun x hx y hy e => hfresh x hx (e ▸ hy)⟩
  · cases List.mem_append.mp (hall.mem_iff.mp hx) with
    | inl hx => exact (hnew x hx).2
    | inr hx => exact Nat.lt_of_lt_of_le (hm.below x hx) hle
  · obtain ⟨hlt, hno⟩ := hm.unlinked n hn
    refine ⟨Nat.lt_of_lt_of_le hlt hle, fun hx => ?_⟩
    cases List.mem_append.mp (hperm.mem_iff.mp hx) with
    | inl hx => exact absurd (hnew _ hx).1 (Nat.not_le_of_lt hlt)
    | inr hx => exact hno hx

/-- What leaves the tables is freed. -/
theorem Memory.free (hm : Memory t freed destroyers) {frees : List Obj}
    (hperm : (tableObjs t).Perm (frees ++ tableObjs t')) (hnext : t'.next = t.next) (hnode : ∀ n, .node n ∉ frees) :
    Memory t' (freed ++ frees) destroyers := by
  have hall : (tableObjs t' ++ (freed ++ frees)).Perm (tableObjs t ++ freed) := by
    refine List.perm_iff_count.mpr fun o => ?_
    have := (List.perm_iff_count.mp hperm) o
    simp only [List.count_append] at this ⊢
    omega
  refine ⟨hall.nodup_iff.mpr hm.nodup, fun x hx => hnext ▸ hm.below x (hall.mem_iff.mp hx), fun n hn => ?_, fun n hn => ?_⟩
  · obtain ⟨hlt, hno⟩ := hm.unlinked n hn
    exact ⟨hnext ▸ hlt, fun hx => hno (hperm.mem_iff.mpr (List.mem_append_right _ hx))⟩
  · cases List.mem_append.mp hn with
    | inl hn => exact hm.gone n hn
    | inr hn => exact absurd hn (hnode n)

/-- A node leaves the table for its destroyer, if it gets one. -/
theorem Memory.unlink (hm : Memory t freed destroyers) {ptr : Nat} (hperm : (tableObjs t).Perm (.node ptr :: tableObjs t'))
    (hnext : t'.next = t.next) (destroyers' : Nat → Destroyer)
    (hd : destroyers' = destroyers ∨ ∃ r, destroyers' = Function.update destroyers ptr (.trying r)) :
    Memory t' freed destroyers' := by
  obtain ⟨hlive, hlt⟩ := hm.live (hperm.mem_iff.mpr List.mem_cons_self)
  have hall : (tableObjs t ++ freed).Perm (.node ptr :: (tableObjs t' ++ freed)) := hperm.append_right freed
  have hnd := List.nodup_cons.mp (hall.nodup_iff.mp hm.nodup)
  have hdest : ∀ n, n ≠ ptr → destroyers' n = destroyers n := fun n hn => by
    rcases hd with rfl | ⟨r, rfl⟩
    · rfl
    · exact Function.update_of_ne hn ..
  refine ⟨hnd.2, fun x hx => hnext ▸ hm.below x (hall.mem_iff.mpr (List.mem_cons_of_mem _ hx)), fun n hn => ?_,
    fun n hn => ?_⟩
  · by_cases e : n = ptr
    · subst e; exact ⟨hnext ▸ hlt, fun hx => hnd.1 (List.mem_append_left _ hx)⟩
    · obtain ⟨hlt', hno⟩ := hm.unlinked n (hdest n e ▸ hn)
      exact ⟨hnext ▸ hlt', fun hx => hno (hperm.mem_iff.mpr (List.mem_cons_of_mem _ hx))⟩
  · have e : n ≠ ptr := fun e => hlive (e ▸ hn)
    rw [hdest n e]
    exact hm.gone n hn

/-- A destroyer goes on; `frees` is the node, or nothing. -/
theorem Memory.destroyer (hm : Memory t freed destroyers) (ptr : Nat) (d : Destroyer) (frees : List Obj)
    (hd : destroyers ptr ≠ .absent) (hnf : destroyers ptr ≠ .finished)
    (hf : frees = [] ∨ frees = [.node ptr] ∧ d = .finished) :
    Memory t (freed ++ frees) (Function.update destroyers ptr d) := by
  obtain ⟨hlt, hno⟩ := hm.unlinked ptr hd
  have hnew : ∀ x ∈ frees, x = .node ptr := fun x hx => by
    rcases hf with rfl | ⟨rfl, -⟩
    · cases hx
    · exact List.mem_singleton.mp hx
  have hnd : frees.Nodup := by
    rcases hf with rfl | ⟨rfl, -⟩
    · exact List.nodup_nil
    · exact List.nodup_singleton _
  have hnotin : Obj.node ptr ∉ tableObjs t ++ freed := fun hx => by
    cases List.mem_append.mp hx with
    | inl hx => exact hno hx
    | inr hx => exact hnf (hm.gone ptr hx)
  refine ⟨?_, fun x hx => ?_, fun n hn => ?_, fun n hn => ?_⟩
  · rw [← List.append_assoc]
    exact List.nodup_append.mpr ⟨hm.nodup, hnd, fun x hx y hy e => hnotin (hnew y hy ▸ e ▸ hx)⟩
  · rw [← List.append_assoc] at hx
    cases List.mem_append.mp hx with
    | inl hx => exact hm.below x hx
    | inr hx => rw [hnew x hx]; exact hlt
  · by_cases e : n = ptr
    · subst e; exact ⟨hlt, hno⟩
    · rw [Function.update_of_ne e] at hn; exact hm.unlinked n hn
  · by_cases e : n = ptr
    · subst e
      rw [Function.update_self]
      cases List.mem_append.mp hn with
      | inl hn => exact absurd (hm.gone n hn) hnf
      | inr hn =>
        rcases hf with rfl | ⟨-, rfl⟩
        · cases hn
        · rfl
    · rw [Function.update_of_ne e]
      cases List.mem_append.mp hn with
      | inl hn => exact hm.gone n hn
      | inr hn => exact absurd (Obj.node.inj (hnew _ hn)) e

/-! ## The invariant -/

/-- What the registry thread found is still there: it alone changes the tables' shape. -/
def Found (t : Tables) : RegistryPc → Prop
  | .extend a ptr => ∃ item, serviceResourceGetByKey t a.serviceKey.str = some item ∧ item.ptr = ptr
  | .shrink a ptr => ∃ item, serviceResourceGetByKey t a.serviceKey.str = some item ∧ item.ptr = ptr
  | .unlink a ptr => ∃ node, nodeResourceGetByKey t a.nodeKey.str = some node ∧ node.ptr = ptr
  | _ => True

/-- The pool and the connection a call works on. -/
def Pc.holds : Pc → Option (Nat × Nat)
  | .working ptr conn => some (ptr, conn)
  | _ => none

structure CallsOk (freed : List Obj) (next : Nat) (destroyers : Nat → Destroyer) (calls : Nat → Pc)
    (started : Nat) : Prop where
  live : ∀ w x, (calls w).uses = some x → x ∉ freed ∧ x.ptr < next
  /-- A pool is destroyed once nobody can come to it any more. -/
  quiet : ∀ n, destroyers n = .destroyed → ∀ w, calls w ≠ .node n ∧ ∀ c, calls w ≠ .working n c
  waiting : ∀ w, started ≤ w → calls w = .idle

structure Owned (s : St) : Prop where
  memory : Memory s.tables s.freed s.destroyers
  registry : Found s.tables s.registry
  lists : Lists s.pools s.heap.nextConn (Pc.holds ∘ s.calls)
  fds : Fds s.heap
  fresh : ∀ n, s.tables.next ≤ n → (s.pools n).members = []
  calls : CallsOk s.freed s.tables.next s.destroyers s.calls s.started

variable {s u : St} {w : Nat}

theorem Owned.began (hi : Owned s) (hw : s.calls w ≠ .idle) : w < s.started :=
  Nat.lt_of_not_le fun h => hw (hi.calls.waiting w h)

theorem CallsOk.move {next : Nat} {calls : Nat → Pc} {started started' : Nat}
    (hc : CallsOk freed next destroyers calls started) {pc : Pc} (hw : w < started') (hle : started ≤ started')
    (hlive : ∀ x, pc.uses = some x → x ∉ freed ∧ x.ptr < next)
    (hquiet : ∀ n, destroyers n = .destroyed → pc ≠ .node n ∧ ∀ c, pc ≠ .working n c) :
    CallsOk freed next destroyers (Function.update calls w pc) started' := by
  refine ⟨fun w' x hx => ?_, fun n hn w' => ?_, fun w' hw' => ?_⟩
  · by_cases e : w' = w
    · subst e; rw [Function.update_self] at hx; exact hlive x hx
    · rw [Function.update_of_ne e] at hx; exact hc.live w' x hx
  · by_cases e : w' = w
    · subst e; rw [Function.update_self]; exact hquiet n hn
    · rw [Function.update_of_ne e]; exact hc.quiet n hn w'
  · have e : w' ≠ w := fun e => by rw [e] at hw'; exact absurd hw (Nat.not_lt_of_le hw')
    rw [Function.update_of_ne e]
    exact hc.waiting w' (Nat.le_trans hle hw')

/-- A call that moves without a connection, to nothing it could lose. -/
theorem Owned.move (hi : Owned s) (pc : Pc) {started : Nat} (hw : w < started) (hle : s.started ≤ started)
    (hh : (s.calls w).holds = none) (hh' : pc.holds = none)
    (hlive : ∀ x, pc.uses = some x → x ∉ s.freed ∧ x.ptr < s.tables.next)
    (hquiet : ∀ n, s.destroyers n = .destroyed → pc ≠ .node n) :
    Owned { s with calls := Function.update s.calls w pc, started := started } := by
  refine ⟨hi.memory, hi.registry, ?_, hi.fds, hi.fresh, hi.calls.move hw hle hlive fun n hn => ⟨hquiet n hn, ?_⟩⟩
  · rw [Function.comp_update, hh', ← hh, show (s.calls w).holds = (Pc.holds ∘ s.calls) w from rfl,
      Function.update_eq_self]
    exact hi.lists
  · intro c e; rw [e] at hh'; cases hh'

/-- A call that works on the pool of node `ptr`. -/
theorem Owned.work (hi : Owned s) {ptr : Nat} {pool : PoolObj} {heap : Heap Unit} {pc : Pc} (hw : w < s.started)
    (hptr : ptr < s.tables.next) (hlists : Lists (Function.update s.pools ptr pool) heap.nextConn
      (Function.update (Pc.holds ∘ s.calls) w pc.holds)) (hfds : Fds heap)
    (hlive : ∀ x, pc.uses = some x → x ∉ s.freed ∧ x.ptr < s.tables.next)
    (hquiet : ∀ n, s.destroyers n = .destroyed → pc ≠ .node n ∧ ∀ c, pc ≠ .working n c) :
    Owned { s with
      pools := Function.update s.pools ptr pool, heap := heap, calls := Function.update s.calls w pc } := by
  refine ⟨hi.memory, hi.registry, ?_, hfds, fun n hn => ?_, hi.calls.move hw (Nat.le_refl _) hlive hquiet⟩
  · rw [Function.comp_update]; exact hlists
  · have hle : s.tables.next ≤ n := hn
    simp only [Function.update_of_ne (show n ≠ ptr by omega)]
    exact hi.fresh n hle

/-- A step of the registry thread on the tables; `frees` is what it frees. -/
theorem Owned.retable (hi : Owned s) (t' : Tables) (registry : RegistryPc) (frees : List Obj)
    (destroyers : Nat → Destroyer) (hm : Memory t' (s.freed ++ frees) destroyers) (hle : s.tables.next ≤ t'.next)
    (hf : Found t' registry) (hfrees : ∀ w x, (s.calls w).uses = some x → x ∉ frees)
    (hquiet : ∀ n, destroyers n = .destroyed → s.destroyers n = .destroyed) :
    Owned { s with tables := t', registry := registry, freed := s.freed ++ frees, destroyers := destroyers } :=
  ⟨hm, hf, hi.lists, hi.fds, fun n hn => hi.fresh n (Nat.le_trans hle hn),
    fun w x hx => ⟨fun hmem => (List.mem_append.mp hmem).elim (hi.calls.live w x hx).1 (hfrees w x hx),
      Nat.lt_of_lt_of_le (hi.calls.live w x hx).2 hle⟩,
    fun n hn => hi.calls.quiet n (hquiet n hn), hi.calls.waiting⟩

/-- A step that grows the tables, or leaves them. -/
theorem Owned.regrow (hi : Owned s) (t' : Tables) (registry : RegistryPc) (hm : Memory t' s.freed s.destroyers)
    (hle : s.tables.next ≤ t'.next) (hf : Found t' registry) :
    Owned { s with tables := t', registry := registry } := by
  have h := hi.retable t' registry [] s.destroyers (by rw [List.append_nil]; exact hm) hle hf
    (fun _ _ _ => List.not_mem_nil) fun _ hn => hn
  simpa only [List.append_nil] using h

/-! ## The steps of a call -/

/-- Taking a node key leaves every item under its key. -/
theorem found_next {item : ServiceResource} {registry : RegistryPc} (hf : Found t registry) :
    Found (serviceResourceNext t item).2 registry := by
  have hget : ∀ k p, (∃ i, serviceResourceGetByKey t k = some i ∧ i.ptr = p) →
      ∃ i, serviceResourceGetByKey (serviceResourceNext t item).2 k = some i ∧ i.ptr = p := by
    intro k p ⟨i, hi, hp⟩
    have hk : ∀ i : ServiceResource, ServiceResource.key { i with
      nodeKeyArray := (stringArrayNext i.nodeKeyArray).2 } = i.key := fun _ => rfl
    have := HashTable.find_modify (t := t.servicesResourcePool) (k := item.key) hk k
    rw [show HashTable.find ServiceResource.key t.servicesResourcePool k = some i from hi, Option.map_some] at this
    refine ⟨_, this, ?_⟩
    split <;> exact hp
  cases registry with
  | extend a ptr => exact hget _ _ hf
  | shrink a ptr => exact hget _ _ hf
  | unlink a ptr => exact hf
  | _ => trivial

theorem owned_start {group service version : CStr} (hi : Owned s)
    (hs : step s (.start group service version) = some u) : Owned u := by
  obtain rfl := Option.some.inj hs
  have hidle : (s.calls s.started).holds = none := by rw [hi.calls.waiting _ (Nat.le_refl _)]; rfl
  cases hget : serviceResourceGet s.tables group service version with
  | none =>
    exact hi.move _ (Nat.lt_succ_self _) (Nat.le_succ _) hidle rfl (fun _ hx => by cases hx)
      fun _ _ => Pc.noConfusion
  | some item =>
    refine hi.move _ (Nat.lt_succ_self _) (Nat.le_succ _) hidle rfl (fun x hx => ?_) fun _ _ => Pc.noConfusion
    obtain rfl := Option.some.inj hx
    exact hi.memory.live (item_mem (HashTable.find_key hget).1)

theorem owned_next (hi : Owned s) (hs : step s (.next w) = some u) : Owned u := by
  simp only [step] at hs
  split at hs
  · rename_i ptr hw
    obtain ⟨item, hitem, rfl⟩ := Option.map_eq_some_iff.mp hs
    have hmem := itemAt_mem hitem
    have hm : Memory (serviceResourceNext s.tables item).2 s.freed s.destroyers :=
      hi.memory.grow [] (next_objs hmem) List.nodup_nil (Nat.le_refl _) fun _ hx => absurd hx List.not_mem_nil
    have hi' := hi.regrow _ s.registry hm (Nat.le_refl _) (found_next hi.registry)
    have hstart := hi.began (w := w) (by rw [hw]; exact Pc.noConfusion)
    have hholds : (s.calls w).holds = none := by rw [hw]; rfl
    refine hi'.move ((stringArrayNext item.nodeKeyArray).1.elim .idle .poolKey) hstart (Nat.le_refl _) hholds
      ?_ (fun x hx => ?_) fun n _ => ?_
    · cases (stringArrayNext item.nodeKeyArray).1 <;> rfl
    · cases hstr : (stringArrayNext item.nodeKeyArray).1 with
      | none => rw [hstr] at hx; cases hx
      | some str =>
        rw [hstr] at hx
        obtain rfl := Option.some.inj hx
        exact hi.memory.live (str_mem hmem (stringArrayNext_mem hstr))
    · cases (stringArrayNext item.nodeKeyArray).1 <;> exact Pc.noConfusion
  · cases hs

theorem owned_copy (hi : Owned s) (hs : step s (.copy w) = some u) : Owned u := by
  simp only [step] at hs
  split at hs
  · rename_i str hw
    obtain rfl := Option.some.inj hs
    exact hi.move _ (hi.began (by rw [hw]; exact Pc.noConfusion)) (Nat.le_refl _) (by rw [hw]; rfl) rfl
      (fun _ hx => by cases hx) fun _ _ => Pc.noConfusion
  · cases hs

theorem owned_findNode (hi : Owned s) (hs : step s (.findNode w) = some u) : Owned u := by
  simp only [step] at hs
  split at hs
  · rename_i nodeKey hw
    obtain rfl := Option.some.inj hs
    have hstart := hi.began (w := w) (by rw [hw]; exact Pc.noConfusion)
    cases hget : nodeResourceGetByKey s.tables nodeKey with
    | none =>
      exact hi.move _ hstart (Nat.le_refl _) (by rw [hw]; rfl) rfl (fun _ hx => by cases hx) fun _ _ => Pc.noConfusion
    | some node =>
      -- a node in the table has no destroyer
      have hmem := node_mem (HashTable.find_key hget).1
      refine hi.move _ hstart (Nat.le_refl _) (by rw [hw]; rfl) rfl (fun x hx => ?_) fun n hn e => ?_
      · obtain rfl := Option.some.inj hx; exact hi.memory.live hmem
      · obtain rfl := Pc.node.inj e
        exact (hi.memory.unlinked node.ptr (by rw [hn]; exact Destroyer.noConfusion)).2 hmem
  · cases hs

theorem owned_require {r : Connect} {now : Timeval} (hi : Owned s) (hs : step s (.require w r now) = some u) :
    Owned u := by
  simp only [step] at hs
  split at hs
  · rename_i ptr hw
    have hstart := hi.began (w := w) (by rw [hw]; exact Pc.noConfusion)
    have hlive := hi.calls.live w (.node ptr) (by rw [hw]; rfl)
    have hholds : (Pc.holds ∘ s.calls) w = none := by rw [Function.comp_apply, hw]; rfl
    have hquiet : ∀ n, s.destroyers n = .destroyed → n ≠ ptr := fun n hn e => (hi.calls.quiet n hn w).1 (e ▸ hw)
    have hlive' : ∀ x, some (Obj.node ptr) = some x → x ∉ s.freed ∧ x.ptr < s.tables.next := fun x hx => by
      obtain rfl := Option.some.inj hx; exact hlive
    rcases require_cases (s.pools ptr) s.heap r now with ⟨conn, rest, hu, he⟩ | ⟨heap, hh, he⟩ | ⟨-, -, he⟩
    · rw [he] at hs
      obtain rfl := Option.some.inj hs
      exact hi.work hstart hlive.2 (hi.lists.take_idle hu) hi.fds hlive' fun n hn => ⟨Pc.noConfusion, fun c e =>
        hquiet n hn (Pc.working.inj e).1.symm⟩
    · rw [he] at hs
      obtain rfl := Option.some.inj hs
      have hheap : Fds heap ∧ s.heap.nextConn ≤ heap.nextConn := by
        rcases hh with rfl | rfl
        · exact ⟨hi.fds, Nat.le_refl _⟩
        · refine ⟨hi.fds.connectNew (s.pools ptr) r now, ?_⟩
          rw [← connectNew, connectNew_nextConn]
          exact Nat.le_succ _
      refine hi.work hstart hlive.2 ?_ hheap.1 hlive' fun n _ => ⟨Pc.noConfusion, fun _ => Pc.noConfusion⟩
      rw [Function.update_eq_self, show (Option.elim none (Pc.logging ptr) (Pc.working ptr)).holds = none from rfl,
        ← hholds, Function.update_eq_self]
      exact hi.lists.mono hheap.2
    · rw [he] at hs
      obtain rfl := Option.some.inj hs
      refine hi.work hstart hlive.2 ?_ (hi.fds.connectNew (s.pools ptr) r now) hlive' fun n hn =>
        ⟨Pc.noConfusion, fun c e => hquiet n hn (Pc.working.inj e).1.symm⟩
      rw [← connectNew, connectNew_nextConn]
      exact hi.lists.take_new
  · cases hs

theorem owned_release {now : Timeval} (hi : Owned s) (hs : step s (.release w now) = some u) : Owned u := by
  simp only [step] at hs
  split at hs
  · rename_i ptr conn hw
    obtain rfl := Option.some.inj hs
    have hlive := hi.calls.live w (.node ptr) (by rw [hw]; rfl)
    have hholds : (Pc.holds ∘ s.calls) w = some (ptr, conn) := by rw [Function.comp_apply, hw]; rfl
    refine hi.work (hi.began (by rw [hw]; exact Pc.noConfusion)) hlive.2 (hi.lists.give_back hholds)
      (hi.fds.setConn rfl rfl) (fun x hx => ?_) fun n _ => ⟨Pc.noConfusion, fun _ => Pc.noConfusion⟩
    obtain rfl := Option.some.inj hx
    exact hlive
  · cases hs

theorem owned_log (hi : Owned s) (hs : step s (.log w) = some u) : Owned u := by
  simp only [step] at hs
  split at hs
  · rename_i ptr hw
    obtain rfl := Option.some.inj hs
    exact hi.move _ (hi.began (by rw [hw]; exact Pc.noConfusion)) (Nat.le_refl _) (by rw [hw]; rfl) rfl
      (fun _ hx => by cases hx) fun _ _ => Pc.noConfusion
  · cases hs

/-! ## The steps of the registry thread -/

theorem node_not_freed (item : ServiceResource) (nodeKey : CStr) (n : Nat) : Obj.node n ∉ shrinkFrees item nodeKey := by
  have hdel : Obj.node n ∉ deleteFrees item.nodeKeyArray nodeKey := by
    unfold deleteFrees
    split
    · rename_i idx _
      cases item.nodeKeyArray.strs[idx]? <;> simp
    · exact List.not_mem_nil
  unfold shrinkFrees
  split
  · rw [List.mem_cons, not_or]; exact ⟨Obj.noConfusion, hdel⟩
  · exact hdel

theorem Owned.found_item (hi : Owned s) {k : CStr} {ptr : Nat}
    (hf : ∃ item, serviceResourceGetByKey s.tables k = some item ∧ item.ptr = ptr) :
    ∃ item, itemAt s.tables ptr = some item ∧ serviceResourceGetByKey s.tables item.key = some item := by
  obtain ⟨item, hget, rfl⟩ := hf
  have hk : item.key = k := (HashTable.find_key hget).2
  exact ⟨item, itemAt_of_get (List.nodup_append.mp hi.memory.objs_nodup).1 hget, hk.symm ▸ hget⟩

theorem owned_insertNode {a : Registration} {o : Outcome} (hi : Owned s) (hpc : s.registry = .insertNode a)
    (hs : registryStep s o = some u) : Owned u := by
  simp only [registryStep, hpc] at hs
  split at hs
  · obtain ⟨l, hp, hle, hf, hnd, hl, -⟩ := poolInitLoop_spec o.now o.results ⟨[], [], false, snprintf hostNameLen a.host,
      a.port, o.timeoutsecs, o.initConnNum, o.minConnNum, o.maxConnNum, o.maxIdleSecs⟩ s.heap hi.fds
    simp only [poolInit, hp, List.nil_append, Option.some.injEq] at hs
    subst hs
    have hm : Memory (nodeResourceInsert s.tables a.nodeKey) s.freed s.destroyers :=
      hi.memory.grow [.node s.tables.next] (nodeInsert_objs s.tables a.nodeKey) (List.nodup_singleton _)
        (Nat.le_succ _) fun x hx => by rw [List.mem_singleton.mp hx]; exact ⟨Nat.le_refl _, Nat.lt_succ_self _⟩
    obtain ⟨h1, h2, -, -, h5, h6⟩ := hi.regrow _ (.addService a) hm (Nat.le_succ _) trivial
    refine ⟨h1, h2, hi.lists.add_pool (hi.fresh _ (Nat.le_refl _)) rfl hle hnd fun c hc => ⟨(hl c hc).1, (hl c hc).2.1⟩,
      hf, fun n hn => ?_, ⟨h6.live, h6.quiet, h6.waiting⟩⟩
    have hlt : s.tables.next + 1 ≤ n := hn
    simp only [Function.update_of_ne (show n ≠ s.tables.next by omega)]
    exact h5 n hn
  · cases hs

theorem owned_registry {o : Outcome} (hi : Owned s) (hok : Undisturbed s (.registry o))
    (hs : step s (.registry o) = some u) : Owned u := by
  simp only [step] at hs
  have hreg := hi.registry
  cases hpc : s.registry with
  | insertNode a => exact owned_insertNode hi hpc hs
  | idle => simp [registryStep, hpc] at hs
  | addNode a =>
    simp only [registryStep, hpc, Option.some.injEq] at hs
    subst hs
    refine hi.regrow _ _ hi.memory (Nat.le_refl _) ?_
    split <;> trivial
  | addService a =>
    simp only [registryStep, hpc, Option.some.injEq] at hs
    subst hs
    refine hi.regrow _ _ hi.memory (Nat.le_refl _) ?_
    split
    · rename_i item hget; exact ⟨item, hget, rfl⟩
    · trivial
  | extend a ptr =>
    rw [hpc] at hreg
    obtain ⟨item, hat, hget⟩ := hi.found_item hreg
    simp only [registryStep, hpc, hat, Option.map_some, Option.some.injEq] at hs
    subst hs
    obtain ⟨new, hnew, hperm⟩ := extend_objs hget a.nodeKey.str
    refine hi.regrow _ _ (hi.memory.grow new hperm ?_ (Nat.le_succ _) ?_) (Nat.le_succ _) trivial
    · rcases hnew with rfl | rfl
      · exact List.nodup_nil
      · exact List.nodup_singleton _
    · intro x hx
      rcases hnew with rfl | rfl
      · cases hx
      · rw [List.mem_singleton.mp hx]; exact ⟨Nat.le_refl _, Nat.lt_succ_self _⟩
  | insertService a =>
    simp only [registryStep, hpc, Option.some.injEq] at hs
    subst hs
    refine hi.regrow _ _ (hi.memory.grow [.item s.tables.next, .str (s.tables.next + 1)] (List.Perm.refl _)
      (by simp) (by show _ ≤ s.tables.next + 2; omega) fun x hx => ?_) (by show _ ≤ s.tables.next + 2; omega) trivial
    have hnext : (serviceResourceInsert s.tables a.serviceKey a.nodeKey.str).next = s.tables.next + 2 := rfl
    simp only [List.mem_cons, List.not_mem_nil, or_false] at hx
    rcases hx with rfl | rfl
    · exact ⟨Nat.le_refl _, by rw [hnext]; simp only [Obj.ptr]; omega⟩
    · exact ⟨Nat.le_succ _, by rw [hnext]; simp only [Obj.ptr]; omega⟩
  | deleteService a =>
    simp only [registryStep, hpc, Option.some.injEq] at hs
    subst hs
    refine hi.regrow _ _ hi.memory (Nat.le_refl _) ?_
    split
    · rename_i item hget; exact ⟨item, hget, rfl⟩
    · trivial
  | shrink a ptr =>
    rw [hpc] at hreg
    obtain ⟨item, hat, hget⟩ := hi.found_item hreg
    simp only [Undisturbed, RegistryPc.frees, hpc, hat, Option.elim_some] at hok
    simp only [registryStep, hpc, hat, Option.map_some, Option.some.injEq] at hs
    subst hs
    have hnext : (serviceResourceShrink s.tables item a.nodeKey.str).next = s.tables.next := by
      unfold serviceResourceShrink; simp only; split <;> rfl
    refine hi.retable _ _ _ _ (hi.memory.free (shrink_objs hget _) hnext (node_not_freed item _))
      (Nat.le_of_eq hnext.symm) trivial
      (fun w x hx hmem => ?_) fun _ hn => hn
    have hstart := hi.began (w := w) (by intro e; rw [e] at hx; cases hx)
    exact hok x hmem w hstart hx
  | checkUsed a =>
    simp only [registryStep, hpc, Option.some.injEq] at hs
    subst hs
    refine hi.regrow _ _ hi.memory (Nat.le_refl _) ?_
    split <;> trivial
  | findNode a =>
    simp only [registryStep, hpc, Option.some.injEq] at hs
    subst hs
    refine hi.regrow _ _ hi.memory (Nat.le_refl _) ?_
    split
    · rename_i node hget; exact ⟨node, hget, rfl⟩
    · trivial
  | unlink a ptr =>
    rw [hpc] at hreg
    obtain ⟨node, hget, rfl⟩ := hreg
    have hk : node.key = a.nodeKey.str := (HashTable.find_key hget).2
    simp only [registryStep, hpc, nodeAt_of_get (List.nodup_append.mp hi.memory.objs_nodup).2.1 hget, Option.map_some,
      Option.some.injEq] at hs
    subst hs
    have hm := hi.memory.unlink (unlink_objs (hk.symm ▸ hget)) rfl
      (if o.created then Function.update s.destroyers node.ptr (.trying destroyRetries) else s.destroyers) (by
        cases o.created with
        | true => exact Or.inr ⟨destroyRetries, rfl⟩
        | false => exact Or.inl rfl)
    have h := hi.retable (nodeResourceUnlink s.tables node) .idle [] _ (by rw [List.append_nil]; exact hm)
      (Nat.le_refl _) trivial (fun _ _ _ => List.not_mem_nil) fun n hn => by
        split at hn
        · by_cases e : n = node.ptr
          · subst e; rw [Function.update_self] at hn; cases hn
          · rwa [Function.update_of_ne e] at hn
        · exact hn
    simpa only [List.append_nil] using h

/-! ## The destroyers -/

theorem owned_destroy {ptr : Nat} (hi : Owned s) (hok : Undisturbed s (.destroy ptr))
    (hs : step s (.destroy ptr) = some u) : Owned u := by
  simp only [step] at hs
  split at hs
  · rename_i retry hd
    have hm : ∀ d, Memory s.tables s.freed (Function.update s.destroyers ptr d) := fun d => by
      have h := hi.memory.destroyer ptr d [] (by rw [hd]; exact Destroyer.noConfusion)
        (by rw [hd]; exact Destroyer.noConfusion) (Or.inl rfl)
      rwa [List.append_nil] at h
    have hlt := (hi.memory.unlinked ptr (by rw [hd]; exact Destroyer.noConfusion)).1
    rcases poolDestroy_cases hi.fds (s.pools ptr) with ⟨-, he⟩ | ⟨heap, hu, he, hn, hf⟩
    · simp only [he] at hs
      obtain rfl := Option.some.inj hs
      refine ⟨hm _, hi.registry, hi.lists, hi.fds, hi.fresh, hi.calls.live, fun n hn => ?_, hi.calls.waiting⟩
      have e : n ≠ ptr := fun e => by subst e; simp only [Function.update_self] at hn; cases hn
      simp only [Function.update_of_ne e] at hn
      exact hi.calls.quiet n hn
    · simp only [he] at hs
      obtain rfl := Option.some.inj hs
      refine ⟨hm _, hi.registry, ?_, hf, fun n hn => ?_, hi.calls.live, fun n hn w => ?_, hi.calls.waiting⟩
      · rw [hn]; exact hi.lists.clear hu (by simp [PoolObj.members, hu])
      · have : s.tables.next ≤ n := hn
        simp only [Function.update_of_ne (show n ≠ ptr by omega)]
        exact hi.fresh n hn
      · by_cases e : n = ptr
        · subst e
          refine ⟨fun hw => hok hu w (hi.began (by rw [hw]; exact Pc.noConfusion)) hw, fun c hw => ?_⟩
          -- a connection in use would have kept the pool alive
          have hheld := hi.lists.held w n c (by rw [Function.comp_apply, hw]; rfl)
          rw [hu] at hheld
          cases hheld
        · simp only [Function.update_of_ne e] at hn
          exact hi.calls.quiet n hn w
  · cases hs

theorem owned_free {ptr : Nat} (hi : Owned s) (hok : Undisturbed s (.free ptr))
    (hs : step s (.free ptr) = some u) : Owned u := by
  simp only [step] at hs
  split at hs
  · rename_i hd
    obtain rfl := Option.some.inj hs
    have hm := hi.memory.destroyer ptr .finished [.node ptr]
      (by rw [hd]; exact Destroyer.noConfusion) (by rw [hd]; exact Destroyer.noConfusion) (Or.inr ⟨rfl, rfl⟩)
    refine hi.retable _ _ _ _ hm (Nat.le_refl _) hi.registry (fun w x hx hmem => ?_) fun n hn => ?_
    · obtain rfl := List.mem_singleton.mp hmem
      obtain ⟨hnode, hwork⟩ := hi.calls.quiet ptr hd w
      have hstart := hi.began (w := w) (by intro e; rw [e] at hx; cases hx)
      have hlog := hok w hstart
      cases hw : s.calls w with
      | node p => rw [hw] at hx; exact hnode (hw.trans (congrArg Pc.node (Obj.node.inj (Option.some.inj hx))))
      | working p c =>
        rw [hw] at hx
        exact hwork c (hw.trans (congrArg (Pc.working · c) (Obj.node.inj (Option.some.inj hx))))
      | logging p => rw [hw] at hx; exact hlog (hw.trans (congrArg Pc.logging (Obj.node.inj (Option.some.inj hx))))
      | _ => rw [hw] at hx; cases hx
    · by_cases e : n = ptr
      · subst e; rw [Function.update_self] at hn; cases hn
      · rwa [Function.update_of_ne e] at hn
  · cases hs

theorem owned_step {a : Label} (hi : Owned s) (hok : Undisturbed s a) (hs : step s a = some u) : Owned u := by
  cases a with
  | start => exact owned_start hi hs
  | next => exact owned_next hi hs
  | copy => exact owned_copy hi hs
  | findNode => exact owned_findNode hi hs
  | require => exact owned_require hi hs
  | release => exact owned_release hi hs
  | log => exact owned_log hi hs
  | resourceAdd a =>
    simp only [step] at hs
    split at hs
    · obtain rfl := Option.some.inj hs
      exact hi.regrow _ _ hi.memory (Nat.le_refl _) trivial
    · cases hs
  | resourceDelete a =>
    simp only [step] at hs
    split at hs
    · obtain rfl := Option.some.inj hs
      exact hi.regrow _ _ hi.memory (Nat.le_refl _) trivial
    · cases hs
  | registry => exact owned_registry hi hok hs
  | destroy => exact owned_destroy hi hok hs
  | free => exact owned_free hi hok hs

/-! ## Every run -/

theorem owned_init : Owned St.init := by
  refine ⟨⟨List.nodup_nil, fun _ h => absurd h List.not_mem_nil, fun _ h => absurd rfl h,
    fun _ h => absurd h List.not_mem_nil⟩, trivial, ⟨fun _ _ h => absurd h List.not_mem_nil, fun _ => List.nodup_nil,
    fun _ _ _ h => absurd h List.not_mem_nil, fun _ _ _ h => ?_, fun _ _ _ _ _ h => ?_⟩,
    ⟨fun _ _ h => ?_, fun _ _ _ h => ?_, fun _ _ h => ?_⟩, fun _ _ => rfl,
    ⟨fun _ _ h => ?_, fun _ h => ?_, fun _ _ => rfl⟩⟩
  all_goals cases h

theorem no_use_after_free (h : Reach step Undisturbed St.init s) : Safe s := fun w x hx =>
  ((h.inv owned_init fun _ _ _ hi hok hs => owned_step hi hok hs).calls.live w x hx).1

/-- Nothing else is left out: a step against `Undisturbed` frees what a call will use, or
    destroys a pool a call is coming to. -/
theorem disturbed {a : Label} (hbad : ¬Undisturbed s a) (hs : step s a = some u) :
    ¬Safe u ∨ ∃ w ptr, u.calls w = .node ptr ∧ u.destroyers ptr = .destroyed := by
  cases a with
  | registry o =>
    simp only [Undisturbed, Classical.not_forall, Classical.not_not] at hbad
    obtain ⟨x, hx, w, -, huse⟩ := hbad
    cases hpc : s.registry with
    | shrink a ptr =>
      rw [hpc] at hx
      simp only [step, registryStep, hpc] at hs
      obtain ⟨item, hat, rfl⟩ := Option.map_eq_some_iff.mp hs
      simp only [RegistryPc.frees, hat, Option.elim_some] at hx
      exact Or.inl fun hsafe => hsafe w x huse (List.mem_append_right _ hx)
    | _ => rw [hpc] at hx; cases hx
  | destroy ptr =>
    simp only [Undisturbed, Classical.not_forall, Classical.not_not] at hbad
    obtain ⟨hu, w, -, hw⟩ := hbad
    simp only [step] at hs
    split at hs
    · have hret : ¬(poolDestroy (s.pools ptr) s.heap).1 < 0 := by
        rw [poolDestroy, if_neg (by simp [hu])]
        exact Int.lt_irrefl 0
      simp only [if_neg hret] at hs
      obtain rfl := Option.some.inj hs
      exact Or.inr ⟨w, ptr, hw, Function.update_self ..⟩
    · cases hs
  | free ptr =>
    simp only [Undisturbed, Classical.not_forall, Classical.not_not] at hbad
    obtain ⟨w, -, hw⟩ := hbad
    simp only [step] at hs
    split at hs
    · obtain rfl := Option.some.inj hs
      exact Or.inl fun hsafe => hsafe w (.node ptr) (by rw [hw]; rfl) (List.mem_append_right _ List.mem_cons_self)
    · cases hs
  | _ => exact absurd trivial hbad

/-! ## One provider comes and goes -/

instance (s : St) : (a : Label) → Decidable (Undisturbed s a)
  | .registry _ => inferInstanceAs (Decidable (∀ x ∈ s.registry.frees s.tables, ∀ w < s.started,
      (s.calls w).uses ≠ some x))
  | .destroy ptr => inferInstanceAs (Decidable ((s.pools ptr).usedConnList = [] → ∀ w < s.started,
      s.calls w ≠ .node ptr))
  | .free ptr => inferInstanceAs (Decidable (∀ w < s.started, s.calls w ≠ .logging ptr))
  | .start .. | .next _ | .copy _ | .findNode _ | .require .. | .release .. | .log _ | .resourceAdd _
  | .resourceDelete _ => isTrue trivial

def sampleRegistration : Registration := ⟨.lit "g", .lit "s", .lit "v", .lit "h", 80⟩

def sampleOutcome : Outcome := ⟨3, 1, 1, 6, 60, ⟨0, 0⟩, [.accepted], true⟩

/-- `resource_add` by itself. -/
def added : List Label := .resourceAdd sampleRegistration :: List.replicate 4 (.registry sampleOutcome)

/-- The provider leaves while a call has a connection to it: the pool outlives the call. -/
def leftInUse : List Label :=
  added ++ [.start (.lit "g") (.lit "s") (.lit "v"), .next 0, .copy 0, .findNode 0, .require 0 .refused ⟨1, 0⟩,
      .resourceDelete sampleRegistration] ++
    List.replicate 5 (.registry sampleOutcome) ++ [.destroy 0, .release 0 ⟨2, 0⟩, .destroy 0, .log 0, .free 0]

theorem no_use_after_free_sample : ∃ s, Reach step Undisturbed St.init s ∧
    decide (s.freed = [.item 1, .str 2, .node 0]) = true ∧ Safe s := by
  have hrun : ((exec step Undisturbed St.init leftInUse).any fun s =>
      decide (s.freed = [.item 1, .str 2, .node 0])) = true := by decide +kernel
  obtain ⟨s, hs, hf⟩ := reach_of_exec_any hrun
  exact ⟨s, hs, hf, no_use_after_free hs⟩

/-- The provider leaves between a call's two locks. -/
def leftBetween : List Label :=
  added ++ [.start (.lit "g") (.lit "s") (.lit "v"), .resourceDelete sampleRegistration] ++
    List.replicate 2 (.registry sampleOutcome)

theorem freed_item_used : ¬∀ s, Reach step (fun _ _ => True) St.init s → Safe s := by
  intro hall
  have hrun : ((exec step (fun _ _ => True) St.init leftBetween).any fun s =>
      decide ((s.calls 0).uses = some (.item 1) ∧ Obj.item 1 ∈ s.freed)) = true := by decide +kernel
  obtain ⟨s, hs, hp⟩ := reach_of_exec_any hrun
  obtain ⟨huse, hfreed⟩ := of_decide_eq_true hp
  exact hall s hs 0 (.item 1) huse hfreed

end Ddm.Lifetime
