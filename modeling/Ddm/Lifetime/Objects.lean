/-
  Ddm.Lifetime.Objects — the objects the tables hold: every item, each of its strings,
  and every node.

  Proved: what each critical section of `Ddm.Registry.ResourceMgt` adds to them or takes
  out of them, and that a deletion takes out exactly what it frees (`shrink_objs`). The
  critical sections of one call in a row are the whole function (`registry_add`,
  `registry_delete`).
-/

import Mathlib.Data.List.Perm.Basic
import Ddm.Lifetime.Model

namespace Ddm.Lifetime

open Ddm.Lib Ddm.Pool Ddm.Registry

def Obj.ptr : Obj → Nat
  | .item ptr => ptr
  | .str ptr => ptr
  | .node ptr => ptr

def itemObjs (e : ServiceResource) : List Obj := .item e.ptr :: e.nodeKeyArray.strs.map fun s => .str s.ptr

def tableObjs (t : Tables) : List Obj :=
  t.servicesResourcePool.flatMap itemObjs ++ t.nodesResourcePool.map fun n => .node n.ptr

variable {t : Tables} {e : ServiceResource} {x : NodeResource} {str : Str}

theorem item_mem (he : e ∈ t.servicesResourcePool) : Obj.item e.ptr ∈ tableObjs t :=
  List.mem_append_left _ (List.mem_flatMap.mpr ⟨e, he, List.mem_cons_self⟩)

theorem str_mem (he : e ∈ t.servicesResourcePool) (hs : str ∈ e.nodeKeyArray.strs) : Obj.str str.ptr ∈ tableObjs t :=
  List.mem_append_left _ (List.mem_flatMap.mpr
    ⟨e, he, List.mem_cons_of_mem _ (List.mem_map_of_mem (f := fun s : Str => Obj.str s.ptr) hs)⟩)

theorem node_mem (hx : x ∈ t.nodesResourcePool) : Obj.node x.ptr ∈ tableObjs t :=
  List.mem_append_right _ (List.mem_map_of_mem (f := fun n : NodeResource => Obj.node n.ptr) hx)

/-- Looking up by key what the next step looks up by pointer. -/
theorem itemAt_of_get {k : CStr} (hnd : (t.servicesResourcePool.flatMap itemObjs).Nodup)
    (h : serviceResourceGetByKey t k = some e) :
    itemAt t e.ptr = some e := by
  obtain ⟨l, r, ht, -⟩ := HashTable.find_split h
  have hl : ∀ j ∈ l, ¬j.ptr = e.ptr := by
    intro j hj hp
    simp only [ht, List.flatMap_append, List.flatMap_cons, itemObjs] at hnd
    refine (List.nodup_append.mp hnd).2.2 (.item j.ptr)
      (List.mem_flatMap.mpr ⟨j, hj, List.mem_cons_self⟩) (.item e.ptr) ?_ (by rw [hp])
    exact List.mem_append_left _ List.mem_cons_self
  rw [itemAt, ht, List.find?_append, List.find?_eq_none.mpr fun j hj => by simpa using hl j hj]
  simp

theorem nodeAt_of_get {k : CStr} (hnd : (t.nodesResourcePool.map fun n => Obj.node n.ptr).Nodup)
    (h : nodeResourceGetByKey t k = some x) :
    nodeAt t x.ptr = some x := by
  obtain ⟨l, r, ht, -⟩ := HashTable.find_split h
  have hl : ∀ j ∈ l, ¬j.ptr = x.ptr := by
    intro j hj hp
    simp only [ht, List.map_append, List.map_cons] at hnd
    refine (List.nodup_append.mp hnd).2.2 (.node j.ptr)
      (List.mem_map.mpr ⟨j, hj, rfl⟩) (.node x.ptr) List.mem_cons_self (by rw [hp])
  rw [nodeAt, ht, List.find?_append, List.find?_eq_none.mpr fun j hj => by simpa using hl j hj]
  simp

/-! ## One item changed or unlinked -/

/-- The objects apart from the item `find` returns: `rest`. -/
theorem objs_split {k : CStr} (h : serviceResourceGetByKey t k = some e) : ∃ rest,
    (tableObjs t).Perm (itemObjs e ++ rest) ∧
    (∀ f, (tableObjs { t with
      servicesResourcePool := HashTable.modify ServiceResource.key t.servicesResourcePool k f }).Perm
        (itemObjs (f e) ++ rest)) ∧
    (tableObjs { t with
      servicesResourcePool := HashTable.del ServiceResource.key t.servicesResourcePool k }).Perm rest := by
  obtain ⟨l, r, ht, hm, hd⟩ := HashTable.find_split h
  refine ⟨l.flatMap itemObjs ++ r.flatMap itemObjs ++ t.nodesResourcePool.map fun n => .node n.ptr, ?_, fun f => ?_, ?_⟩
  · refine List.perm_iff_count.mpr fun o => ?_
    simp only [tableObjs, ht, List.flatMap_append, List.flatMap_cons, List.count_append]
    omega
  · refine List.perm_iff_count.mpr fun o => ?_
    simp only [tableObjs, hm f, List.flatMap_append, List.flatMap_cons, List.count_append]
    omega
  · simp only [tableObjs, hd, List.flatMap_append]
    exact List.Perm.refl _

/-- Taking a node key counts and moves nothing. -/
theorem next_objs (he : e ∈ t.servicesResourcePool) : (tableObjs (serviceResourceNext t e).2).Perm (tableObjs t) := by
  obtain ⟨i, hi⟩ := Option.isSome_iff_exists.mp (HashTable.find_isSome.mpr (List.mem_map_of_mem
    (f := ServiceResource.key) he))
  obtain ⟨rest, h0, hm, -⟩ := objs_split hi
  refine (hm _).trans (List.Perm.trans ?_ h0.symm)
  simp only [itemObjs, strs_stringArrayNext]
  exact List.Perm.refl _

theorem itemAt_mem {ptr : Nat} (h : itemAt t ptr = some e) : e ∈ t.servicesResourcePool := List.mem_of_find?_eq_some h

/-- At most the new copy is added. -/
theorem extend_objs (h : serviceResourceGetByKey t e.key = some e) (nodeKey : CStr) :
    ∃ new, (new = [] ∨ new = [Obj.str t.next]) ∧
      (tableObjs (serviceResourceExtend t e nodeKey)).Perm (new ++ tableObjs t) := by
  obtain ⟨rest, h0, hm, -⟩ := objs_split h
  have hm := hm fun e => { e with nodeKeyArray := stringArrayAdd e.nodeKeyArray t.next nodeKey }
  cases hf : stringArrayFind e.nodeKeyArray nodeKey with
  | some idx =>
    simp only [stringArrayAdd, hf, itemObjs] at hm
    exact ⟨[], Or.inl rfl, List.Perm.trans hm h0.symm⟩
  | none =>
    simp only [stringArrayAdd, hf, itemObjs, List.map_append, List.map_cons, List.map_nil] at hm
    refine ⟨[.str t.next], Or.inr rfl, List.Perm.trans hm ?_⟩
    refine List.perm_iff_count.mpr fun o => ?_
    have := (List.perm_iff_count.mp h0) o
    simp only [itemObjs, List.count_append, List.count_cons] at this ⊢
    omega

theorem delete_objs (array : StringArray) (nodeKey : CStr) :
    (array.strs.map fun s => Obj.str s.ptr).Perm
      (deleteFrees array nodeKey ++ (stringArrayDelete array nodeKey).strs.map fun s => Obj.str s.ptr) := by
  cases hf : stringArrayFind array nodeKey with
  | none => simp only [deleteFrees, stringArrayDelete, hf, List.nil_append]; exact List.Perm.refl _
  | some idx =>
    obtain ⟨hlt, -⟩ := List.findIdx?_eq_some_iff_getElem.mp hf
    simp only [deleteFrees, stringArrayDelete, hf, List.getElem?_eq_getElem hlt, Option.map_some, Option.toList_some,
      List.singleton_append]
    exact ((List.getElem_cons_eraseIdx_perm hlt).map fun s : Str => Obj.str s.ptr).symm

theorem shrink_objs (h : serviceResourceGetByKey t e.key = some e) (nodeKey : CStr) :
    (tableObjs t).Perm (shrinkFrees e nodeKey ++ tableObjs (serviceResourceShrink t e nodeKey)) := by
  obtain ⟨rest, h0, hm, hd⟩ := objs_split h
  have hdel := delete_objs e.nodeKeyArray nodeKey
  by_cases hz : stringArraySize (stringArrayDelete e.nodeKeyArray nodeKey) = 0
  · have hnil : (stringArrayDelete e.nodeKeyArray nodeKey).strs = [] := List.length_eq_zero_iff.mp hz
    rw [hnil, List.map_nil, List.append_nil] at hdel
    simp only [serviceResourceShrink, shrinkFrees, if_pos hz]
    exact h0.trans (((hdel.cons _).append_right rest).trans (hd.symm.append_left _))
  · simp only [serviceResourceShrink, shrinkFrees, if_neg hz]
    refine h0.trans (List.Perm.trans ?_ ((hm _).symm.append_left _))
    refine List.perm_iff_count.mpr fun o => ?_
    have := (List.perm_iff_count.mp hdel) o
    simp only [itemObjs, List.count_append, List.count_cons] at this ⊢
    omega

/-! ## Nodes -/

theorem nodeInsert_objs (t : Tables) (nodeKey : CharBuf nodeKeyLen) :
    (tableObjs (nodeResourceInsert t nodeKey)).Perm (.node t.next :: tableObjs t) := by
  refine List.perm_iff_count.mpr fun o => ?_
  simp only [tableObjs, nodeResourceInsert, HashTable.add, List.map_cons, List.count_append, List.count_cons]
  omega

theorem unlink_objs (h : nodeResourceGetByKey t x.key = some x) :
    (tableObjs t).Perm (.node x.ptr :: tableObjs (nodeResourceUnlink t x)) := by
  obtain ⟨l, r, ht, -, hd⟩ := HashTable.find_split h
  refine List.perm_iff_count.mpr fun o => ?_
  simp only [tableObjs, nodeResourceUnlink, hd]
  simp only [ht, List.map_append, List.map_cons, List.count_append, List.count_cons]
  omega

/-! ## A registry call by itself -/

/-- At most `n` critical sections of the registry thread, with nothing in between. -/
def registryRun (o : Outcome) : Nat → St → Option St
  | 0, s => some s
  | n + 1, s =>
    match s.registry with
    | .idle => some s
    | _ => (registryStep s o).bind (registryRun o n)

variable {s : St} {o : Outcome} {a : Registration}

theorem service_add (hnd : (s.tables.servicesResourcePool.flatMap itemObjs).Nodup) (hpc : s.registry = .addService a) :
    ∃ u, registryRun o 2 s = some u ∧ u.registry = .idle ∧ u.tables = serviceResourceAdd s.tables a := by
  unfold serviceResourceAdd
  cases hget : serviceResourceGet s.tables a.group a.service a.version with
  | some item =>
    have hat : itemAt s.tables item.ptr = some item := itemAt_of_get hnd hget
    simp only [registryRun, registryStep, hpc, hget, Option.bind_some, hat, Option.map_some]
    exact ⟨_, rfl, rfl, rfl⟩
  | none =>
    simp only [registryRun, registryStep, hpc, hget, Option.bind_some]
    exact ⟨_, rfl, rfl, rfl⟩

theorem registry_add (hnd : (tableObjs s.tables).Nodup) (ho : o.results.length = o.initConnNum.toNat)
    (hpc : s.registry = .addNode a) :
    ∃ n u, registryRun o n s = some u ∧ u.registry = .idle ∧ u.tables = resourceAdd s.tables a := by
  have hservices := (List.nodup_append.mp hnd).1
  unfold resourceAdd nodeResourceAdd
  cases hget : nodeResourceGet s.tables a.host a.port with
  | some node =>
    obtain ⟨u, hu, hreg, ht⟩ := service_add (s := { s with registry := .addService a }) (o := o) hservices rfl
    refine ⟨3, u, ?_, hreg, ht⟩
    rw [registryRun]
    simp only [registryStep, hpc, hget, Option.bind_some]
    exact hu
  | none =>
    obtain ⟨u, hu, hreg, ht⟩ := service_add (a := a) (o := o) (s := { s with
      tables := nodeResourceInsert s.tables a.nodeKey, registry := .addService a,
      heap := (poolInit s.heap a.host a.port o.timeoutsecs o.initConnNum o.minConnNum o.maxConnNum o.maxIdleSecs o.now
        o.results).2,
      pools := Function.update s.pools s.tables.next (poolInit s.heap a.host a.port o.timeoutsecs o.initConnNum
        o.minConnNum o.maxConnNum o.maxIdleSecs o.now o.results).1 }) hservices rfl
    refine ⟨4, u, ?_, hreg, ht⟩
    rw [registryRun]
    simp only [registryStep, hpc, hget, Option.bind_some]
    rw [registryRun]
    simp only [registryStep, if_pos ho, Option.bind_some]
    exact hu

/-- A node, if it is not used any more. -/
theorem node_delete (hnd : (s.tables.nodesResourcePool.map fun n => Obj.node n.ptr).Nodup)
    (hpc : s.registry = .checkUsed a) :
    ∃ u, registryRun o 3 s = some u ∧ u.registry = .idle ∧ u.tables =
      if serviceResourcePoolIsUsed s.tables a.host a.port then s.tables else nodeResourceDelete s.tables a.host a.port := by
  unfold nodeResourceDelete
  by_cases hused : serviceResourcePoolIsUsed s.tables a.host a.port = true
  · simp only [registryRun, registryStep, hpc, hused, if_true, Option.bind_some]
    exact ⟨_, rfl, rfl, rfl⟩
  · simp only [registryRun, registryStep, hpc, hused, if_false, Option.bind_some, Bool.false_eq_true]
    cases hget : nodeResourceGet s.tables a.host a.port with
    | some node =>
      have hat : nodeAt s.tables node.ptr = some node := nodeAt_of_get hnd hget
      simp only [hat, Option.map_some, Option.bind_some]
      exact ⟨_, rfl, rfl, rfl⟩
    | none => exact ⟨_, rfl, rfl, rfl⟩

theorem registry_delete (hnd : (tableObjs s.tables).Nodup) (hpc : s.registry = .deleteService a) :
    ∃ n u, registryRun o n s = some u ∧ u.registry = .idle ∧ u.tables = resourceDelete s.tables a := by
  obtain ⟨hservices, hnodes, -⟩ := List.nodup_append.mp hnd
  unfold resourceDelete serviceResourceDelete
  cases hget : serviceResourceGet s.tables a.group a.service a.version with
  | some item =>
    have hat : itemAt s.tables item.ptr = some item := itemAt_of_get hservices hget
    have hsame : (serviceResourceShrink s.tables item a.nodeKey.str).nodesResourcePool = s.tables.nodesResourcePool := by
      unfold serviceResourceShrink; simp only; split <;> rfl
    obtain ⟨u, hu, hreg, ht⟩ := node_delete (a := a) (o := o) (s := { s with
      tables := serviceResourceShrink s.tables item a.nodeKey.str, registry := .checkUsed a,
      freed := s.freed ++ shrinkFrees item a.nodeKey.str }) (hsame ▸ hnodes) rfl
    refine ⟨5, u, ?_, hreg, ht⟩
    rw [registryRun]
    simp only [registryStep, hpc, hget, Option.bind_some]
    rw [registryRun]
    simp only [registryStep, hat, Option.map_some, Option.bind_some]
    exact hu
  | none =>
    obtain ⟨u, hu, hreg, ht⟩ := node_delete (s := { s with registry := .checkUsed a }) (o := o) hnodes rfl
    refine ⟨4, u, ?_, hreg, ht⟩
    rw [registryRun]
    simp only [registryStep, hpc, hget, Option.bind_some]
    exact hu

end Ddm.Lifetime
