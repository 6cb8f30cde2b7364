/-
  Ddm.Lifetime.Model — which objects of `resource_mgt.c` are alive while calls use them.

  Any number of `invoke_service` calls, the thread that adds and deletes resources (its
  callers hold `global_modify_resource_lock`, so there is one) and the
  `pool_destroy_thd_func` thread of each unlinked node, interleaved by critical section.
  A thread holds pointers between its critical sections: `Pc.uses` is what a call is
  still going to use. `freed` lists what has been freed; no step reads it. A step through
  a freed item has no successor.

  The attempts between `pool_require_connection` and `pool_release_connection` are those
  of `Ddm.Invoke.Model`; here they are one stretch in which the call works on a
  connection.
-/

import Ddm.Lib.Machine
import Ddm.Pool.Ownership
import Ddm.Registry.ResourceMgt

namespace Ddm.Lifetime

open Ddm.Lib Ddm.Pool Ddm.Registry

/-- What is allocated and freed, by pointer. -/
inductive Obj where
  | item (ptr : Nat)
  | str (ptr : Nat)
  | node (ptr : Nat)
  deriving DecidableEq

/-- A call, by what it does next: the second lock of `service_resource_require_node_key`,
    the copy of the key, `node_resource_get_by_key`, `pool_require_connection`,
    `pool_release_connection`, and the last log line of either. -/
inductive Pc where
  | idle
  | item (ptr : Nat)
  | poolKey (str : Str)
  | copied (nodeKey : CStr)
  | node (ptr : Nat)
  | working (ptr conn : Nat)
  | logging (ptr : Nat)
  deriving DecidableEq

/-- What the call holds a pointer to and will use. -/
def Pc.uses : Pc → Option Obj
  | .idle => none
  | .item ptr => some (.item ptr)
  | .poolKey str => some (.str str.ptr)
  | .copied _ => none
  | .node ptr => some (.node ptr)
  | .working ptr _ => some (.node ptr)
  | .logging ptr => some (.node ptr)

/-- The registry thread, by its next critical section. -/
inductive RegistryPc where
  | idle
  | addNode (a : Registration)
  | insertNode (a : Registration)
  | addService (a : Registration)
  | extend (a : Registration) (ptr : Nat)
  | insertService (a : Registration)
  | deleteService (a : Registration)
  | shrink (a : Registration) (ptr : Nat)
  | checkUsed (a : Registration)
  | findNode (a : Registration)
  | unlink (a : Registration) (ptr : Nat)

/-- The thread that destroys a node's pool: `retry` tries are left, or the pool is
    destroyed and the node not yet freed. -/
inductive Destroyer where
  | absent
  | trying (retry : Nat)
  | destroyed
  | finished
  deriving DecidableEq

structure St where
  tables : Tables
  /-- By the node's pointer. -/
  pools : Nat → PoolObj
  heap : Heap Unit
  calls : Nat → Pc
  /-- How many calls have begun. -/
  started : Nat
  registry : RegistryPc
  destroyers : Nat → Destroyer
  freed : List Obj

/-- What the registry thread's surroundings decide: the pool's settings, the outcomes of
    `pool_init`, whether `pool_destroy_thd_func`'s thread can be created. -/
structure Outcome where
  timeoutsecs : Int
  initConnNum : Int
  minConnNum : Int
  maxConnNum : Int
  maxIdleSecs : Int
  now : Timeval
  results : List Connect
  created : Bool

inductive Label where
  | start (group service version : CStr)
  | next (w : Nat)
  | copy (w : Nat)
  | findNode (w : Nat)
  | require (w : Nat) (r : Connect) (now : Timeval)
  | release (w : Nat) (now : Timeval)
  | log (w : Nat)
  | resourceAdd (a : Registration)
  | resourceDelete (a : Registration)
  | registry (o : Outcome)
  | destroy (ptr : Nat)
  | free (ptr : Nat)

def destroyRetries : Nat := 10 * 5

/-! ## Through pointers -/

def itemAt (t : Tables) (ptr : Nat) : Option ServiceResource := t.servicesResourcePool.find? (·.ptr = ptr)

def nodeAt (t : Tables) (ptr : Nat) : Option NodeResource := t.nodesResourcePool.find? (·.ptr = ptr)

/-- The string `string_array_delete` frees. -/
def deleteFrees (array : StringArray) (nodeKey : CStr) : List Obj :=
  match stringArrayFind array nodeKey with
  | some idx => (array.strs[idx]?.map fun s => Obj.str s.ptr).toList
  | none => []

/-- What `service_resource_delete` frees: a string, and the item with its last one. -/
def shrinkFrees (item : ServiceResource) (nodeKey : CStr) : List Obj :=
  if stringArraySize (stringArrayDelete item.nodeKeyArray nodeKey) = 0 then
    .item item.ptr :: deleteFrees item.nodeKeyArray nodeKey
  else deleteFrees item.nodeKeyArray nodeKey

def RegistryPc.frees (t : Tables) : RegistryPc → List Obj
  | .shrink a ptr => (itemAt t ptr).elim [] fun item => shrinkFrees item a.nodeKey.str
  | _ => []

/-! ## Steps -/

/-- One critical section of the registry thread. -/
def registryStep (s : St) (o : Outcome) : Option St :=
  match s.registry with
  | .idle => none
  | .addNode a => some { s with
      registry := match nodeResourceGet s.tables a.host a.port with
        | some _ => .addService a
        | none => .insertNode a }
  | .insertNode a =>
    if o.results.length = o.initConnNum.toNat then
      let (pool, heap) := poolInit s.heap a.host a.port o.timeoutsecs o.initConnNum o.minConnNum o.maxConnNum
        o.maxIdleSecs o.now o.results
      some { s with
        tables := nodeResourceInsert s.tables a.nodeKey, heap := heap,
        pools := Function.update s.pools s.tables.next pool, registry := .addService a }
    else none
  | .addService a => some { s with
      registry := match serviceResourceGet s.tables a.group a.service a.version with
        | some item => .extend a item.ptr
        | none => .insertService a }
  | .extend a ptr => (itemAt s.tables ptr).map fun item =>
      { s with tables := serviceResourceExtend s.tables item a.nodeKey.str, registry := .idle }
  | .insertService a => some { s with
      tables := serviceResourceInsert s.tables a.serviceKey a.nodeKey.str, registry := .idle }
  | .deleteService a => some { s with
      registry := match serviceResourceGet s.tables a.group a.service a.version with
        | some item => .shrink a item.ptr
        | none => .checkUsed a }
  | .shrink a ptr => (itemAt s.tables ptr).map fun item => { s with
      tables := serviceResourceShrink s.tables item a.nodeKey.str, registry := .checkUsed a,
      freed := s.freed ++ shrinkFrees item a.nodeKey.str }
  | .checkUsed a => some { s with
      registry := if serviceResourcePoolIsUsed s.tables a.host a.port then .idle else .findNode a }
  | .findNode a => some { s with
      registry := match nodeResourceGet s.tables a.host a.port with
        | some node => .unlink a node.ptr
        | none => .idle }
  | .unlink _ ptr => (nodeAt s.tables ptr).map fun node => { s with
      tables := nodeResourceUnlink s.tables node, registry := .idle,
      destroyers := if o.created then Function.update s.destroyers ptr (.trying destroyRetries) else s.destroyers }

def step (s : St) : Label → Option St
  | .start group service version => some { s with
      calls := Function.update s.calls s.started
        (match serviceResourceGet s.tables group service version with
          | some item => .item item.ptr
          | none => .idle),
      started := s.started + 1 }
  | .next w =>
    match s.calls w with
    | .item ptr => (itemAt s.tables ptr).map fun item =>
        let (str, tables) := serviceResourceNext s.tables item
        { s with tables := tables, calls := Function.update s.calls w (str.elim .idle .poolKey) }
    | _ => none
  | .copy w =>
    match s.calls w with
    | .poolKey str => some { s with calls := Function.update s.calls w (.copied (snprintf 30 str.chars).str) }
    | _ => none
  | .findNode w =>
    match s.calls w with
    | .copied nodeKey => some { s with
        calls := Function.update s.calls w ((nodeResourceGetByKey s.tables nodeKey).elim .idle fun node => .node node.ptr) }
    | _ => none
  | .require w r now =>
    match s.calls w with
    | .node ptr =>
      let (conn, pool, heap) := poolRequireConnection (s.pools ptr) s.heap r now
      some { s with
        pools := Function.update s.pools ptr pool, heap := heap,
        calls := Function.update s.calls w (conn.elim (.logging ptr) (.working ptr)) }
    | _ => none
  | .release w now =>
    match s.calls w with
    | .working ptr conn =>
      let (pool, heap) := poolReleaseConnection (s.pools ptr) s.heap conn true now
      some { s with
        pools := Function.update s.pools ptr pool, heap := heap,
        calls := Function.update s.calls w (.logging ptr) }
    | _ => none
  | .log w =>
    match s.calls w with
    | .logging _ => some { s with calls := Function.update s.calls w .idle }
    | _ => none
  | .resourceAdd a =>
    match s.registry with
    | .idle => some { s with registry := .addNode a }
    | _ => none
  | .resourceDelete a =>
    match s.registry with
    | .idle => some { s with registry := .deleteService a }
    | _ => none
  | .registry o => registryStep s o
  | .destroy ptr =>
    match s.destroyers ptr with
    | .trying (retry + 1) =>
      let (ret, pool, heap) := poolDestroy (s.pools ptr) s.heap
      if ret < 0 then some { s with destroyers := Function.update s.destroyers ptr (.trying retry) }
      else some { s with
        pools := Function.update s.pools ptr pool, heap := heap,
        destroyers := Function.update s.destroyers ptr .destroyed }
    | _ => none
  | .free ptr =>
    match s.destroyers ptr with
    | .destroyed => some { s with
        destroyers := Function.update s.destroyers ptr .finished, freed := s.freed ++ [.node ptr] }
    | _ => none

def St.init : St where
  tables := Tables.init
  pools _ := ⟨[], [], false, snprintf hostNameLen (.lit ""), 0, 0, 0, 0, 0, 0⟩
  heap := ⟨fun _ => connInit (.lit "") 0 0, 0, fun _ => ⟨false, false, ⟨snprintf hostNameLen (.lit ""), 0⟩, ()⟩, 0⟩
  calls _ := .idle
  started := 0
  registry := .idle
  destroyers _ := .absent
  freed := []

/-- No call is going to use what is freed. -/
def Safe (s : St) : Prop := ∀ w x, (s.calls w).uses = some x → x ∉ s.freed

end Ddm.Lifetime
