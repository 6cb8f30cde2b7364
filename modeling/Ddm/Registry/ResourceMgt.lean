/-
  Ddm.Registry.ResourceMgt — `str_array.c` and the two tables of `resource_mgt.c`: the
  services, each with the keys of the nodes that offer it, and the nodes.

  Every object `malloc` or `strdup` returns has its own `ptr`; `Tables.next` is the next
  one. A node's pool is the pool of its `ptr` (`Ddm.Pool.ConnPool`). Each function of
  the source that takes the table's lock twice is the composition of its two critical
  sections, which have their own names here.

  The tables stand for a set of pairs (service key, node key): `Rep t R` says that the
  services are its domain, each with exactly its nodes, and the nodes its range.
  Proved: `resource_add` and `resource_delete` are the insertion and the removal of a
  pair (`resourceAdd_rep`, `resourceDelete_rep`), whatever the strings.
-/

import Mathlib.Order.BooleanAlgebra.Set
import Ddm.Registry.ServiceConf

namespace Ddm.Registry

open Ddm.Lib

/-! ## String arrays -/

/-- A string `strdup` made. -/
structure Str where
  ptr : Nat
  chars : CStr
  deriving DecidableEq

structure StringArray where
  strs : List Str
  counter : Nat
  deriving DecidableEq

def stringArrayInit : StringArray := ⟨[], 0⟩

/-- The index of the first equal string; `none` is the code's -1. -/
def stringArrayFind (array : StringArray) (value : CStr) : Option Nat := array.strs.findIdx? (·.chars = value)

/-- `ptr` is the copy's, if one is made. -/
def stringArrayAdd (array : StringArray) (ptr : Nat) (value : CStr) : StringArray :=
  match stringArrayFind array value with
  | some _ => array
  | none => { array with strs := array.strs ++ [⟨ptr, value⟩] }

def stringArrayDelete (array : StringArray) (value : CStr) : StringArray :=
  match stringArrayFind array value with
  | some idx => { array with strs := array.strs.eraseIdx idx }
  | none => array

/-- Round robin by a 32-bit counter. -/
def stringArrayNext (array : StringArray) : Option Str × StringArray :=
  let count := array.strs.length
  if count = 0 then (none, array)
  else (array.strs[array.counter % count]?, { array with counter := (array.counter + 1) % 2 ^ 32 })

def stringArraySize (array : StringArray) : Nat := array.strs.length

def StringArray.keys (array : StringArray) : List CStr := array.strs.map (·.chars)

/-- The key `string_array_next` returns is one of the array's strings, which it keeps. -/
theorem stringArrayNext_mem {array : StringArray} {str : Str} (h : (stringArrayNext array).1 = some str) :
    str ∈ array.strs := by
  unfold stringArrayNext at h
  simp only at h
  split at h
  · cases h
  · exact List.mem_of_getElem? h

theorem strs_stringArrayNext (array : StringArray) : (stringArrayNext array).2.strs = array.strs := by
  unfold stringArrayNext
  simp only
  split
  · rfl
  · rfl

theorem stringArrayFind_isSome {a : StringArray} {v : CStr} : (stringArrayFind a v).isSome = true ↔ v ∈ a.keys := by
  simp only [stringArrayFind, List.findIdx?_isSome, List.any_eq_true, decide_eq_true_eq, StringArray.keys, List.mem_map]

theorem stringArrayFind_none {a : StringArray} {v : CStr} : stringArrayFind a v = none ↔ v ∉ a.keys := by
  rw [← stringArrayFind_isSome]; simp

theorem keys_add (a : StringArray) (ptr : Nat) (v : CStr) :
    (stringArrayAdd a ptr v).keys = if v ∈ a.keys then a.keys else a.keys ++ [v] := by
  unfold stringArrayAdd
  split
  · rename_i h; rw [if_pos (stringArrayFind_isSome.mp (by rw [h]; rfl))]
  · rename_i h; rw [if_neg (stringArrayFind_none.mp h)]; simp [StringArray.keys]

theorem mem_keys_add {a : StringArray} {ptr : Nat} {v w : CStr} :
    w ∈ (stringArrayAdd a ptr v).keys ↔ w ∈ a.keys ∨ w = v := by
  rw [keys_add]
  split
  · rename_i h; exact ⟨Or.inl, fun h' => h'.elim id fun e => e ▸ h⟩
  · simp

theorem nodup_keys_add {a : StringArray} {ptr : Nat} {v : CStr} (h : a.keys.Nodup) :
    (stringArrayAdd a ptr v).keys.Nodup := by
  rw [keys_add]
  split
  · exact h
  · rename_i hv; exact List.nodup_append.mpr ⟨h, by simp, fun x hx y hy e => hv (by simp at hy; rw [← hy, ← e]; exact hx)⟩

/-- Deleting removes the first occurrence. -/
theorem keys_delete (a : StringArray) (v : CStr) : (stringArrayDelete a v).keys = a.keys.erase v := by
  have hp : (stringArrayDelete a v).strs = a.strs.eraseP (·.chars = v) := by
    rw [List.eraseP_eq_eraseIdx]
    cases h : a.strs.findIdx? (·.chars = v) <;> simp [stringArrayDelete, stringArrayFind, h]
  rw [StringArray.keys, hp, StringArray.keys, List.erase_eq_eraseP', List.eraseP_map]
  congr 2

theorem mem_keys_delete {a : StringArray} {v w : CStr} (h : a.keys.Nodup) :
    w ∈ (stringArrayDelete a v).keys ↔ w ≠ v ∧ w ∈ a.keys := by
  rw [keys_delete, h.mem_erase_iff]

theorem nodup_keys_delete {a : StringArray} {v : CStr} (h : a.keys.Nodup) : (stringArrayDelete a v).keys.Nodup := by
  rw [keys_delete]; exact h.erase v

theorem size_eq_zero {a : StringArray} : stringArraySize a = 0 ↔ a.keys = [] := by
  simp [stringArraySize, StringArray.keys]

/-! ## The tables -/

structure ServiceResource where
  ptr : Nat
  serviceKey : CharBuf serviceKeyLen
  nodeKeyArray : StringArray
  deriving DecidableEq

structure NodeResource where
  ptr : Nat
  nodeKey : CharBuf nodeKeyLen
  deriving DecidableEq

structure Tables where
  servicesResourcePool : List ServiceResource
  nodesResourcePool : List NodeResource
  next : Nat
  deriving DecidableEq

def Tables.init : Tables := ⟨[], [], 0⟩

def ServiceResource.key (e : ServiceResource) : CStr := e.serviceKey.str

def NodeResource.key (n : NodeResource) : CStr := n.nodeKey.str

/-- The arguments of `resource_add` and `resource_delete`. -/
structure Registration where
  group : CStr
  service : CStr
  version : CStr
  host : CStr
  port : Int

def Registration.serviceKey (a : Registration) : CharBuf serviceKeyLen :=
  serviceResourceConstructKey a.group a.service a.version serviceKeyLen

def Registration.nodeKey (a : Registration) : CharBuf nodeKeyLen := nodeResourceConstructKey a.host a.port nodeKeyLen

/-! ### Nodes -/

def nodeResourceGetByKey (t : Tables) (nodeKey : CStr) : Option NodeResource :=
  HashTable.find NodeResource.key t.nodesResourcePool nodeKey

def nodeResourceGet (t : Tables) (host : CStr) (port : Int) : Option NodeResource :=
  nodeResourceGetByKey t (nodeResourceConstructKey host port nodeKeyLen).str

/-- The new item, its pool made, goes into the table. -/
def nodeResourceInsert (t : Tables) (nodeKey : CharBuf nodeKeyLen) : Tables :=
  { t with nodesResourcePool := HashTable.add t.nodesResourcePool ⟨t.next, nodeKey⟩, next := t.next + 1 }

def nodeResourceAdd (t : Tables) (host : CStr) (port : Int) : Tables :=
  match nodeResourceGet t host port with
  | some _ => t
  | none => nodeResourceInsert t (nodeResourceConstructKey host port nodeKeyLen)

/-- Unlink the item; its pool is left to a thread of its own. -/
def nodeResourceUnlink (t : Tables) (node : NodeResource) : Tables :=
  { t with nodesResourcePool := HashTable.del NodeResource.key t.nodesResourcePool node.key }

def nodeResourceDelete (t : Tables) (host : CStr) (port : Int) : Tables :=
  match nodeResourceGet t host port with
  | some node => nodeResourceUnlink t node
  | none => t

/-! ### Services -/

def serviceResourceGetByKey (t : Tables) (serviceKey : CStr) : Option ServiceResource :=
  HashTable.find ServiceResource.key t.servicesResourcePool serviceKey

def serviceResourceGet (t : Tables) (group service version : CStr) : Option ServiceResource :=
  serviceResourceGetByKey t (serviceResourceConstructKey group service version serviceKeyLen).str

/-- The critical section that extends an item. -/
def serviceResourceExtend (t : Tables) (item : ServiceResource) (nodeKey : CStr) : Tables :=
  { t with
    servicesResourcePool := HashTable.modify ServiceResource.key t.servicesResourcePool item.key fun e =>
      { e with nodeKeyArray := stringArrayAdd e.nodeKeyArray t.next nodeKey }
    next := t.next + 1 }

/-- The critical section that puts in a new item; its array holds the one node. -/
def serviceResourceInsert (t : Tables) (serviceKey : CharBuf serviceKeyLen) (nodeKey : CStr) : Tables :=
  { t with
    servicesResourcePool := HashTable.add t.servicesResourcePool
      ⟨t.next, serviceKey, stringArrayAdd stringArrayInit (t.next + 1) nodeKey⟩
    next := t.next + 2 }

def serviceResourceAdd (t : Tables) (a : Registration) : Tables :=
  match serviceResourceGet t a.group a.service a.version with
  | some item => serviceResourceExtend t item a.nodeKey.str
  | none => serviceResourceInsert t a.serviceKey a.nodeKey.str

/-- The critical section of a deletion: the item goes when its last node does. -/
def serviceResourceShrink (t : Tables) (item : ServiceResource) (nodeKey : CStr) : Tables :=
  let array := stringArrayDelete item.nodeKeyArray nodeKey
  if stringArraySize array = 0 then
    { t with servicesResourcePool := HashTable.del ServiceResource.key t.servicesResourcePool item.key }
  else
    { t with servicesResourcePool := HashTable.modify ServiceResource.key t.servicesResourcePool item.key fun e =>
        { e with nodeKeyArray := stringArrayDelete e.nodeKeyArray nodeKey } }

def serviceResourceDelete (t : Tables) (a : Registration) : Tables :=
  match serviceResourceGet t a.group a.service a.version with
  | some item => serviceResourceShrink t item a.nodeKey.str
  | none => t

def serviceResourcePoolIsUsed (t : Tables) (host : CStr) (port : Int) : Bool :=
  t.servicesResourcePool.any fun e =>
    (stringArrayFind e.nodeKeyArray (nodeResourceConstructKey host port nodeKeyLen).str).isSome

/-- The second critical section of `service_resource_require_node_key`. -/
def serviceResourceNext (t : Tables) (item : ServiceResource) : Option Str × Tables :=
  ((stringArrayNext item.nodeKeyArray).1,
    { t with servicesResourcePool := HashTable.modify ServiceResource.key t.servicesResourcePool item.key fun e =>
        { e with nodeKeyArray := (stringArrayNext e.nodeKeyArray).2 } })

def serviceResourceRequireNodeKey (t : Tables) (group service version : CStr) : Option Str × Tables :=
  match serviceResourceGet t group service version with
  | some item => serviceResourceNext t item
  | none => (none, t)

/-! ### Both -/

def resourceAdd (t : Tables) (a : Registration) : Tables := serviceResourceAdd (nodeResourceAdd t a.host a.port) a

def resourceDelete (t : Tables) (a : Registration) : Tables :=
  let t := serviceResourceDelete t a
  if serviceResourcePoolIsUsed t a.host a.port then t else nodeResourceDelete t a.host a.port

/-- Added or found, the registration's item is there. -/
theorem serviceResourceAdd_key (t : Tables) (a : Registration) :
    a.serviceKey.str ∈ (serviceResourceAdd t a).servicesResourcePool.map ServiceResource.key := by
  unfold serviceResourceAdd
  split
  · rename_i item hf
    obtain ⟨hi, hk⟩ := HashTable.find_key hf
    show _ ∈ (HashTable.modify ServiceResource.key t.servicesResourcePool item.key fun e =>
      { e with nodeKeyArray := stringArrayAdd e.nodeKeyArray t.next a.nodeKey.str }).map ServiceResource.key
    rw [HashTable.keys_modify]
    · exact List.mem_map.mpr ⟨item, hi, hk⟩
    · intro i; rfl
  · exact List.mem_map.mpr ⟨_, List.mem_cons_self, rfl⟩

/-! ## The relation the tables stand for -/

/-- Each service of the relation's domain has one item, which holds its nodes. -/
structure RepServices (pool : List ServiceResource) (R : Set (CStr × CStr)) : Prop where
  distinct : HashTable.Distinct ServiceResource.key pool
  entry : ∀ e ∈ pool, ∀ n, n ∈ e.nodeKeyArray.keys ↔ (e.key, n) ∈ R
  dom : ∀ s n, (s, n) ∈ R → ∃ e ∈ pool, e.key = s
  nonempty : ∀ e ∈ pool, e.nodeKeyArray.keys ≠ []
  nodup : ∀ e ∈ pool, e.nodeKeyArray.keys.Nodup

structure RepNodes (pool : List NodeResource) (N : Set CStr) : Prop where
  distinct : HashTable.Distinct NodeResource.key pool
  mem : ∀ n, (∃ x ∈ pool, x.key = n) ↔ n ∈ N

structure Rep (t : Tables) (R : Set (CStr × CStr)) : Prop where
  services : RepServices t.servicesResourcePool R
  nodes : RepNodes t.nodesResourcePool {n | ∃ s, (s, n) ∈ R}

theorem Rep.init : Rep Tables.init ∅ :=
  ⟨⟨List.nodup_nil, by simp [Tables.init], by simp, by simp [Tables.init], by simp [Tables.init]⟩,
    ⟨List.nodup_nil, by simp [Tables.init]⟩⟩

variable {t : Tables} {R : Set (CStr × CStr)} {e : ServiceResource} {s n : CStr}

/-! ### One pair of a service -/

section Services

variable {pool : List ServiceResource}

/-- The item's array after `f`: what every change in place has to show. -/
theorem RepServices.modify (h : RepServices pool R) (he : e ∈ pool) {f : StringArray → StringArray}
    {R' : Set (CStr × CStr)} (hkeys : ∀ n, n ∈ (f e.nodeKeyArray).keys ↔ (e.key, n) ∈ R')
    (hne : (f e.nodeKeyArray).keys ≠ []) (hnd : (f e.nodeKeyArray).keys.Nodup)
    (hother : ∀ s n, s ≠ e.key → ((s, n) ∈ R' ↔ (s, n) ∈ R)) :
    RepServices (HashTable.modify ServiceResource.key pool e.key fun e => { e with nodeKeyArray := f e.nodeKeyArray })
      R' := by
  set g : ServiceResource → ServiceResource := fun e => { e with nodeKeyArray := f e.nodeKeyArray }
  have hg : ∀ i, ServiceResource.key (g i) = ServiceResource.key i := fun _ => rfl
  -- an item of the new table is another one, unchanged, or the changed one
  have hmem : ∀ j, j ∈ HashTable.modify ServiceResource.key pool e.key g ↔ (j ∈ pool ∧ j.key ≠ e.key) ∨ j = g e := by
    intro j
    rw [h.distinct.mem_modify]
    refine or_congr_right ⟨fun ⟨i, hi, hk, hj⟩ => ?_, fun hj => ⟨e, he, rfl, hj⟩⟩
    rw [hj, h.distinct.unique hi he hk]
  refine ⟨h.distinct.modify hg, ?_, ?_, ?_, ?_⟩
  · intro j hj n
    rcases (hmem j).mp hj with ⟨hj, hk⟩ | rfl
    · rw [h.entry j hj, hother _ _ hk]
    · exact hkeys n
  · intro s n hs
    by_cases hk : s = e.key
    · exact ⟨g e, (hmem _).mpr (Or.inr rfl), hk.symm⟩
    · obtain ⟨j, hj, rfl⟩ := h.dom s n ((hother _ _ hk).mp hs)
      exact ⟨j, (hmem _).mpr (Or.inl ⟨hj, hk⟩), rfl⟩
  · intro j hj
    rcases (hmem j).mp hj with ⟨hj, -⟩ | rfl
    · exact h.nonempty j hj
    · exact hne
  · intro j hj
    rcases (hmem j).mp hj with ⟨hj, -⟩ | rfl
    · exact h.nodup j hj
    · exact hnd

theorem RepServices.extend (h : RepServices pool R) (he : e ∈ pool) (ptr : Nat) (n : CStr) :
    RepServices (HashTable.modify ServiceResource.key pool e.key fun e =>
      { e with nodeKeyArray := stringArrayAdd e.nodeKeyArray ptr n }) (insert (e.key, n) R) := by
  refine h.modify he (f := fun a => stringArrayAdd a ptr n) ?_ ?_ (nodup_keys_add (h.nodup e he)) ?_
  · intro m
    rw [mem_keys_add, h.entry e he, Set.mem_insert_iff, Prod.mk.injEq, or_comm]
    simp
  · exact List.ne_nil_of_mem (mem_keys_add.mpr (Or.inr rfl))
  · intro s m hs
    rw [Set.mem_insert_iff, Prod.mk.injEq]
    simp [hs]

theorem RepServices.insert (h : RepServices pool R) (sk : CharBuf serviceKeyLen)
    (hf : HashTable.find ServiceResource.key pool sk.str = none) (ptr ptr' : Nat) (n : CStr) :
    RepServices (HashTable.add pool ⟨ptr, sk, stringArrayAdd stringArrayInit ptr' n⟩) (insert (sk.str, n) R) := by
  have hnew : (stringArrayAdd stringArrayInit ptr' n).keys = [n] := rfl
  have hno : ∀ m, (sk.str, m) ∉ R := fun m hm => by
    obtain ⟨e, he, hk⟩ := h.dom _ _ hm
    exact HashTable.find_eq_none.mp hf e he hk
  refine ⟨h.distinct.add hf, ?_, ?_, ?_, ?_⟩
  · intro j hj m
    rcases List.mem_cons.mp hj with rfl | hj
    · show m ∈ (stringArrayAdd stringArrayInit ptr' n).keys ↔ (sk.str, m) ∈ _
      rw [hnew, Set.mem_insert_iff, Prod.mk.injEq, List.mem_singleton]
      simp [hno]
    · rw [h.entry j hj, Set.mem_insert_iff, Prod.mk.injEq]
      simp [HashTable.find_eq_none.mp hf j hj]
  · intro s m hs
    rcases Set.mem_insert_iff.mp hs with hs | hs
    · exact ⟨_, List.mem_cons_self, (congrArg Prod.fst hs).symm⟩
    · obtain ⟨j, hj, hk⟩ := h.dom _ _ hs
      exact ⟨j, List.mem_cons_of_mem _ hj, hk⟩
  · intro j hj
    rcases List.mem_cons.mp hj with rfl | hj
    · show (stringArrayAdd stringArrayInit ptr' n).keys ≠ []
      simp [hnew]
    · exact h.nonempty j hj
  · intro j hj
    rcases List.mem_cons.mp hj with rfl | hj
    · show (stringArrayAdd stringArrayInit ptr' n).keys.Nodup
      simp [hnew]
    · exact h.nodup j hj

theorem RepServices.shrink (h : RepServices pool R) (he : e ∈ pool)
    (hne : (stringArrayDelete e.nodeKeyArray n).keys ≠ []) :
    RepServices (HashTable.modify ServiceResource.key pool e.key fun e =>
      { e with nodeKeyArray := stringArrayDelete e.nodeKeyArray n }) (R \ {(e.key, n)}) := by
  refine h.modify he (f := fun a => stringArrayDelete a n) ?_ hne (nodup_keys_delete (h.nodup e he)) ?_
  · intro m
    rw [mem_keys_delete (h.nodup e he), h.entry e he, Set.mem_sdiff, Set.mem_singleton_iff, Prod.mk.injEq, and_comm]
    simp
  · intro s m hs
    rw [Set.mem_sdiff, Set.mem_singleton_iff, Prod.mk.injEq]
    simp [hs]

theorem RepServices.remove (h : RepServices pool R) (he : e ∈ pool)
    (hempty : (stringArrayDelete e.nodeKeyArray n).keys = []) :
    RepServices (HashTable.del ServiceResource.key pool e.key) (R \ {(e.key, n)}) := by
  have hlast : ∀ m, (e.key, m) ∈ R → m = n := fun m hm => by
    by_contra hne
    have := (mem_keys_delete (v := n) (h.nodup e he)).mpr ⟨hne, (h.entry e he m).mpr hm⟩
    rw [hempty] at this; cases this
  refine ⟨h.distinct.del _, ?_, ?_, fun j hj => h.nonempty j (h.distinct.mem_del.mp hj).1,
    fun j hj => h.nodup j (h.distinct.mem_del.mp hj).1⟩
  · intro j hj m
    obtain ⟨hj, hk⟩ := h.distinct.mem_del.mp hj
    rw [h.entry j hj, Set.mem_sdiff, Set.mem_singleton_iff, Prod.mk.injEq]
    simp [hk]
  · intro s m hs
    obtain ⟨hs, hne⟩ := hs
    obtain ⟨j, hj, rfl⟩ := h.dom s m hs
    refine ⟨j, h.distinct.mem_del.mpr ⟨hj, fun hk => hne ?_⟩, rfl⟩
    rw [hk] at hs ⊢
    rw [hlast m hs]; rfl

theorem RepServices.absent (h : RepServices pool R) (hf : HashTable.find ServiceResource.key pool s = none) :
    R \ {(s, n)} = R := by
  refine Set.sdiff_singleton_eq_self fun hm => ?_
  obtain ⟨e, he, hk⟩ := h.dom _ _ hm
  exact HashTable.find_eq_none.mp hf e he hk

end Services

/-! ### The two operations -/

theorem RepNodes.add {N : Set CStr} (h : RepNodes t.nodesResourcePool N) (host : CStr) (port : Int) :
    RepNodes (nodeResourceAdd t host port).nodesResourcePool
      (insert (nodeResourceConstructKey host port nodeKeyLen).str N) := by
  unfold nodeResourceAdd
  split
  · rename_i x hx
    obtain ⟨hx, hk⟩ := HashTable.find_key hx
    rw [Set.insert_eq_of_mem ((h.mem _).mp ⟨x, hx, hk⟩)]
    exact h
  · rename_i hf
    refine ⟨h.distinct.add hf, fun n => ?_⟩
    simp only [nodeResourceInsert, HashTable.add, List.exists_mem_cons_iff, h.mem, Set.mem_insert_iff]
    exact or_congr_left eq_comm

theorem RepNodes.delete {N : Set CStr} (h : RepNodes t.nodesResourcePool N) (host : CStr) (port : Int) :
    RepNodes (nodeResourceDelete t host port).nodesResourcePool
      (N \ {(nodeResourceConstructKey host port nodeKeyLen).str}) := by
  unfold nodeResourceDelete
  split
  · rename_i x hx
    obtain ⟨hx, hk⟩ := HashTable.find_key hx
    refine ⟨h.distinct.del _, fun n => ?_⟩
    simp only [nodeResourceUnlink, h.distinct.mem_del, hk, Set.mem_sdiff, Set.mem_singleton_iff, ← h.mem n]
    constructor
    · intro h
      obtain ⟨y, ⟨hy, hne⟩, rfl⟩ := h
      exact ⟨⟨y, hy, rfl⟩, hne⟩
    · intro h
      obtain ⟨⟨y, hy, rfl⟩, hne⟩ := h
      exact ⟨y, ⟨hy, hne⟩, rfl⟩
  · rename_i hf
    rw [Set.sdiff_singleton_eq_self]
    · exact h
    · intro hm
      obtain ⟨x, hx, hk⟩ := (h.mem _).mpr hm
      exact HashTable.find_eq_none.mp hf x hx hk

theorem serviceResourceAdd_rep {a : Registration} (h : RepServices t.servicesResourcePool R) :
    RepServices (serviceResourceAdd t a).servicesResourcePool (insert (a.serviceKey.str, a.nodeKey.str) R) := by
  unfold serviceResourceAdd
  split
  · rename_i e hf
    obtain ⟨he, hk⟩ := HashTable.find_key hf
    have hk' : a.serviceKey.str = e.key := hk.symm
    rw [hk']
    exact h.extend he t.next a.nodeKey.str
  · rename_i hf; exact h.insert a.serviceKey hf t.next (t.next + 1) a.nodeKey.str

theorem serviceResourceDelete_rep {a : Registration} (h : RepServices t.servicesResourcePool R) :
    RepServices (serviceResourceDelete t a).servicesResourcePool (R \ {(a.serviceKey.str, a.nodeKey.str)}) := by
  unfold serviceResourceDelete
  split
  · rename_i e hf
    obtain ⟨he, hk⟩ := HashTable.find_key hf
    have hk' : a.serviceKey.str = e.key := hk.symm
    rw [hk']
    simp only [serviceResourceShrink]
    split
    · rename_i h0; exact h.remove he (size_eq_zero.mp h0)
    · rename_i h0; exact h.shrink he fun h' => h0 (size_eq_zero.mpr h')
  · rename_i hf
    have habs : R \ {(a.serviceKey.str, a.nodeKey.str)} = R := h.absent hf
    rw [habs]; exact h

/-- The services' half does not touch the nodes, nor the other way round. -/
theorem nodes_serviceResourceAdd (t : Tables) (a : Registration) :
    (serviceResourceAdd t a).nodesResourcePool = t.nodesResourcePool := by
  unfold serviceResourceAdd; split <;> rfl

theorem nodes_serviceResourceDelete (t : Tables) (a : Registration) :
    (serviceResourceDelete t a).nodesResourcePool = t.nodesResourcePool := by
  simp only [serviceResourceDelete, serviceResourceShrink]; split <;> [split; skip] <;> rfl

theorem services_nodeResourceAdd (t : Tables) (host : CStr) (port : Int) :
    (nodeResourceAdd t host port).servicesResourcePool = t.servicesResourcePool := by
  unfold nodeResourceAdd; split <;> rfl

theorem services_nodeResourceDelete (t : Tables) (host : CStr) (port : Int) :
    (nodeResourceDelete t host port).servicesResourcePool = t.servicesResourcePool := by
  unfold nodeResourceDelete; split <;> rfl

theorem resourceAdd_rep (h : Rep t R) (a : Registration) :
    Rep (resourceAdd t a) (insert (a.serviceKey.str, a.nodeKey.str) R) := by
  refine ⟨serviceResourceAdd_rep (by rw [services_nodeResourceAdd]; exact h.services), ?_⟩
  have hn := h.nodes.add a.host a.port
  rw [resourceAdd, nodes_serviceResourceAdd]
  convert hn using 1
  ext n
  simp only [Set.mem_ofPred_eq, Set.mem_insert_iff, Prod.mk.injEq, Registration.nodeKey]
  constructor
  · intro h
    rcases h with ⟨s, ⟨-, hs⟩ | hs⟩
    · exact Or.inl hs
    · exact Or.inr ⟨s, hs⟩
  · intro h
    rcases h with hs | ⟨s, hs⟩
    · exact ⟨_, Or.inl ⟨rfl, hs⟩⟩
    · exact ⟨s, Or.inr hs⟩

theorem poolIsUsed_iff (h : RepServices t.servicesResourcePool R) {host : CStr} {port : Int} :
    serviceResourcePoolIsUsed t host port = true ↔ ∃ s, (s, (nodeResourceConstructKey host port nodeKeyLen).str) ∈ R := by
  simp only [serviceResourcePoolIsUsed, List.any_eq_true, stringArrayFind_isSome]
  constructor
  · intro ⟨e, he, hm⟩
    exact ⟨e.key, (h.entry e he _).mp hm⟩
  · intro ⟨s, hs⟩
    obtain ⟨e, he, rfl⟩ := h.dom _ _ hs
    exact ⟨e, he, (h.entry e he _).mpr hs⟩

theorem resourceDelete_rep (h : Rep t R) (a : Registration) :
    Rep (resourceDelete t a) (R \ {(a.serviceKey.str, a.nodeKey.str)}) := by
  have hs := serviceResourceDelete_rep (a := a) h.services
  have hn : RepNodes (serviceResourceDelete t a).nodesResourcePool {n | ∃ s, (s, n) ∈ R} := by
    rw [nodes_serviceResourceDelete]; exact h.nodes
  simp only [resourceDelete]
  by_cases hu : serviceResourcePoolIsUsed (serviceResourceDelete t a) a.host a.port = true
  · rw [if_pos hu]
    refine ⟨hs, ?_⟩
    -- the node is still some service's, so the nodes in use are the same
    obtain ⟨s', hs'⟩ := (poolIsUsed_iff hs).mp hu
    convert hn using 1
    ext n
    constructor
    · intro ⟨s, hs, _⟩
      exact ⟨s, hs⟩
    · intro ⟨s, hm⟩
      by_cases he : (s, n) = (a.serviceKey.str, a.nodeKey.str)
      · rw [(Prod.mk.inj he).2]; exact ⟨s', hs'⟩
      · exact ⟨s, hm, he⟩
  · rw [if_neg hu]
    refine ⟨by rw [services_nodeResourceDelete]; exact hs, ?_⟩
    convert hn.delete a.host a.port using 1
    ext n
    constructor
    · intro ⟨s, hm, hne⟩
      refine ⟨⟨s, hm⟩, fun he => hu ((poolIsUsed_iff hs).mpr ⟨s, ?_⟩)⟩
      rw [← Set.mem_singleton_iff.mp he]; exact ⟨hm, hne⟩
    · intro ⟨⟨s, hm⟩, hne⟩
      exact ⟨s, hm, fun he => hne (Prod.mk.inj (Set.mem_singleton_iff.mp he)).2⟩

/-! ### Reading the tables -/

theorem Rep.services_iff (h : Rep t R) : (∃ e ∈ t.servicesResourcePool, e.key = s) ↔ ∃ n, (s, n) ∈ R := by
  constructor
  · intro h
    obtain ⟨e, he, rfl⟩ := h
    obtain ⟨n, hn⟩ := List.exists_mem_of_ne_nil _ (h.services.nonempty e he)
    exact ⟨n, (h.services.entry e he n).mp hn⟩
  · intro ⟨n, hn⟩
    exact h.services.dom s n hn

theorem Rep.get_iff (h : Rep t R) : serviceResourceGetByKey t s = some e ↔ e ∈ t.servicesResourcePool ∧ e.key = s :=
  h.services.distinct.find_iff

end Ddm.Registry
