/-
  Ddm.Registry.Routing — which requests a registration answers.

  A registration's entry is keyed by the padded fields of its record, each cut to its
  own field; a request looks up the key of its raw strings, cut as a whole. So a name
  too long for its field is registered under a key no request for it builds, and a '#'
  inside a name, or three full names, give another triple the same key.

  Proved: requests reach the entry of (g, s, v) exactly for (g, s, v) if and only if the
  names are free of '#', fit their fields and leave a byte of the key's buffer unused
  (`exact_routing_iff`), whatever else is in the tables.
-/

import Ddm.Registry.ChildrenChange

namespace Ddm.Registry.Routing

open Ddm.Lib

/-- The tables once a registration of the triple has been applied. -/
def registered (t : Tables) (group service version host : CStr) (port : Int) : Tables :=
  notifyChange t { registerInfoPadding group service version host port 0 with status := 1 }

/-- The key of the registration's entry. -/
def tableKey (group service version : CStr) : CStr :=
  let i := serviceFilterPadding group service version
  (serviceResourceConstructKey i.groupValue.str i.serviceValue.str i.versionValue.str serviceKeyLen).str

/-- The key a request looks up. -/
def lookupKey (group service version : CStr) : CStr :=
  (serviceResourceConstructKey group service version serviceKeyLen).str

/-- The registration's entry is there, and it is the one `service_resource_require_node_key`
    takes a node from for the triple itself and for no other. -/
def ExactRouting (group service version : CStr) : Prop :=
  ∀ t host port, ∃ e,
    serviceResourceGetByKey (registered t group service version host port) (tableKey group service version) = some e ∧
    ∀ group' service' version',
      serviceResourceGet (registered t group service version host port) group' service' version' = some e ↔
        (group', service', version') = (group, service, version)

structure Routable (group service version : CStr) : Prop where
  groupFits : group.length < fieldGroupLen
  serviceFits : service.length < fieldServiceLen
  versionFits : version.length < fieldVersionLen
  groupNoSep : NoSep group
  serviceNoSep : NoSep service
  versionNoSep : NoSep version
  /-- With both separators the key ends a byte before its buffer does. -/
  room : group.length + service.length + version.length + 3 < serviceKeyLen

/-! ## The entry -/

variable {g s v : CStr}

theorem registered_entry (t : Tables) (g s v host : CStr) (port : Int) :
    ∃ e, serviceResourceGetByKey (registered t g s v host port) (tableKey g s v) = some e := by
  refine Option.isSome_iff_exists.mp (HashTable.find_isSome.mpr ?_)
  exact serviceResourceAdd_key _ (.ofInfo { registerInfoPadding g s v host port 0 with status := 1 })

/-- A request reaches the entry when its key is the entry's. -/
theorem exactRouting_iff_keys : ExactRouting g s v ↔
    ∀ g' s' v', lookupKey g' s' v' = tableKey g s v ↔ (g', s', v') = (g, s, v) := by
  have hget : ∀ (t : Tables) (e : ServiceResource), serviceResourceGetByKey t (tableKey g s v) = some e →
      ∀ g' s' v', serviceResourceGet t g' s' v' = some e ↔ lookupKey g' s' v' = tableKey g s v := by
    intro t e he g' s' v'
    constructor
    · intro h
      exact (HashTable.find_key h).2.symm.trans (HashTable.find_key he).2
    · intro hk
      show serviceResourceGetByKey t (lookupKey g' s' v') = some e
      rw [hk]; exact he
  constructor
  · intro h g' s' v'
    obtain ⟨e, he, hr⟩ := h Tables.init g 0
    rw [← hget _ e he, hr]
  · intro h t host port
    obtain ⟨e, he⟩ := registered_entry t g s v host port
    exact ⟨e, he, fun g' s' v' => by rw [hget _ e he, h]⟩

/-! ## When the keys tell triples apart -/

theorem padded_eq {n : Nat} [NeZero n] {x : CStr} (h : (snprintf n x).str = x) : x.length < n := by
  rw [← h]; exact (snprintf n x).fits

theorem tableKey_eq (hg : g.length < fieldGroupLen) (hs : s.length < fieldServiceLen) (hv : v.length < fieldVersionLen) :
    tableKey g s v = serviceKeyText g s v := by
  rw [tableKey, serviceKey_padded]
  simp only [serviceFilterPadding, snprintf_str hg, snprintf_str hs, snprintf_str hv]

theorem lookupKey_eq (g s v : CStr) : lookupKey g s v = (serviceKeyText g s v).take (serviceKeyLen - 1) := rfl

theorem Routable.keys (h : Routable g s v) (g' s' v' : CStr) :
    lookupKey g' s' v' = tableKey g s v ↔ (g', s', v') = (g, s, v) := by
  have hroom := h.room
  have hlen := length_serviceKeyText g s v
  rw [tableKey_eq h.groupFits h.serviceFits h.versionFits, lookupKey_eq]
  constructor
  · intro he
    -- the entry's key leaves a byte unused, so the request's key was not cut
    have hshort : (serviceKeyText g' s' v').length ≤ serviceKeyLen - 1 := by
      have := congrArg CStr.length he
      rw [CStr.length_take] at this
      omega
    rw [CStr.take_of_length_le hshort] at he
    obtain ⟨rfl, rfl, rfl⟩ := serviceKeyText_injective h.groupNoSep h.serviceNoSep h.versionNoSep he
    rfl
  · intro he
    obtain ⟨rfl, rfl, rfl⟩ := Prod.mk.injEq .. ▸ Prod.mk.inj he
    exact CStr.take_of_length_le (by omega)

theorem routable_of_keys (h : ∀ g' s' v', lookupKey g' s' v' = tableKey g s v ↔ (g', s', v') = (g, s, v)) :
    Routable g s v := by
  -- a request for the padded names always reaches the entry
  have hpad := (h _ _ _).mp (rfl : lookupKey (snprintf fieldGroupLen g).str (snprintf fieldServiceLen s).str
    (snprintf fieldVersionLen v).str = tableKey g s v)
  simp only [Prod.mk.injEq] at hpad
  have hg := padded_eq hpad.1
  have hs := padded_eq hpad.2.1
  have hv := padded_eq hpad.2.2
  have hkey := tableKey_eq hg hs hv
  have hsep : NoSep g ∧ NoSep s ∧ NoSep v := by
    by_contra hn
    obtain ⟨g', s', v', hne, he⟩ := serviceKeyText_ambiguous hn
    refine hne ((h g' s' v').mp ?_)
    rw [← (h g s v).mpr rfl, lookupKey_eq, lookupKey_eq, he]
  refine ⟨hg, hs, hv, hsep.1, hsep.2.1, hsep.2.2, ?_⟩
  by_contra hfull
  -- three full names fill the buffer, and a longer version is cut to the same key
  have hlen := length_serviceKeyText g s v
  have hlong : lookupKey g s (v ++ keySeparator) = tableKey g s v := by
    have htext : serviceKeyText g s (v ++ keySeparator) = serviceKeyText g s v ++ keySeparator := by
      simp only [serviceKeyText, CStr.append_assoc]
    have hfill : serviceKeyLen - 1 = (serviceKeyText g s v).length := by
      simp only [serviceKeyLen, fieldGroupLen, fieldServiceLen, fieldVersionLen] at *
      omega
    rw [lookupKey_eq, hkey, htext, hfill]
    exact CStr.ext (List.take_left ..)
  have := congrArg (fun x => x.2.2.length) ((h _ _ _).mp hlong)
  simp [CStr.length_append] at this
  exact absurd this (by decide)

/-- The whole condition on the names. -/
theorem exact_routing_iff (group service version : CStr) :
    ExactRouting group service version ↔ Routable group service version :=
  exactRouting_iff_keys.trans ⟨routable_of_keys, Routable.keys⟩

/-- A service name of 31 characters: registered, but not found under its own name. -/
theorem long_service_unreachable :
    ¬ExactRouting (.lit "group") (.lit "CustomerAccountQueryServiceImpl") (.lit "1.0") := by
  intro h
  obtain ⟨e, -, hr⟩ := h Tables.init (.lit "10.0.0.1") 8080
  have hnone : serviceResourceGet (registered Tables.init (.lit "group") (.lit "CustomerAccountQueryServiceImpl")
      (.lit "1.0") (.lit "10.0.0.1") 8080) (.lit "group") (.lit "CustomerAccountQueryServiceImpl") (.lit "1.0") = none := by
    decide
  have := (hr _ _ _).mpr rfl
  rw [hnone] at this
  cases this

end Ddm.Registry.Routing
