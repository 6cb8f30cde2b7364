/-
  Ddm.Watch.Declare — what `watch_declared_services` takes from the parsed services file:
  the filters it adds, the groups it is going to watch and the paths of their contexts.

  Proved: the groups are the file's (`mem_groups`), a context's path is its group's
  provider path if that fits (`contextPath_eq_some`), and the contexts of a document are
  those of its groups (`mem_watchDocument`).
-/

import Ddm.Lib.Machine
import Ddm.Provider.Register

namespace Ddm.Watch

open Ddm.Lib Ddm.Registry Ddm.Registry.Json Ddm.Provider

/-- `string_array_add` -/
def addGroupName (groupNames : List CStr) (groupName : CStr) : List CStr :=
  if groupName ∈ groupNames then groupNames else groupNames ++ [groupName]

def declareServiceItem (groupName : CStr) (serviceFilters : List ServiceInfo) (serviceItem : Item) :
    Option (List ServiceInfo) := do
  let serviceName ← (← getObjectItem serviceItem lService) |> valuestring
  let versionValue ← (← getObjectItem serviceItem lVersion) |> valuestring
  some (serviceFilterAdd serviceFilters (serviceFilterPadding groupName serviceName versionValue))

/-- One turn of the loop over the file's definitions. A group without a string is a NULL
    that `string_array_find` compares or `watch_group_change` prints. -/
def declareItem (declared : List ServiceInfo × List CStr) (defineItem : Item) :
    Option (List ServiceInfo × List CStr) := do
  let groupName ← (← getObjectItem defineItem lGroup) |> valuestring
  let servicesArray ← getObjectItem defineItem lServices
  let serviceFilters ← (arrayItems servicesArray).foldlM (declareServiceItem groupName) declared.1
  some (serviceFilters, addGroupName declared.2 groupName)

/-- The loop over `root`: the filters after it, and `group_name_array`; `none` is a crash. -/
def declareDocument (serviceFilters : List ServiceInfo) (root : Item) : Option (List ServiceInfo × List CStr) :=
  (arrayItems root).foldlM declareItem (serviceFilters, [])

/-- `node_group_value` of the context `watch_group_change` makes. The path is printed
    with a length of MAX_NODE_PATH_LEN, and past the field's own is the stack. -/
def contextPath (groupName : CStr) : Option CStr :=
  let key := providerConstructKey groupName maxNodePathLen
  if key.str.length < maxGroupValueLen then some key.str else none

/-- The loop over `root` and the walk over the groups. -/
def watchDocument (serviceFilters : List ServiceInfo) (root : Item) : Option (List ServiceInfo × List CStr) := do
  let declared ← declareDocument serviceFilters root
  let paths ← declared.2.mapM contextPath
  some (declared.1, paths)

/-! ## The groups and their paths -/

/-- The string of a member that is one. -/
def stringMember (item : Item) (name : CStr) : Option CStr := (getObjectItem item name).bind valuestring

/-- The groups the file declares. -/
def declaredGroups (root : Item) : List CStr := (arrayItems root).filterMap (stringMember · lGroup)

theorem mem_addGroupName {groupNames : List CStr} {groupName g : CStr} :
    g ∈ addGroupName groupNames groupName ↔ g ∈ groupNames ∨ g = groupName := by
  unfold addGroupName
  split
  · rename_i h
    exact ⟨Or.inl, fun h' => h'.elim id fun e => e ▸ h⟩
  · rw [List.mem_append, List.mem_singleton]

theorem declareItem_eq_some {declared declared' : List ServiceInfo × List CStr} {defineItem : Item}
    (h : declareItem declared defineItem = some declared') : ∃ groupName,
      stringMember defineItem lGroup = some groupName ∧ declared'.2 = addGroupName declared.2 groupName := by
  simp only [declareItem, Option.bind_eq_bind, Option.bind_eq_some_iff, Option.some.injEq] at h
  obtain ⟨g, hg, groupName, hgv, _, _, _, _, rfl⟩ := h
  exact ⟨groupName, Option.bind_eq_some_iff.mpr ⟨g, hg, hgv⟩, rfl⟩

theorem mem_groups {fs : List ServiceInfo} {root : Item} {declared : List ServiceInfo × List CStr}
    (h : declareDocument fs root = some declared) (g : CStr) : g ∈ declared.2 ↔ g ∈ declaredGroups root := by
  refine Machine.foldlM_inv (I := fun items declared => g ∈ declared.2 ↔ g ∈ items.filterMap (stringMember · lGroup))
    Iff.rfl (fun items before item after hi hs => ?_) h
  obtain ⟨groupName, hg, hafter⟩ := declareItem_eq_some hs
  rw [hafter, mem_addGroupName, hi, List.filterMap_append, List.filterMap_cons_some (f := (stringMember · lGroup)) hg,
    List.filterMap_nil, List.mem_append, List.mem_singleton]

theorem contextPath_eq_some {groupName path : CStr} : contextPath groupName = some path ↔
    path = providerPath groupName ∧ path.length < maxGroupValueLen := by
  have hlen : maxGroupValueLen = 512 := rfl
  have hmax : maxNodePathLen = 10852 := rfl
  have hcut : (providerConstructKey groupName maxNodePathLen).str = (providerPath groupName).take (maxNodePathLen - 1) :=
    rfl
  by_cases hfits : (providerPath groupName).length < maxNodePathLen
  · rw [contextPath, show (providerConstructKey groupName maxNodePathLen).str = providerPath groupName from
      snprintf_str hfits, Option.ite_none_right_eq_some, Option.some.injEq, and_comm]
    exact ⟨fun h => ⟨h.1.symm, h.1 ▸ h.2⟩, fun h => ⟨h.1.symm, h.1 ▸ h.2⟩⟩
  · have hlong : ¬(providerConstructKey groupName maxNodePathLen).str.length < maxGroupValueLen := by
      rw [hcut, CStr.length_take]
      omega
    rw [contextPath, if_neg hlong]
    refine iff_of_false (fun h => by cases h) fun h => ?_
    rw [h.1] at h
    omega

theorem mapM_contextPath : ∀ {groups paths : List CStr}, groups.mapM contextPath = some paths →
    groups.map contextPath = paths.map some := by
  intro groups
  induction groups with
  | nil =>
    intro paths h
    obtain rfl : [] = paths := by simpa using h
    rfl
  | cons g groups ih =>
    intro paths h
    rw [List.mapM_cons] at h
    simp only [Option.bind_eq_bind, Option.bind_eq_some_iff, Option.pure_def, Option.some.injEq] at h
    obtain ⟨path, hg, rest, hl, rfl⟩ := h
    rw [List.map_cons, List.map_cons, hg, ih hl]

/-- The contexts a document gets are those of the groups it declares. -/
theorem mem_watchDocument {fs fs' : List ServiceInfo} {root : Item} {paths : List CStr}
    (h : watchDocument fs root = some (fs', paths)) :
    (∀ p ∈ paths, ∃ g ∈ declaredGroups root, contextPath g = some p) ∧
      ∀ g ∈ declaredGroups root, ∃ p ∈ paths, contextPath g = some p := by
  simp only [watchDocument, Option.bind_eq_bind, Option.bind_eq_some_iff, Option.some.injEq, Prod.mk.injEq] at h
  obtain ⟨declared, hd, paths', hp, -, rfl⟩ := h
  have hmap := mapM_contextPath hp
  constructor
  · intro p hmem
    have hsome : some p ∈ declared.2.map contextPath := hmap ▸ List.mem_map_of_mem hmem
    obtain ⟨g, hg, he⟩ := List.mem_map.mp hsome
    exact ⟨g, (mem_groups hd g).mp hg, he⟩
  · intro g hg
    have hsome : contextPath g ∈ paths'.map some := hmap ▸ List.mem_map_of_mem ((mem_groups hd g).mpr hg)
    obtain ⟨p, hmem, he⟩ := List.mem_map.mp hsome
    exact ⟨p, hmem, he.symm⟩

end Ddm.Watch
