/-
  Ddm.Registry.ServiceConf — `service_conf.c`: the fixed-size records of registrations
  and declarations, the keys built from them, the filters, the parsing of a provider's
  definition, the diff of two lists and the path → list mapping.

  A function of the source that would follow a NULL pointer (a member of an absent JSON
  item, a `%s` of a missing string) is `none` here.

  Proved: a text with a complete definition adds its declared records, none twice
  (`parse_definition`, `foldl_addRecord`), and the four branches of the diff are one:
  delete what only the left list has, then add what only the right one has (`diff_getD`).
-/

import Ddm.Lib.HashTable
import Ddm.Registry.Json

namespace Ddm.Registry

open Ddm.Lib Json

abbrev fieldHostLen : Nat := 20
abbrev fieldGroupLen : Nat := 50
abbrev fieldServiceLen : Nat := 30
abbrev fieldVersionLen : Nat := 20
abbrev serviceKeyLen : Nat := fieldGroupLen + fieldServiceLen + fieldVersionLen
abbrev nodeKeyLen : Nat := fieldHostLen + 6
abbrev providerKeyLen : Nat := fieldGroupLen + 10

instance (priority := high) : NeZero fieldHostLen := ⟨by decide⟩
instance (priority := high) : NeZero fieldGroupLen := ⟨by decide⟩
instance (priority := high) : NeZero fieldServiceLen := ⟨by decide⟩
instance (priority := high) : NeZero fieldVersionLen := ⟨by decide⟩
instance (priority := high) : NeZero serviceKeyLen := ⟨by decide⟩
instance (priority := high) : NeZero nodeKeyLen := ⟨by decide⟩
instance (priority := high) : NeZero providerKeyLen := ⟨by decide⟩

def keySeparator : CStr := .lit "#"

/-! ## Keys -/

/-- `%s#%d` -/
def nodeKeyText (host : CStr) (port : Int) : CStr := host ++ keySeparator ++ decimal port

/-- `%s#%s#%s` -/
def serviceKeyText (group service version : CStr) : CStr :=
  group ++ keySeparator ++ service ++ keySeparator ++ version

/-- `/%s/providers` -/
def providerPath (group : CStr) : CStr := .lit "/" ++ group ++ .lit "/providers"

def nodeResourceConstructKey (host : CStr) (port : Int) (len : Nat) [NeZero len] : CharBuf len :=
  snprintf len (nodeKeyText host port)

def serviceResourceConstructKey (group service version : CStr) (len : Nat) [NeZero len] : CharBuf len :=
  snprintf len (serviceKeyText group service version)

def providerConstructKey (group : CStr) (len : Nat) [NeZero len] : CharBuf len := snprintf len (providerPath group)

/-! ## Records -/

@[ext]
structure ServiceInfo where
  groupValue : CharBuf fieldGroupLen
  serviceValue : CharBuf fieldServiceLen
  versionValue : CharBuf fieldVersionLen
  deriving DecidableEq

@[ext]
structure RegisterInfo where
  srvInfo : ServiceInfo
  hostValue : CharBuf fieldHostLen
  portValue : Int
  /-- 0 means normal, 1 means add, -1 means delete. -/
  status : Int
  deriving DecidableEq

abbrev RegisterInfoArray := List RegisterInfo

def serviceFilterPadding (group service version : CStr) : ServiceInfo :=
  ⟨snprintf fieldGroupLen group, snprintf fieldServiceLen service, snprintf fieldVersionLen version⟩

/-- `status` is what the caller left in the record. -/
def registerInfoPadding (group service version host : CStr) (port status : Int) : RegisterInfo :=
  ⟨serviceFilterPadding group service version, snprintf fieldHostLen host, port, status⟩

/-! ## Filters -/

def serviceFilterFind (serviceFilters : List ServiceInfo) (srvInfo : ServiceInfo) : Bool :=
  serviceFilters.any fun p => p.groupValue = srvInfo.groupValue && p.serviceValue = srvInfo.serviceValue
    && p.versionValue = srvInfo.versionValue

def serviceFilterAdd (serviceFilters : List ServiceInfo) (srvInfo : ServiceInfo) : List ServiceInfo :=
  if serviceFilterFind serviceFilters srvInfo then serviceFilters else serviceFilters ++ [srvInfo]

def serviceFilterMatch (serviceFilters : List ServiceInfo) (regInfo : RegisterInfo) : Bool :=
  serviceFilterFind serviceFilters regInfo.srvInfo

theorem serviceFilterFind_iff {fs : List ServiceInfo} {i : ServiceInfo} : serviceFilterFind fs i = true ↔ i ∈ fs := by
  simp only [serviceFilterFind, List.any_eq_true, Bool.and_eq_true, decide_eq_true_eq]
  constructor
  · intro ⟨p, hp, ⟨hg, hs⟩, hv⟩
    exact ServiceInfo.ext hg hs hv ▸ hp
  · intro h; exact ⟨i, h, ⟨rfl, rfl⟩, rfl⟩

/-! ## Lists of records -/

/-- The five fields `find_register_info` compares. -/
def sameInfo (p regInfo : RegisterInfo) : Bool :=
  p.srvInfo.groupValue = regInfo.srvInfo.groupValue && p.srvInfo.serviceValue = regInfo.srvInfo.serviceValue
    && p.srvInfo.versionValue = regInfo.srvInfo.versionValue && p.hostValue = regInfo.hostValue
    && p.portValue = regInfo.portValue

def findRegisterInfo (result : RegisterInfoArray) (regInfo : RegisterInfo) : Bool :=
  result.any fun p => sameInfo p regInfo

def copyRegisterInfo (src dest : RegisterInfoArray) (status : Int) : RegisterInfoArray :=
  dest ++ src.map fun p => { p with status := status }

/-- `NULL` is `none`. -/
def diffRegisterInfo (leftArray rightArray : Option RegisterInfoArray) : Option RegisterInfoArray :=
  match leftArray, rightArray with
  | none, none => none
  | some l, none => some (copyRegisterInfo l [] (-1))
  | none, some r => some (copyRegisterInfo r [] 1)
  | some l, some r =>
    some (copyRegisterInfo (l.filter fun p => !findRegisterInfo r p) [] (-1)
      ++ copyRegisterInfo (r.filter fun p => !findRegisterInfo l p) [] 1)

/-! ## Parsing a definition -/

def lHost : CStr := .lit "host"
def lPort : CStr := .lit "port"
def lGroup : CStr := .lit "group"
def lServices : CStr := .lit "services"
def lService : CStr := .lit "service"
def lVersion : CStr := .lit "version"

/-- One turn of the loop over the services of a definition: `host` and `group` may be
    NULL until a service is there to print them for. -/
def parseService (serviceFilters : List ServiceInfo) (group host : Option CStr) (port : Int)
    (result : RegisterInfoArray) (serviceItem : Item) : Option RegisterInfoArray := do
  let serviceName ← (← getObjectItem serviceItem lService) |> valuestring
  let versionValue ← (← getObjectItem serviceItem lVersion) |> valuestring
  let regInfo := registerInfoPadding (← group) serviceName versionValue (← host) port 0
  if serviceFilterMatch serviceFilters regInfo && !findRegisterInfo result regInfo then some (result ++ [regInfo])
  else some result

/-- The return code and `*result`. -/
def parseNodeRegisterInfo (parse : Parse) (serviceFilters : List ServiceInfo) (result : Option RegisterInfoArray)
    (content : CStr) : Option (Int × Option RegisterInfoArray) :=
  match parse content with
  | none => some (-1, result)
  | some root => do
    let hostValue := valuestring (← getObjectItem root lHost)
    let portValue := valueint (← getObjectItem root lPort)
    let groupValue := valuestring (← getObjectItem root lGroup)
    let servicesArray ← getObjectItem root lServices
    let arr ← (arrayItems servicesArray).foldlM (parseService serviceFilters groupValue hostValue portValue)
      (result.getD [])
    some (0, some arr)

/-! ## The mapping from provider paths to lists -/

structure RegisterMapItem where
  providerKey : CharBuf providerKeyLen
  /-- `NULL` where the last list had no readable definition. -/
  infoArray : Option RegisterInfoArray
  deriving DecidableEq

def RegisterMapItem.key (i : RegisterMapItem) : CStr := i.providerKey.str

def registerMappingFindItem (registerMapping : List RegisterMapItem) (providerKey : CStr) : Option RegisterMapItem :=
  HashTable.find RegisterMapItem.key registerMapping providerKey

def registerMappingFind (registerMapping : List RegisterMapItem) (providerKey : CStr) : Option RegisterInfoArray :=
  (registerMappingFindItem registerMapping providerKey).bind (·.infoArray)

def registerMappingPut (registerMapping : List RegisterMapItem) (providerKey : CStr)
    (infoArray : Option RegisterInfoArray) : List RegisterMapItem :=
  match registerMappingFindItem registerMapping providerKey with
  | some _ =>
    HashTable.modify RegisterMapItem.key registerMapping providerKey fun i => { i with infoArray := infoArray }
  | none => HashTable.add registerMapping ⟨snprintf providerKeyLen providerKey, infoArray⟩

/-! ## What parsing adds -/

/-- A definition with all its required members. -/
structure Definition where
  host : CStr
  port : Int
  group : CStr
  services : List (CStr × CStr)

def readService (serviceItem : Item) : Option (CStr × CStr) := do
  let service ← (← getObjectItem serviceItem lService) |> valuestring
  let version ← (← getObjectItem serviceItem lVersion) |> valuestring
  some (service, version)

def readDefinition (root : Item) : Option Definition := do
  let host ← (← getObjectItem root lHost) |> valuestring
  let port := valueint (← getObjectItem root lPort)
  let group ← (← getObjectItem root lGroup) |> valuestring
  let services ← (arrayItems (← getObjectItem root lServices)).mapM readService
  some ⟨host, port, group, services⟩

/-- What a definition says of one of its services, each text cut to the room of its field. -/
structure RecordOf (d : Definition) (s : CStr × CStr) (r : RegisterInfo) : Prop where
  group : r.srvInfo.groupValue.str = d.group.take 49
  service : r.srvInfo.serviceValue.str = s.1.take 29
  version : r.srvInfo.versionValue.str = s.2.take 19
  host : r.hostValue.str = d.host.take 19
  port : r.portValue = d.port
  status : r.status = 0

def Definition.records (d : Definition) : List RegisterInfo :=
  d.services.map fun s => registerInfoPadding d.group s.1 s.2 d.host d.port 0

theorem recordOf_iff {d : Definition} {s : CStr × CStr} {r : RegisterInfo} :
    RecordOf d s r ↔ r = registerInfoPadding d.group s.1 s.2 d.host d.port 0 := by
  constructor
  · intro h
    exact RegisterInfo.ext (ServiceInfo.ext (CharBuf.ext h.group) (CharBuf.ext h.service) (CharBuf.ext h.version))
      (CharBuf.ext h.host) h.port h.status
  · intro h
    subst h
    exact ⟨rfl, rfl, rfl, rfl, rfl, rfl⟩

theorem mem_records {d : Definition} {r : RegisterInfo} : r ∈ d.records ↔ ∃ s ∈ d.services, RecordOf d s r := by
  simp only [Definition.records, List.mem_map, recordOf_iff, eq_comm]

def addRecord (serviceFilters : List ServiceInfo) (result : RegisterInfoArray) (r : RegisterInfo) : RegisterInfoArray :=
  if serviceFilterMatch serviceFilters r && !findRegisterInfo result r then result ++ [r] else result

theorem parse_services (fs : List ServiceInfo) (group host : CStr) (port : Int) :
    ∀ (items : List Item) (svcs : List (CStr × CStr)) (arr : RegisterInfoArray), items.mapM readService = some svcs →
      items.foldlM (parseService fs (some group) (some host) port) arr =
        some ((svcs.map fun s => registerInfoPadding group s.1 s.2 host port 0).foldl (addRecord fs) arr) := by
  intro items
  induction items with
  | nil => intro svcs arr h; simp only [List.mapM_nil, Option.pure_def, Option.some.injEq] at h; subst h; rfl
  | cons item items ih =>
    intro svcs arr h
    simp only [List.mapM_cons, Option.bind_eq_bind, Option.pure_def, Option.bind_eq_some_iff, Option.some.injEq] at h
    obtain ⟨⟨service, version⟩, hs, rest, hr, rfl⟩ := h
    have hp : parseService fs (some group) (some host) port arr item =
        some (addRecord fs arr (registerInfoPadding group service version host port 0)) := by
      simp only [readService, Option.bind_eq_bind, Option.bind_eq_some_iff, Option.some.injEq, Prod.mk.injEq] at hs
      obtain ⟨si, hsi, s, hsv, vi, hvi, v, hvv, rfl, rfl⟩ := hs
      simp only [parseService, hsi, hvi, hsv, hvv, Option.bind_eq_bind, Option.bind_some, addRecord]
      split <;> rfl
    simp only [List.foldlM_cons, hp, Option.bind_eq_bind, Option.bind_some, ih rest _ hr, List.map_cons, List.foldl_cons]

/-- A text that parses to a complete definition adds its records, each if it is declared
    and not there yet. -/
theorem parse_definition {parse : Parse} {content : CStr} {root : Item} {d : Definition} (hp : parse content = some root)
    (hd : readDefinition root = some d) (fs : List ServiceInfo) (result : Option RegisterInfoArray) :
    parseNodeRegisterInfo parse fs result content = some (0, some (d.records.foldl (addRecord fs) (result.getD []))) := by
  simp only [readDefinition, Option.bind_eq_bind, Option.bind_eq_some_iff, Option.some.injEq] at hd
  obtain ⟨hi, hhi, h, hhv, pi, hpi, gi, hgi, g, hgv, si, hsi, svcs, hsv, rfl⟩ := hd
  simp only [parseNodeRegisterInfo, hp, hhi, hpi, hgi, hsi, hhv, hgv, Option.bind_eq_bind, Option.bind_some,
    parse_services fs g h (valueint pi) _ svcs _ hsv]
  rfl

/-- Records as they are stored: not marked for a change. -/
def Unmarked (l : List RegisterInfo) : Prop := ∀ r ∈ l, r.status = 0

theorem sameInfo_iff {p r : RegisterInfo} (h : p.status = r.status) : sameInfo p r = true ↔ p = r := by
  simp only [sameInfo, Bool.and_eq_true, decide_eq_true_eq]
  constructor
  · intro ⟨⟨⟨⟨hg, hs⟩, hv⟩, hh⟩, hp⟩
    exact RegisterInfo.ext (ServiceInfo.ext hg hs hv) hh hp h
  · intro h
    subst h
    simp

theorem findRegisterInfo_iff {l : RegisterInfoArray} {r : RegisterInfo} (hl : Unmarked l) (hr : r.status = 0) :
    findRegisterInfo l r = true ↔ r ∈ l := by
  simp only [findRegisterInfo, List.any_eq_true]
  constructor
  · intro ⟨p, hp, hs⟩
    exact (sameInfo_iff ((hl p hp).trans hr.symm)).mp hs ▸ hp
  · intro h; exact ⟨r, h, (sameInfo_iff rfl).mpr rfl⟩

/-- Folding records into a duplicate-free list keeps it so and adds the declared ones. -/
theorem foldl_addRecord (fs : List ServiceInfo) : ∀ (rs : List RegisterInfo) (arr : RegisterInfoArray), Unmarked rs →
    Unmarked arr → arr.Nodup → (rs.foldl (addRecord fs) arr).Nodup ∧ Unmarked (rs.foldl (addRecord fs) arr) ∧
      ∀ r, r ∈ rs.foldl (addRecord fs) arr ↔ r ∈ arr ∨ r ∈ rs ∧ r.srvInfo ∈ fs := by
  intro rs
  induction rs with
  | nil => intro arr _ hu hn; exact ⟨hn, hu, fun r => by simp⟩
  | cons x rs ih =>
    intro arr hrs hu hn
    have hx : x.status = 0 := hrs x List.mem_cons_self
    have hrs' : Unmarked rs := fun r hr => hrs r (List.mem_cons_of_mem _ hr)
    simp only [List.foldl_cons]
    by_cases hc : serviceFilterMatch fs x = true ∧ x ∉ arr
    · have hadd : addRecord fs arr x = arr ++ [x] := by
        have : findRegisterInfo arr x = false := by
          rw [Bool.eq_false_iff]; exact fun h => hc.2 ((findRegisterInfo_iff hu hx).mp h)
        simp [addRecord, hc.1, this]
      have hu' : Unmarked (arr ++ [x]) := fun r hr => by
        rcases List.mem_append.mp hr with hr | hr
        · exact hu r hr
        · rw [List.mem_singleton.mp hr]; exact hx
      have hn' : (arr ++ [x]).Nodup := List.nodup_append.mpr ⟨hn, by simp, fun a ha b hb e => hc.2 (by
        rw [List.mem_singleton] at hb; rw [← hb, ← e]; exact ha)⟩
      rw [hadd]
      obtain ⟨h1, h2, h3⟩ := ih _ hrs' hu' hn'
      refine ⟨h1, h2, fun r => ?_⟩
      have hm := serviceFilterFind_iff.mp hc.1
      rw [h3, List.mem_append, List.mem_singleton, List.mem_cons]
      constructor
      · intro h
        rcases h with (h | rfl) | ⟨h, hf⟩
        · exact Or.inl h
        · exact Or.inr ⟨Or.inl rfl, hm⟩
        · exact Or.inr ⟨Or.inr h, hf⟩
      · intro h
        rcases h with h | ⟨rfl | h, hf⟩
        · exact Or.inl (Or.inl h)
        · exact Or.inl (Or.inr rfl)
        · exact Or.inr ⟨h, hf⟩
    · have hadd : addRecord fs arr x = arr := by
        unfold addRecord
        rw [if_neg]
        intro h
        simp only [Bool.and_eq_true, Bool.not_eq_true'] at h
        refine hc ⟨h.1, fun hm => ?_⟩
        rw [(findRegisterInfo_iff hu hx).mpr hm] at h; cases h.2
      rw [hadd]
      obtain ⟨h1, h2, h3⟩ := ih _ hrs' hu hn
      refine ⟨h1, h2, fun r => ?_⟩
      rw [h3, List.mem_cons]
      constructor
      · intro h
        rcases h with h | ⟨h, hf⟩
        · exact Or.inl h
        · exact Or.inr ⟨Or.inr h, hf⟩
      · intro h
        rcases h with h | ⟨rfl | h, hf⟩
        · exact Or.inl h
        · by_cases hm : r ∈ arr
          · exact Or.inl hm
          · exact absurd ⟨serviceFilterFind_iff.mpr hf, hm⟩ hc
        · exact Or.inr ⟨h, hf⟩

theorem records_unmarked (d : Definition) : Unmarked d.records := by
  intro r hr
  obtain ⟨s, -, rfl⟩ := List.mem_map.mp hr
  rfl

/-! ## The diff -/

def marked (status : Int) (l : List RegisterInfo) : List RegisterInfo := l.map fun p => { p with status := status }

/-- All four branches: delete what only the left has, then add what only the right has. -/
theorem diff_getD {l r : Option RegisterInfoArray} (hl : Unmarked (l.getD [])) (hr : Unmarked (r.getD [])) :
    (diffRegisterInfo l r).getD [] =
      marked (-1) ((l.getD []).filter (· ∉ r.getD [])) ++ marked 1 ((r.getD []).filter (· ∉ l.getD [])) := by
  have hf : ∀ {a b : RegisterInfoArray}, Unmarked a → Unmarked b →
      (a.filter fun p => !findRegisterInfo b p) = a.filter (· ∉ b) := by
    intro a b ha hb
    refine List.filter_congr fun p hp => ?_
    have := findRegisterInfo_iff hb (ha p hp)
    by_cases hm : p ∈ b
    · simp [this.mpr hm, hm]
    · have : findRegisterInfo b p = false := by rw [Bool.eq_false_iff]; exact fun h => hm (this.mp h)
      simp [this, hm]
  match l, r with
  | none, none => rfl
  | some l, none => simp [diffRegisterInfo, copyRegisterInfo, marked]
  | none, some r => simp [diffRegisterInfo, copyRegisterInfo, marked]
  | some l, some r =>
    simp only [Option.getD_some] at hl hr ⊢
    simp only [diffRegisterInfo, copyRegisterInfo, marked, hf hl hr, hf hr hl, List.nil_append, Option.getD_some]

end Ddm.Registry
