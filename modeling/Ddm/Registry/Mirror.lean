/-
  Ddm.Registry.Mirror — the agent's tables mirror the last child list of every path.

  A run is any order of `declare` (a declaration joins the filters) and `children` (one
  call of `children_change_func_impl`, under its lock). What it should amount to is a
  `History`: the declarations, and for each path the last list processed with the
  declarations of that time. `Mirrors` says the mapping holds just the declared records of
  the definitions in these lists, the service table just their triples, each with the
  nodes of its records, and the node table their nodes.

  Proved: after every run over clean lists the agent mirrors its history
  (`registry_mirror`). The invariant (`Inv`) is that the tables stand for the pairs of
  the mapped records: two clean records of any two paths with one pair are one record
  of one path, so a difference of two lists of a path is a difference of their pairs
  and leaves the other paths' pairs alone.
-/

import Mathlib.Data.List.Induction
import Ddm.Registry.ChildrenChange

namespace Ddm.Registry.Mirror

open Ddm.Lib Json

inductive Event where
  | declare (group service version : CStr)
  | children (nodeGroup : CStr) (nodeNames : List CStr)

def step (parse : Parse) (a : Agent) : Event → Option Agent
  | .declare group service version => some (declareService a group service version)
  | .children nodeGroup nodeNames => childrenChangeFuncImpl parse a nodeGroup nodeNames

def run (parse : Parse) (events : List Event) : Option Agent := events.foldlM (step parse) Agent.init

/-! ## What a run should amount to -/

structure History where
  /-- Group, service and version of each declaration. -/
  declared : List (CStr × CStr × CStr)
  /-- The last list processed for a path and the declarations it was matched with. -/
  last : CStr → Option (List (CStr × CStr × CStr) × List CStr)

def History.step (h : History) : Event → History
  | .declare group service version => { h with declared := h.declared ++ [(group, service, version)] }
  | .children nodeGroup nodeNames =>
    { h with last := fun path => if path = nodeGroup then some (h.declared, nodeNames) else h.last path }

def history (events : List Event) : History := events.foldl History.step ⟨[], fun _ => none⟩

/-- A declaration is stored cut to the room of its fields. -/
structure Declares (d : CStr × CStr × CStr) (i : ServiceInfo) : Prop where
  group : i.groupValue.str = d.1.take 49
  service : i.serviceValue.str = d.2.1.take 29
  version : i.versionValue.str = d.2.2.take 19

/-- The records of the path's last list that match a declaration of its time. -/
def History.records (parse : Parse) (h : History) (path : CStr) (r : RegisterInfo) : Prop :=
  ∃ declared names, h.last path = some (declared, names) ∧ (∃ d ∈ declared, Declares d r.srvInfo) ∧ Lists parse names r

/-- `service_resource_get` of a triple. -/
def entryOf (t : Tables) (i : ServiceInfo) : Option ServiceResource :=
  serviceResourceGet t i.groupValue.str i.serviceValue.str i.versionValue.str

structure Mirrors (parse : Parse) (h : History) (a : Agent) : Prop where
  nodup : ∀ path, (a.mapped path).Nodup
  mapping : ∀ path r, r ∈ a.mapped path ↔ h.records parse path r
  services : ∀ i, (∃ e, entryOf a.tables i = some e) ↔ ∃ path, ∃ r ∈ a.mapped path, r.srvInfo = i
  /-- Every item of the table is some triple's. -/
  entries : ∀ e ∈ a.tables.servicesResourcePool, ∃ i, entryOf a.tables i = some e
  nodeKeys : ∀ i e, entryOf a.tables i = some e → ∀ n, n ∈ e.nodeKeyArray.keys ↔
    ∃ path, ∃ r ∈ a.mapped path, r.srvInfo = i ∧ nodeKeyText r.hostValue.str r.portValue = n
  nodes : ∀ n, (∃ x ∈ a.tables.nodesResourcePool, x.key = n) ↔
    ∃ e ∈ a.tables.servicesResourcePool, n ∈ e.nodeKeyArray.keys

/-! ## Clean lists -/

structure CleanService (s : CStr × CStr) : Prop where
  serviceFits : s.1.length < fieldServiceLen
  versionFits : s.2.length < fieldVersionLen
  serviceNoSep : NoSep s.1
  versionNoSep : NoSep s.2

/-- Every string fits its field and holds no separator, the group is the path's and the
    port prints in five characters. -/
structure CleanDefinition (path : CStr) (d : Definition) : Prop where
  groupPath : providerPath d.group = path
  groupFits : d.group.length < fieldGroupLen
  groupNoSep : NoSep d.group
  hostFits : d.host.length < fieldHostLen
  hostNoSep : NoSep d.host
  port : (decimal d.port).length ≤ 5
  services : ∀ s ∈ d.services, CleanService s

structure CleanCall (parse : Parse) (path : CStr) (names : List CStr) : Prop where
  pathFits : path.length < providerKeyLen
  texts : ∀ name ∈ names, ∀ text root, NodeText name text → parse text = some root →
    ∃ d, readDefinition root = some d ∧ CleanDefinition path d

def CleanEvent (parse : Parse) : Event → Prop
  | .declare _ _ _ => True
  | .children path names => CleanCall parse path names

/-- What a clean list's records keep. -/
structure CleanRecord (path : CStr) (r : RegisterInfo) : Prop where
  groupPath : providerPath r.srvInfo.groupValue.str = path
  group : NoSep r.srvInfo.groupValue.str
  service : NoSep r.srvInfo.serviceValue.str
  version : NoSep r.srvInfo.versionValue.str
  host : NoSep r.hostValue.str
  port : (decimal r.portValue).length ≤ 5

theorem CleanDefinition.record {path : CStr} {d : Definition} (h : CleanDefinition path d) {s : CStr × CStr}
    (hs : s ∈ d.services) {r : RegisterInfo} (hr : RecordOf d s r) : CleanRecord path r := by
  have hc := h.services s hs
  have hg : r.srvInfo.groupValue.str = d.group :=
    hr.group.trans (CStr.take_of_length_le (Nat.le_of_lt_succ h.groupFits))
  have hsv : r.srvInfo.serviceValue.str = s.1 :=
    hr.service.trans (CStr.take_of_length_le (Nat.le_of_lt_succ hc.serviceFits))
  have hv : r.srvInfo.versionValue.str = s.2 :=
    hr.version.trans (CStr.take_of_length_le (Nat.le_of_lt_succ hc.versionFits))
  have hh : r.hostValue.str = d.host := hr.host.trans (CStr.take_of_length_le (Nat.le_of_lt_succ h.hostFits))
  refine ⟨?_, ?_, ?_, ?_, ?_, ?_⟩
  · rw [hg]; exact h.groupPath
  · rw [hg]; exact h.groupNoSep
  · rw [hsv]; exact hc.serviceNoSep
  · rw [hv]; exact hc.versionNoSep
  · rw [hh]; exact h.hostNoSep
  · rw [hr.port]; exact h.port

theorem CleanCall.readable {parse : Parse} {path : CStr} {names : List CStr} (h : CleanCall parse path names) :
    ∀ name ∈ names, Readable parse name := fun name hn text root ht hp => by
  obtain ⟨d, hd, -⟩ := h.texts name hn text root ht hp
  exact Option.isSome_iff_exists.mpr ⟨d, hd⟩

theorem CleanCall.lists {parse : Parse} {path : CStr} {names : List CStr} (h : CleanCall parse path names)
    {r : RegisterInfo} (hr : Lists parse names r) : CleanRecord path r := by
  obtain ⟨name, hn, text, root, d, ht, hp, hd, s, hs, hr⟩ := hr
  obtain ⟨d', hd', hc⟩ := h.texts name hn text root ht hp
  obtain rfl := Option.some.inj (hd.symm.trans hd')
  exact hc.record hs hr

/-! ## Pairs of clean records -/

theorem fst_pair (r : RegisterInfo) : r.pair.1 =
    serviceKeyText r.srvInfo.groupValue.str r.srvInfo.serviceValue.str r.srvInfo.versionValue.str :=
  serviceKey_padded r.srvInfo

variable {p q : CStr} {r r' : RegisterInfo}

theorem CleanRecord.snd_pair (h : CleanRecord p r) : r.pair.2 = nodeKeyText r.hostValue.str r.portValue :=
  nodeKey_fits r.hostValue.fits h.port

/-- The service key of a clean record is no other triple's. -/
theorem CleanRecord.srvInfo_eq (h : CleanRecord p r) {i : ServiceInfo}
    (he : serviceKeyText i.groupValue.str i.serviceValue.str i.versionValue.str = r.pair.1) : i = r.srvInfo := by
  rw [fst_pair] at he
  obtain ⟨hg, hs, hv⟩ := serviceKeyText_injective h.group h.service h.version he
  exact ServiceInfo.ext (CharBuf.ext hg) (CharBuf.ext hs) (CharBuf.ext hv)

theorem pair_injective (h : CleanRecord p r) (h' : CleanRecord q r') (hs : r.status = r'.status)
    (he : r.pair = r'.pair) : p = q ∧ r = r' := by
  have hi : r.srvInfo = r'.srvInfo := h'.srvInfo_eq (by rw [← fst_pair, he])
  have hn : nodeKeyText r.hostValue.str r.portValue = nodeKeyText r'.hostValue.str r'.portValue := by
    rw [← h.snd_pair, ← h'.snd_pair, he]
  obtain ⟨hh, hp⟩ := nodeKeyText_injective h.host h'.host hn
  exact ⟨by rw [← h.groupPath, ← h'.groupPath, hi], RegisterInfo.ext hi (CharBuf.ext hh) hp hs⟩

/-! ## The invariant -/

/-- The pairs of all mapped records. -/
def pairs (a : Agent) : Set (CStr × CStr) := {x | ∃ path, ∃ r ∈ a.mapped path, r.pair = x}

structure Inv (parse : Parse) (h : History) (a : Agent) : Prop where
  filters : ∀ i, i ∈ a.serviceFilters ↔ ∃ d ∈ h.declared, Declares d i
  distinct : HashTable.Distinct RegisterMapItem.key a.registerMapping
  nodup : ∀ path, (a.mapped path).Nodup
  unmarked : ∀ path, Unmarked (a.mapped path)
  mem : ∀ path r, r ∈ a.mapped path ↔ h.records parse path r
  clean : ∀ path, ∀ r ∈ a.mapped path, CleanRecord path r
  rep : Rep a.tables (pairs a)

theorem init_inv (parse : Parse) : Inv parse (history []) Agent.init := by
  have hm : ∀ path, Agent.init.mapped path = [] := fun _ => rfl
  refine ⟨fun i => by simp [Agent.init, history], List.nodup_nil, ?_, ?_, ?_, ?_, ?_⟩
  · intro path; simp [hm]
  · intro path; simp [hm, Unmarked]
  · intro path r; simp [hm, history, History.records]
  · intro path; simp [hm]
  · have : pairs Agent.init = ∅ := by ext x; simp [pairs, hm]
    rw [this]; exact Rep.init

/-- A path's list replaced: its old pairs that are not new ones go, its new ones that
    are not old ones come. -/
theorem pairs_replace {mapped mapped' : CStr → List RegisterInfo} {path : CStr}
    (hother : ∀ q, q ≠ path → mapped' q = mapped q)
    (hu : ∀ q, Unmarked (mapped q)) (hu' : Unmarked (mapped' path))
    (hc : ∀ q, ∀ r ∈ mapped q, CleanRecord q r) (hc' : ∀ r ∈ mapped' path, CleanRecord path r) :
    ({x | ∃ q, ∃ r ∈ mapped q, r.pair = x} \ {x | ∃ r ∈ (mapped path).filter (· ∉ mapped' path), r.pair = x}) ∪
        {x | ∃ r ∈ (mapped' path).filter (· ∉ mapped path), r.pair = x} =
      {x | ∃ q, ∃ r ∈ mapped' q, r.pair = x} := by
  ext x
  simp only [Set.mem_union, Set.mem_sdiff, Set.mem_ofPred_eq, List.mem_filter, decide_eq_true_eq]
  constructor
  · intro h
    rcases h with ⟨⟨q, r, hr, rfl⟩, hkept⟩ | ⟨r, ⟨hr, -⟩, rfl⟩
    · by_cases hq : q = path
      · subst hq
        by_cases hm : r ∈ mapped' q
        · exact ⟨q, r, hm, rfl⟩
        · exact absurd ⟨r, ⟨hr, hm⟩, rfl⟩ hkept
      · exact ⟨q, r, by rw [hother q hq]; exact hr, rfl⟩
    · exact ⟨path, r, hr, rfl⟩
  · intro h
    obtain ⟨q, r, hr, rfl⟩ := h
    by_cases hq : q = path
    · subst hq
      by_cases hm : r ∈ mapped q
      · refine Or.inl ⟨⟨q, r, hm, rfl⟩, fun ⟨r', ⟨hr', hn⟩, he⟩ => hn ?_⟩
        rw [(pair_injective (hc q r' hr') (hc q r hm) ((hu q r' hr').trans (hu q r hm).symm) he).2]
        exact hr
      · exact Or.inr ⟨r, ⟨hr, hm⟩, rfl⟩
    · rw [hother q hq] at hr
      refine Or.inl ⟨⟨q, r, hr, rfl⟩, fun ⟨r', ⟨hr', _⟩, he⟩ => hq ?_⟩
      exact (pair_injective (hc _ r' hr') (hc q r hr) ((hu _ r' hr').trans (hu q r hr).symm) he).1.symm

variable {parse : Parse} {h : History} {a : Agent}

theorem declares_iff {d : CStr × CStr × CStr} {i : ServiceInfo} :
    Declares d i ↔ i = serviceFilterPadding d.1 d.2.1 d.2.2 := by
  constructor
  · intro h
    exact ServiceInfo.ext (CharBuf.ext h.group) (CharBuf.ext h.service) (CharBuf.ext h.version)
  · intro h
    subst h
    exact ⟨rfl, rfl, rfl⟩

theorem mem_serviceFilterAdd {fs : List ServiceInfo} {i j : ServiceInfo} :
    j ∈ serviceFilterAdd fs i ↔ j ∈ fs ∨ j = i := by
  unfold serviceFilterAdd
  split
  · rename_i h
    refine (or_iff_left_of_imp fun e => ?_).symm
    rw [e]
    exact serviceFilterFind_iff.mp h
  · rw [List.mem_append, List.mem_singleton]

theorem declare_inv (hi : Inv parse h a) (group service version : CStr) :
    Inv parse (h.step (.declare group service version)) (declareService a group service version) := by
  refine ⟨fun i => ?_, hi.distinct, hi.nodup, hi.unmarked, hi.mem, hi.clean, hi.rep⟩
  show i ∈ serviceFilterAdd a.serviceFilters _ ↔ ∃ d ∈ h.declared ++ [(group, service, version)], Declares d i
  simp only [mem_serviceFilterAdd, hi.filters, List.mem_append, List.mem_singleton, or_and_right, exists_or,
    exists_eq_left, declares_iff (d := (group, service, version))]

theorem children_inv (hi : Inv parse h a) {path : CStr} {names : List CStr} (hc : CleanCall parse path names) :
    ∃ a', childrenChangeFuncImpl parse a path names = some a' ∧ Inv parse (h.step (.children path names)) a' := by
  obtain ⟨remote, hp, hparsed⟩ := parse_nodes a.serviceFilters hc.readable
  obtain ⟨hd, hfind⟩ := registerMappingFind_put hi.distinct hc.pathFits remote
  set a' : Agent := { a with
    tables := ((diffRegisterInfo (registerMappingFind a.registerMapping path) remote).getD []).foldl notifyChange a.tables
    registerMapping := registerMappingPut a.registerMapping path remote } with ha'
  have hm : ∀ q, a'.mapped q = if q = path then remote.getD [] else a.mapped q := fun q => by
    simp only [Agent.mapped, ha', hfind]; split <;> rfl
  have hpath : a'.mapped path = remote.getD [] := by rw [hm, if_pos rfl]
  have hother : ∀ q, q ≠ path → a'.mapped q = a.mapped q := fun q hq => by rw [hm, if_neg hq]
  have hclean : ∀ r ∈ a'.mapped path, CleanRecord path r := fun r hr => by
    rw [hpath, hparsed.mem] at hr; exact hc.lists hr.2
  refine ⟨a', by simp [childrenChangeFuncImpl, hp, ha'], hi.filters, hd, ?_, ?_, ?_, ?_, ?_⟩
  · intro q
    by_cases hq : q = path
    · rw [hq, hpath]; exact hparsed.nodup
    · rw [hother q hq]; exact hi.nodup q
  · intro q
    by_cases hq : q = path
    · rw [hq, hpath]; exact hparsed.unmarked
    · rw [hother q hq]; exact hi.unmarked q
  · intro q r
    by_cases hq : q = path
    · subst hq
      rw [hpath, hparsed.mem, Listed, hi.filters]
      simp only [History.records, History.step, if_true, Option.some.injEq, Prod.mk.injEq]
      constructor
      · intro hl
        exact ⟨_, _, ⟨rfl, rfl⟩, hl⟩
      · intro hl
        obtain ⟨_, _, ⟨rfl, rfl⟩, hl⟩ := hl
        exact hl
    · rw [hother q hq, hi.mem]
      simp only [History.records, History.step, if_neg hq]
  · intro q r hr
    by_cases hq : q = path
    · subst hq; exact hclean r hr
    · rw [hother q hq] at hr; exact hi.clean q r hr
  · have hu' : Unmarked (a'.mapped path) := by rw [hpath]; exact hparsed.unmarked
    have hdiff := diff_getD (l := registerMappingFind a.registerMapping path) (r := remote) (hi.unmarked path)
      hparsed.unmarked
    have hset := pairs_replace hother hi.unmarked hu' hi.clean hclean
    have hrep := notifyChange_added (l := (a'.mapped path).filter (· ∉ a.mapped path))
      (notifyChange_deleted (l := (a.mapped path).filter (· ∉ a'.mapped path)) hi.rep)
    show Rep (((diffRegisterInfo (registerMappingFind a.registerMapping path) remote).getD []).foldl notifyChange
      a.tables) {x | ∃ q, ∃ r ∈ a'.mapped q, r.pair = x}
    rw [hdiff, List.foldl_append, ← hset, ← hpath]
    exact hrep

/-! ## The mirror -/

theorem Inv.entryOf_iff (hi : Inv parse h a) {i : ServiceInfo} {e : ServiceResource} : entryOf a.tables i = some e ↔
    e ∈ a.tables.servicesResourcePool ∧
      e.key = serviceKeyText i.groupValue.str i.serviceValue.str i.versionValue.str := by
  rw [entryOf, serviceResourceGet, serviceKey_padded]
  exact hi.rep.get_iff

theorem Inv.mirror (hi : Inv parse h a) : Mirrors parse h a := by
  -- what the pairs say of a triple: they are those of its records
  have htriple : ∀ (i : ServiceInfo) n,
      (serviceKeyText i.groupValue.str i.serviceValue.str i.versionValue.str, n) ∈ pairs a ↔
        ∃ path, ∃ r ∈ a.mapped path, r.srvInfo = i ∧ nodeKeyText r.hostValue.str r.portValue = n := by
    intro i n
    constructor
    · intro ⟨path, r, hr, he⟩
      have hcl := hi.clean path r hr
      exact ⟨path, r, hr, (hcl.srvInfo_eq (congrArg Prod.fst he).symm).symm,
        hcl.snd_pair.symm.trans (congrArg Prod.snd he)⟩
    · intro h
      obtain ⟨path, r, hr, rfl, rfl⟩ := h
      exact ⟨path, r, hr, Prod.ext (fst_pair r) (hi.clean path r hr).snd_pair⟩
  refine ⟨hi.nodup, hi.mem, ?_, ?_, ?_, ?_⟩
  · intro i
    simp only [hi.entryOf_iff]
    rw [hi.rep.services_iff]
    constructor
    · intro ⟨n, hn⟩
      obtain ⟨path, r, hr, hri, -⟩ := (htriple i n).mp hn
      exact ⟨path, r, hr, hri⟩
    · intro ⟨path, r, hr, hri⟩
      exact ⟨_, (htriple i _).mpr ⟨path, r, hr, hri, rfl⟩⟩
  · intro e he
    obtain ⟨n, path, r, hr, hn⟩ := hi.rep.services_iff.mp ⟨e, he, rfl⟩
    exact ⟨r.srvInfo, hi.entryOf_iff.mpr ⟨he, (congrArg Prod.fst hn).symm.trans (fst_pair r)⟩⟩
  · intro i e he n
    obtain ⟨he, hk⟩ := hi.entryOf_iff.mp he
    rw [hi.rep.services.entry e he n, hk]
    exact htriple i n
  · intro n
    rw [hi.rep.nodes.mem]
    constructor
    · intro ⟨s, hs⟩
      obtain ⟨e, he, rfl⟩ := hi.rep.services.dom s n hs
      exact ⟨e, he, (hi.rep.services.entry e he n).mpr hs⟩
    · intro ⟨e, he, hn⟩
      exact ⟨e.key, (hi.rep.services.entry e he n).mp hn⟩

theorem run_inv {events : List Event} (hc : ∀ ev ∈ events, CleanEvent parse ev) :
    ∃ a, run parse events = some a ∧ Inv parse (history events) a := by
  induction events using List.reverseRecOn with
  | nil => exact ⟨Agent.init, rfl, init_inv parse⟩
  | append_singleton events ev ih =>
    obtain ⟨a, hrun, hi⟩ := ih fun e he => hc e (List.mem_append_left _ he)
    have hev := hc ev (List.mem_append_right _ (List.mem_singleton_self ev))
    have hstep : ∃ a', step parse a ev = some a' ∧ Inv parse ((history events).step ev) a' := by
      cases ev with
      | declare group service version => exact ⟨_, rfl, declare_inv hi group service version⟩
      | children path names => exact children_inv hi hev
    obtain ⟨a', hs, hi'⟩ := hstep
    refine ⟨a', ?_, ?_⟩
    · rw [run, List.foldlM_append]
      simp only [run] at hrun
      simp [hrun, hs]
    · rw [history, List.foldl_append]; exact hi'

/-- After every run of declarations and child lists the registry mirrors its history. -/
theorem registry_mirror (parse : Parse) (events : List Event) (hc : ∀ ev ∈ events, CleanEvent parse ev) :
    ∃ a, run parse events = some a ∧ Mirrors parse (history events) a := by
  obtain ⟨a, hrun, hi⟩ := run_inv hc
  exact ⟨a, hrun, hi.mirror⟩

/-- A provider's definition as `register_services` sends it, and its tree. -/
def sampleText : CStr :=
  .lit "\x7b\"host\":\"h\",\"port\":80,\"group\":\"g\",\"services\":[\x7b\"service\":\"s\",\"version\":\"v\"\x7d]\x7d"

def sampleItem : Item :=
  .object [(lHost, .string (.lit "h")), (lPort, .number 80), (lGroup, .string (.lit "g")),
    (lServices, .array [.object [(lService, .string (.lit "s")), (lVersion, .string (.lit "v"))]])]

def sampleParse : Parse := fun content => if content = sampleText then some sampleItem else none

def sampleEvents : List Event :=
  [.declare (.lit "g") (.lit "s") (.lit "v"), .children (.lit "/g/providers") [.lit "x"],
    .children (.lit "/g/providers") [UrlCodec.encodeStr sampleText, .lit "x"]]

theorem sample_definition : readDefinition sampleItem = some ⟨.lit "h", 80, .lit "g", [(.lit "s", .lit "v")]⟩ := rfl

theorem sample_call (names : List CStr) : CleanCall sampleParse (.lit "/g/providers") names := by
  refine ⟨by decide, fun name _ text root _ hp => ?_⟩
  simp only [sampleParse, Option.ite_none_right_eq_some, Option.some.injEq] at hp
  obtain ⟨-, rfl⟩ := hp
  refine ⟨_, sample_definition, by decide, by decide, by decide, by decide, by decide, by decide, fun s hs => ?_⟩
  obtain rfl := List.mem_singleton.mp hs
  exact ⟨by decide, by decide, by decide, by decide⟩

theorem sample_clean : ∀ ev ∈ sampleEvents, CleanEvent sampleParse ev := by
  intro ev hev
  simp only [sampleEvents, List.mem_cons, List.not_mem_nil, or_false] at hev
  rcases hev with rfl | rfl | rfl
  · trivial
  · exact sample_call _
  · exact sample_call _

theorem sample_text : NodeText (UrlCodec.encodeStr sampleText) sampleText :=
  nodeText_iff.mpr (decodeNode_encodeStr sampleText)

/-- The record is mapped, its triple's item has its node, and the node is there. -/
theorem registry_mirror_sample : ∃ a r, run sampleParse sampleEvents = some a ∧ r ∈ a.mapped (.lit "/g/providers") ∧
    r.srvInfo.serviceValue.str = .lit "s" ∧ r.hostValue.str = .lit "h" ∧ r.portValue = 80 ∧
    (∃ e, entryOf a.tables r.srvInfo = some e ∧ .lit "h#80" ∈ e.nodeKeyArray.keys) ∧
    ∃ x ∈ a.tables.nodesResourcePool, x.key = .lit "h#80" := by
  obtain ⟨a, hrun, hm⟩ := registry_mirror sampleParse sampleEvents sample_clean
  let r := registerInfoPadding (.lit "g") (.lit "s") (.lit "v") (.lit "h") 80 0
  have hr : r ∈ a.mapped (.lit "/g/providers") := by
    refine (hm.mapping _ r).mpr ⟨_, _, rfl, ⟨_, List.mem_singleton_self _, rfl, rfl, rfl⟩, ?_⟩
    exact ⟨_, List.mem_cons_self, _, _, _, sample_text, if_pos rfl, sample_definition, _, List.mem_singleton_self _,
      rfl, rfl, rfl, rfl, rfl, rfl⟩
  obtain ⟨e, he⟩ := (hm.services r.srvInfo).mpr ⟨_, r, hr, rfl⟩
  have hkey : .lit "h#80" ∈ e.nodeKeyArray.keys := (hm.nodeKeys _ e he _).mpr ⟨_, r, hr, rfl, by decide +kernel⟩
  have hpool : e ∈ a.tables.servicesResourcePool := (HashTable.find_key he).1
  exact ⟨a, r, hrun, hr, rfl, rfl, rfl, ⟨e, he, hkey⟩, (hm.nodes _).mpr ⟨e, hpool, hkey⟩⟩

end Ddm.Registry.Mirror
