/-
  Ddm.Registry.ChildrenChange — the agent's registry and `children_change_func_impl` of
  `invoke_stub.c`: a list of child names is decoded and parsed, compared with the
  path's last list, and the difference applied to the tables.

  Proved: the fold over the child names leaves the declared records of their
  definitions, each once (`parse_nodes`), and the loop over the difference takes the
  deleted pairs out of the tables' relation and puts the added ones in
  (`notifyChange_deleted`, `notifyChange_added`).
-/

import Ddm.Registry.Keys

namespace Ddm.Registry

open Ddm.Lib Json

structure Agent where
  serviceFilters : List ServiceInfo
  registerMapping : List RegisterMapItem
  tables : Tables

def Agent.init : Agent := ⟨[], [], Tables.init⟩

def Registration.ofInfo (r : RegisterInfo) : Registration :=
  ⟨r.srvInfo.groupValue.str, r.srvInfo.serviceValue.str, r.srvInfo.versionValue.str, r.hostValue.str, r.portValue⟩

def notifyChange (t : Tables) (regInfo : RegisterInfo) : Tables :=
  if regInfo.status = -1 then resourceDelete t (.ofInfo regInfo)
  else if regInfo.status = 1 then resourceAdd t (.ofInfo regInfo)
  else t

/-- `url_decode(node_value, strlen(node_value))`, read as a string. -/
def decodeNode (nodeValue : CStr) : CStr := .ofBytes (UrlCodec.urlDecode nodeValue.chars)

theorem decodeNode_encodeStr (s : CStr) : decodeNode (UrlCodec.encodeStr s) = s := by
  have := UrlCodec.decode_encodeBytes s.chars []
  rw [List.append_nil] at this
  rw [decodeNode, UrlCodec.encodeStr, this, UrlCodec.urlDecode, List.append_nil, CStr.ofBytes_chars]

/-- The text in a child's name. -/
def NodeText (name text : CStr) : Prop := ∃ t, PercentText.Decoded name.chars t ∧ text = .ofBytes t

theorem nodeText_iff {name text : CStr} : NodeText name text ↔ decodeNode name = text := by
  constructor
  · intro h
    obtain ⟨t, ht, rfl⟩ := h
    rw [decodeNode, UrlCodec.urlDecode_iff.mpr ht]
  · intro h
    exact ⟨_, UrlCodec.decoded_urlDecode name.chars, h.symm⟩

/-- `remote_reg_info_arr` after the loop; the return codes are only logged. -/
def parseNodes (parse : Parse) (serviceFilters : List ServiceInfo) (nodeNames : List CStr) :
    Option (Option RegisterInfoArray) :=
  nodeNames.foldlM (fun result nodeValue =>
    (parseNodeRegisterInfo parse serviceFilters result (decodeNode nodeValue)).map (·.2)) none

def childrenChangeFuncImpl (parse : Parse) (a : Agent) (nodeGroup : CStr) (nodeNames : List CStr) : Option Agent := do
  let remote ← parseNodes parse a.serviceFilters nodeNames
  let local' := registerMappingFind a.registerMapping nodeGroup
  let diff := diffRegisterInfo local' remote
  some { a with
    tables := (diff.getD []).foldl notifyChange a.tables
    registerMapping := registerMappingPut a.registerMapping nodeGroup remote }

theorem childrenChange_eq_some {parse : Parse} {a a' : Agent} {path : CStr} {names : List CStr}
    (h : childrenChangeFuncImpl parse a path names = some a') :
    ∃ new, parseNodes parse a.serviceFilters names = some new ∧ a' = { a with
      tables := ((diffRegisterInfo (registerMappingFind a.registerMapping path) new).getD []).foldl notifyChange a.tables
      registerMapping := registerMappingPut a.registerMapping path new } := by
  obtain ⟨new, hn, h⟩ := Option.bind_eq_some_iff.mp h
  exact ⟨new, hn, (Option.some.inj h).symm⟩

/-- One more declaration of the services file. -/
def declareService (a : Agent) (group service version : CStr) : Agent :=
  { a with serviceFilters := serviceFilterAdd a.serviceFilters (serviceFilterPadding group service version) }

/-- The records mapped to a path; NULL and an empty array are the same here. -/
def Agent.mapped (a : Agent) (path : CStr) : List RegisterInfo := (registerMappingFind a.registerMapping path).getD []

/-! ## The fold over the names -/

/-- `r` is a record of a definition among the names. -/
def Lists (parse : Parse) (nodeNames : List CStr) (r : RegisterInfo) : Prop :=
  ∃ name ∈ nodeNames, ∃ text root d, NodeText name text ∧ parse text = some root ∧ readDefinition root = some d ∧
    ∃ s ∈ d.services, RecordOf d s r

/-- And it is declared. -/
def Listed (parse : Parse) (serviceFilters : List ServiceInfo) (nodeNames : List CStr) (r : RegisterInfo) : Prop :=
  r.srvInfo ∈ serviceFilters ∧ Lists parse nodeNames r

/-- The text fails to parse or has every member a definition needs. -/
def Readable (parse : Parse) (name : CStr) : Prop :=
  ∀ text root, NodeText name text → parse text = some root → (readDefinition root).isSome

theorem lists_one {parse : Parse} {name : CStr} {root : Item} {d : Definition}
    (hp : parse (decodeNode name) = some root) (hd : readDefinition root = some d) (r : RegisterInfo) : Lists parse [name] r ↔ r ∈ d.records := by
  rw [mem_records]
  constructor
  · intro h
    obtain ⟨n, hn, text, root', d', ht, hp', hd', hs⟩ := h
    obtain rfl := List.mem_singleton.mp hn
    obtain rfl := nodeText_iff.mp ht
    obtain rfl := Option.some.inj (hp.symm.trans hp')
    obtain rfl := Option.some.inj (hd.symm.trans hd')
    exact hs
  · intro h
    exact ⟨name, List.mem_singleton_self _, _, root, d, nodeText_iff.mpr rfl, hp, hd, h⟩

theorem lists_cons {parse : Parse} {name : CStr} {names : List CStr} {r : RegisterInfo} :
    Lists parse (name :: names) r ↔ Lists parse [name] r ∨ Lists parse names r := by
  simp only [Lists, List.exists_mem_cons_iff, List.not_mem_nil, false_and, exists_false, or_false]

/-- What the loop has built after some names. -/
structure Parsed (arr : RegisterInfoArray) (P : RegisterInfo → Prop) : Prop where
  nodup : arr.Nodup
  unmarked : Unmarked arr
  mem : ∀ r, r ∈ arr ↔ P r

theorem parse_step {parse : Parse} (fs : List ServiceInfo) {name : CStr} {result : Option RegisterInfoArray}
    {P : RegisterInfo → Prop} (hr : Readable parse name) (h : Parsed (result.getD []) P) :
    ∃ code result', parseNodeRegisterInfo parse fs result (decodeNode name) = some (code, result') ∧
      Parsed (result'.getD []) fun r => P r ∨ Listed parse fs [name] r := by
  cases hp : parse (decodeNode name) with
  | none =>
    refine ⟨-1, result, by simp [parseNodeRegisterInfo, hp], h.nodup, h.unmarked, fun r => ?_⟩
    rw [h.mem]
    simp [Listed, Lists, nodeText_iff, hp]
  | some root =>
    obtain ⟨d, hd⟩ := Option.isSome_iff_exists.mp (hr _ root (nodeText_iff.mpr rfl) hp)
    obtain ⟨hn, hu, hm⟩ := foldl_addRecord fs d.records (result.getD []) (records_unmarked d) h.unmarked h.nodup
    refine ⟨0, _, parse_definition hp hd fs result, hn, hu, fun r => ?_⟩
    rw [Option.getD_some, hm, h.mem, Listed, lists_one hp hd, and_comm]

theorem listed_cons {parse : Parse} {fs : List ServiceInfo} {name : CStr} {names : List CStr} {r : RegisterInfo} :
    Listed parse fs (name :: names) r ↔ Listed parse fs [name] r ∨ Listed parse fs names r := by
  simp only [Listed, @lists_cons parse name names, and_or_left]

theorem parse_nodes_from {parse : Parse} (fs : List ServiceInfo) : ∀ {names : List CStr}
    (result : Option RegisterInfoArray) {P : RegisterInfo → Prop}, (∀ name ∈ names, Readable parse name) →
    Parsed (result.getD []) P →
    ∃ result', names.foldlM (fun result nodeValue =>
        (parseNodeRegisterInfo parse fs result (decodeNode nodeValue)).map (·.2)) result = some result' ∧
      Parsed (result'.getD []) fun r => P r ∨ Listed parse fs names r := by
  intro names
  induction names with
  | nil => intro result P _ h; exact ⟨result, rfl, h.nodup, h.unmarked, fun r => by rw [h.mem]; simp [Listed, Lists]⟩
  | cons name names ih =>
    intro result P hr h
    obtain ⟨code, result', he, h'⟩ := parse_step fs (hr name List.mem_cons_self) h
    obtain ⟨result'', he', h''⟩ := ih result' (fun n hn => hr n (List.mem_cons_of_mem _ hn)) h'
    refine ⟨result'', by simp [List.foldlM_cons, he, he'], h''.nodup, h''.unmarked, fun r => ?_⟩
    rw [h''.mem, or_assoc, ← listed_cons]

theorem parse_nodes {parse : Parse} (fs : List ServiceInfo) {names : List CStr}
    (hr : ∀ name ∈ names, Readable parse name) :
    ∃ remote, parseNodes parse fs names = some remote ∧ Parsed (remote.getD []) (Listed parse fs names) := by
  obtain ⟨remote, he, h⟩ := parse_nodes_from fs none (P := fun _ => False) hr
    ⟨List.nodup_nil, by simp [Unmarked], by simp⟩
  exact ⟨remote, he, h.nodup, h.unmarked, fun r => by rw [h.mem, false_or]⟩

/-! ## The loop over the difference -/

/-- The pair of keys a record stands for. -/
def RegisterInfo.pair (r : RegisterInfo) : CStr × CStr :=
  ((Registration.ofInfo r).serviceKey.str, (Registration.ofInfo r).nodeKey.str)

variable {t : Tables} {R : Set (CStr × CStr)}

theorem notifyChange_deleted : ∀ {l : List RegisterInfo} {t : Tables} {R : Set (CStr × CStr)}, Rep t R →
    Rep ((marked (-1) l).foldl notifyChange t) (R \ {x | ∃ r ∈ l, r.pair = x}) := by
  intro l
  induction l with
  | nil => intro t R h; simpa [marked] using h
  | cons r l ih =>
    intro t R h
    have hset : R \ {x | ∃ r' ∈ r :: l, r'.pair = x} = (R \ {r.pair}) \ {x | ∃ r' ∈ l, r'.pair = x} := by
      ext x
      simp only [Set.mem_sdiff, Set.mem_ofPred_eq, List.exists_mem_cons_iff, Set.mem_singleton_iff, not_or, and_assoc]
      exact and_congr_right fun _ => and_congr_left fun _ => not_congr eq_comm
    rw [hset]
    exact ih (resourceDelete_rep h (.ofInfo r))

theorem notifyChange_added : ∀ {l : List RegisterInfo} {t : Tables} {R : Set (CStr × CStr)}, Rep t R →
    Rep ((marked 1 l).foldl notifyChange t) (R ∪ {x | ∃ r ∈ l, r.pair = x}) := by
  intro l
  induction l with
  | nil => intro t R h; simpa [marked] using h
  | cons r l ih =>
    intro t R h
    have hset : R ∪ {x | ∃ r' ∈ r :: l, r'.pair = x} = insert r.pair R ∪ {x | ∃ r' ∈ l, r'.pair = x} := by
      ext x
      simp only [Set.mem_union, Set.mem_ofPred_eq, List.exists_mem_cons_iff, Set.mem_insert_iff]
      constructor
      · intro h
        rcases h with h | rfl | h
        · exact Or.inl (Or.inr h)
        · exact Or.inl (Or.inl rfl)
        · exact Or.inr h
      · intro h
        rcases h with (rfl | h) | h
        · exact Or.inr (Or.inl rfl)
        · exact Or.inl h
        · exact Or.inr (Or.inr h)
    rw [hset]
    exact ih (resourceAdd_rep h (.ofInfo r))

/-! ## The mapping -/

theorem registerMappingFind_put {m : List RegisterMapItem} (hd : HashTable.Distinct RegisterMapItem.key m)
    {path : CStr} (hp : path.length < providerKeyLen) (arr : Option RegisterInfoArray) :
    HashTable.Distinct RegisterMapItem.key (registerMappingPut m path arr) ∧
      ∀ q, registerMappingFind (registerMappingPut m path arr) q = if q = path then arr else registerMappingFind m q := by
  have hnew : ((⟨snprintf providerKeyLen path, arr⟩ : RegisterMapItem)).key = path := snprintf_str hp
  unfold registerMappingPut
  split
  · rename_i i hi
    obtain ⟨hi, hk⟩ := HashTable.find_key hi
    have hdm : HashTable.Distinct RegisterMapItem.key
        (HashTable.modify RegisterMapItem.key m path fun i => { i with infoArray := arr }) := hd.modify fun _ => rfl
    refine ⟨hdm, fun q => ?_⟩
    split
    · rename_i hq
      have : registerMappingFindItem _ q = some { i with infoArray := arr } :=
        hdm.find_iff.mpr ⟨hd.mem_modify.mpr (Or.inr ⟨i, hi, hk, rfl⟩), hk.trans hq.symm⟩
      simp [registerMappingFind, this]
    · rename_i hq
      refine congrArg (Option.bind · _) (Option.ext fun j => ?_)
      simp only [registerMappingFindItem, hdm.find_iff, hd.find_iff, hd.mem_modify]
      constructor
      · intro h
        rcases h with ⟨⟨hj, -⟩ | ⟨x, -, hxk, rfl⟩, hjq⟩
        · exact ⟨hj, hjq⟩
        · exact absurd (hjq.symm.trans hxk) hq
      · intro h
        obtain ⟨hj, rfl⟩ := h
        exact ⟨Or.inl ⟨hj, hq⟩, rfl⟩
  · rename_i hf
    refine ⟨hd.add (by rw [hnew]; exact hf), fun q => ?_⟩
    simp only [registerMappingFind, registerMappingFindItem, HashTable.find, HashTable.add, List.find?_cons, hnew]
    by_cases hq : q = path
    · simp [hq]
    · simp [hq, Ne.symm hq]

end Ddm.Registry
