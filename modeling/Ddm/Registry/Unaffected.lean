/-
  Ddm.Registry.Unaffected — an update of a path's list leaves the registrations that stay
  in it available throughout.

  `children_change_func_impl` deletes before it adds. A record that is in the old list
  and in the new one is in no part of the difference, and what is deleted around it has
  another pair of keys: its service keeps its node, and the node stays in use, so
  neither the item nor the node is ever taken out (`unaffected_records_stay`).

  The runs are those of `Ddm.Registry.Mirror`, over any texts; the lists must be apart
  (`Apart`). What is kept of them is that every mapped record's pair is in the tables
  (`Mapped`).
-/

import Ddm.Lib.Machine
import Ddm.Registry.Mirror
import Ddm.Registry.Points

namespace Ddm.Registry

open Ddm.Lib Ddm.Lib.Machine Json Mirror

/-! ## The points of an update -/

def notifyPoints (t : Tables) (regInfo : RegisterInfo) : List Point :=
  if regInfo.status = -1 then (Call.delete (.ofInfo regInfo)).points t
  else if regInfo.status = 1 then (Call.add (.ofInfo regInfo)).points t
  else [⟨t, none⟩]

/-- The points of the loop over the difference. -/
def updatePoints : Tables → List RegisterInfo → List Point
  | t, [] => [⟨t, none⟩]
  | t, r :: diff => notifyPoints t r ++ updatePoints (notifyChange t r) diff

/-- The last point is what `children_change_func_impl` leaves. -/
theorem updatePoints_last (diff : List RegisterInfo) : ∀ t : Tables,
    (updatePoints t diff).getLast? = some ⟨diff.foldl notifyChange t, none⟩ := by
  induction diff with
  | nil => intro t; rfl
  | cons r diff ih =>
    intro t
    rw [updatePoints, List.getLast?_append, ih]
    rfl

/-! ## A pair that is served -/

/-- The service has the node's key, and the node is this item of the table. -/
structure Serves (t : Tables) (x : CStr × CStr) (node : NodeResource) : Prop where
  service : ∃ e ∈ t.servicesResourcePool, e.key = x.1 ∧ x.2 ∈ e.nodeKeyArray.keys
  node : nodeResourceGetByKey t x.2 = some node

variable {t : Tables} {R : Set (CStr × CStr)} {x : CStr × CStr} {node : NodeResource}

theorem RepServices.serves {pool : List ServiceResource} (h : RepServices pool R) (hx : x ∈ R) :
    ∃ e ∈ pool, e.key = x.1 ∧ x.2 ∈ e.nodeKeyArray.keys := by
  obtain ⟨e, he, hk⟩ := h.dom x.1 x.2 hx
  exact ⟨e, he, hk, (h.entry e he x.2).mpr (hk ▸ hx)⟩

theorem Rep.exists_node (h : Rep t R) (hx : x ∈ R) : ∃ node, nodeResourceGetByKey t x.2 = some node := by
  obtain ⟨node, hn, hk⟩ := (h.nodes.mem x.2).mpr ⟨x.1, hx⟩
  exact ⟨node, h.nodes.distinct.find_iff.mpr ⟨hn, hk⟩⟩

/-- A node that is there is found again, and another one's key is not its. -/
theorem node_add (hn : nodeResourceGetByKey t x.2 = some node) (host : CStr) (port : Int) :
    nodeResourceGetByKey (nodeResourceAdd t host port) x.2 = some node := by
  unfold nodeResourceAdd
  split
  · exact hn
  · rename_i hf
    have hne : (nodeResourceConstructKey host port nodeKeyLen).str ≠ x.2 := fun e => by
      rw [nodeResourceGet, e, hn] at hf
      cases hf
    rw [nodeResourceGetByKey, nodeResourceInsert, HashTable.find, HashTable.add, List.find?_cons_of_neg]
    · exact hn
    · exact fun e => hne (of_decide_eq_true e)

theorem node_delete (hd : HashTable.Distinct NodeResource.key t.nodesResourcePool)
    (hn : nodeResourceGetByKey t x.2 = some node) {host : CStr} {port : Int}
    (hne : (nodeResourceConstructKey host port nodeKeyLen).str ≠ x.2) :
    nodeResourceGetByKey (nodeResourceDelete t host port) x.2 = some node := by
  unfold nodeResourceDelete
  split
  · rename_i other hf
    obtain ⟨hm, hk⟩ := HashTable.find_key hn
    obtain ⟨-, hko⟩ := HashTable.find_key hf
    refine (hd.del other.key).find_iff.mpr ⟨hd.mem_del.mpr ⟨hm, fun e => hne ?_⟩, hk⟩
    rw [← hko, ← e, hk]
  · exact hn

/-! ## One call -/

theorem add_serves (h : Rep t R) (hx : x ∈ R) (hn : nodeResourceGetByKey t x.2 = some node) (a : Registration) :
    ∀ p ∈ (Call.add a).points t, Serves p.tables x node := by
  have hadd := node_add hn a.host a.port
  intro p hp
  simp only [Call.points, List.mem_cons, List.not_mem_nil, or_false] at hp
  rcases hp with rfl | rfl | rfl
  · exact ⟨h.services.serves hx, hn⟩
  · exact ⟨by rw [services_nodeResourceAdd]; exact h.services.serves hx, hadd⟩
  · refine ⟨(resourceAdd_rep h a).services.serves (Set.mem_insert_of_mem _ hx), ?_⟩
    rw [nodeResourceGetByKey, nodes_serviceResourceAdd]
    exact hadd

/-- Cutting another pair's key. -/
theorem cut_serves (h : Rep t R) (hx : x ∈ R) {e : ServiceResource} (he : e ∈ t.servicesResourcePool) {n : CStr}
    (hne : (e.key, n) ≠ x) : ∃ i ∈ (serviceResourceCut t e n).servicesResourcePool, i.key = x.1 ∧
      x.2 ∈ i.nodeKeyArray.keys := by
  obtain ⟨i, hi, hk, hm⟩ := h.services.serves hx
  by_cases hie : i.key = e.key
  · obtain rfl := h.services.distinct.unique hi he hie
    refine ⟨_, (mem_cut h.services.distinct hi).mpr (Or.inr rfl), hk, ?_⟩
    exact (mem_keys_delete (h.services.nodup i hi)).mpr ⟨fun e => hne (Prod.ext hk e.symm), hm⟩
  · exact ⟨i, (mem_cut h.services.distinct he).mpr (Or.inl ⟨hi, hie⟩), hk, hm⟩

theorem delete_serves (h : Rep t R) (hx : x ∈ R) (hn : nodeResourceGetByKey t x.2 = some node) {a : Registration}
    (hne : (Call.delete a).pair ≠ x) : ∀ p ∈ (Call.delete a).points t, Serves p.tables x node := by
  have hx' : x ∈ R \ {(a.serviceKey.str, a.nodeKey.str)} := ⟨hx, fun e => hne (Set.mem_singleton_iff.mp e).symm⟩
  have hmid := serviceResourceDelete_rep (a := a) h.services
  have hnmid : nodeResourceGetByKey (serviceResourceDelete t a) x.2 = some node := by
    rw [nodeResourceGetByKey, nodes_serviceResourceDelete]
    exact hn
  intro p hp
  simp only [Call.points, List.cons_append, List.mem_cons, List.mem_append, List.not_mem_nil, or_false] at hp
  rcases hp with rfl | hp | rfl | rfl
  · exact ⟨h.services.serves hx, hn⟩
  · simp only [cutPoints] at hp
    split at hp
    · rename_i e hf
      obtain ⟨he, hk⟩ := HashTable.find_key hf
      rw [List.mem_singleton.mp hp]
      exact ⟨cut_serves h hx he fun e' => hne ((Prod.ext hk.symm rfl : (Call.delete a).pair = (e.key, _)).trans e'), hn⟩
    · cases hp
  · exact ⟨hmid.serves hx', hnmid⟩
  · refine ⟨(resourceDelete_rep h a).services.serves hx', ?_⟩
    simp only [resourceDelete]
    split
    · exact hnmid
    · rename_i hu
      -- the pair is still in the relation, so its node is in use
      refine node_delete (by rw [nodes_serviceResourceDelete]; exact h.nodes.distinct) hnmid fun e => hu ?_
      exact (poolIsUsed_iff hmid).mpr ⟨x.1, by rw [e]; exact hx'⟩

/-! ## The loop -/

theorem update_serves (diff : List RegisterInfo) : ∀ {t : Tables} {R : Set (CStr × CStr)}, Rep t R → x ∈ R →
    nodeResourceGetByKey t x.2 = some node → (∀ d ∈ diff, d.status = -1 → d.pair ≠ x) →
    ∀ p ∈ updatePoints t diff, Serves p.tables x node := by
  induction diff with
  | nil =>
    intro t R h hx hn _ p hp
    rw [List.mem_singleton.mp hp]
    exact ⟨h.services.serves hx, hn⟩
  | cons d diff ih =>
    intro t R h hx hn hdiff
    obtain ⟨hd, hdiff⟩ := List.forall_mem_cons.mp hdiff
    by_cases hdel : d.status = -1
    · have hpoints := delete_serves h hx hn (a := .ofInfo d) (hd hdel)
      have hrest := ih (t := resourceDelete t (.ofInfo d)) (resourceDelete_rep h (.ofInfo d))
        ⟨hx, fun e => hd hdel (Set.mem_singleton_iff.mp e).symm⟩
        (hpoints ⟨resourceDelete t (.ofInfo d), none⟩ (by simp [Call.points])).node hdiff
      simp only [updatePoints, notifyPoints, notifyChange, if_pos hdel, List.forall_mem_append]
      exact ⟨hpoints, hrest⟩
    · by_cases hadd : d.status = 1
      · have hpoints := add_serves h hx hn (.ofInfo d)
        have hrest := ih (t := resourceAdd t (.ofInfo d)) (resourceAdd_rep h (.ofInfo d)) (Set.mem_insert_of_mem _ hx)
          (hpoints ⟨resourceAdd t (.ofInfo d), none⟩ (by simp [Call.points, resourceAdd])).node hdiff
        simp only [updatePoints, notifyPoints, notifyChange, if_neg hdel, if_pos hadd, List.forall_mem_append]
        exact ⟨hpoints, hrest⟩
      · have hrest := ih h hx hn hdiff
        simp only [updatePoints, notifyPoints, notifyChange, if_neg hdel, if_neg hadd, List.forall_mem_append,
          List.mem_singleton, forall_eq]
        exact ⟨⟨h.services.serves hx, hn⟩, hrest⟩

/-! ## The lists -/

/-- The record is in a list: a mapped one, or the new one of the path. -/
def InLists (a : Agent) (path : CStr) (new : List RegisterInfo) (q : CStr) (r : RegisterInfo) : Prop :=
  r ∈ a.mapped q ∨ q = path ∧ r ∈ new

/-- Lists of different paths share no record, and different records have different pairs. -/
structure Apart (a : Agent) (path : CStr) (new : List RegisterInfo) : Prop where
  paths : ∀ q q' r, InLists a path new q r → InLists a path new q' r → q = q'
  pairs : ∀ q q' r r', InLists a path new q r → InLists a path new q' r' → r.pair = r'.pair → r = r'

/-- The steps of a run over such lists. -/
def KeepsApart (parse : Parse) (a : Agent) : Event → Prop
  | .declare _ _ _ => True
  | .children path names => ∀ new, parseNodes parse a.serviceFilters names = some new → Apart a path (new.getD [])

theorem parseNode_unmarked {parse : Parse} {fs : List ServiceInfo} {result result' : Option RegisterInfoArray}
    {content : CStr} {code : Int} (h : parseNodeRegisterInfo parse fs result content = some (code, result'))
    (hu : Unmarked (result.getD [])) : Unmarked (result'.getD []) := by
  have hservice : ∀ group host port arr item arr', parseService fs group host port arr item = some arr' →
      Unmarked arr → Unmarked arr' := by
    intro group host port arr item arr' h hu
    simp only [parseService, Option.bind_eq_bind, Option.bind_eq_some_iff] at h
    obtain ⟨_, _, _, _, _, _, _, _, _, _, _, _, h⟩ := h
    split at h
    · obtain rfl := Option.some.inj h
      exact List.forall_mem_append.mpr ⟨hu, List.forall_mem_singleton.mpr rfl⟩
    · exact Option.some.inj h ▸ hu
  unfold parseNodeRegisterInfo at h
  split at h
  · rw [← (Prod.mk.inj (Option.some.inj h)).2]
    exact hu
  · simp only [Option.bind_eq_bind, Option.bind_eq_some_iff, Option.some.injEq, Prod.mk.injEq] at h
    obtain ⟨_, _, _, _, _, _, _, _, arr, harr, -, rfl⟩ := h
    exact foldlM_inv (I := fun _ arr => Unmarked arr) hu
      (fun _ arr item arr' hi hs => hservice _ _ _ arr item arr' hs hi) harr

theorem parseNodes_unmarked {parse : Parse} {fs : List ServiceInfo} {names : List CStr}
    {remote : Option RegisterInfoArray} (h : parseNodes parse fs names = some remote) : Unmarked (remote.getD []) := by
  refine foldlM_inv (I := fun _ result => Unmarked (result.getD [])) (fun r hr => absurd hr List.not_mem_nil)
    (fun _ result name result' hi hs => ?_) h
  obtain ⟨⟨code, _⟩, hcall, rfl⟩ := Option.map_eq_some_iff.mp hs
  exact parseNode_unmarked hcall hi

/-- After a put a record is one of the new list's, or mapped to another path as before. -/
theorem mem_mapped_put {m : List RegisterMapItem} {path q : CStr} {arr : Option RegisterInfoArray} {r : RegisterInfo}
    (h : r ∈ (registerMappingFind (registerMappingPut m path arr) q).getD []) :
    r ∈ arr.getD [] ∨ r ∈ (registerMappingFind m q).getD [] ∧ q ≠ path := by
  have hkey : ∀ i : RegisterMapItem, RegisterMapItem.key { i with infoArray := arr } = i.key := fun _ => rfl
  unfold registerMappingPut at h
  split at h
  · rename_i i hi
    rw [registerMappingFind, registerMappingFindItem, HashTable.find_modify hkey] at h
    cases hf : HashTable.find RegisterMapItem.key m q with
    | none => rw [hf] at h; cases h
    | some j =>
      obtain ⟨-, hk⟩ := HashTable.find_key hf
      rw [hf, Option.map_some, Option.bind_some] at h
      by_cases hq : j.key = path
      · rw [if_pos hq] at h; exact Or.inl h
      · rw [if_neg hq] at h
        exact Or.inr ⟨by rw [registerMappingFind, registerMappingFindItem, hf]; exact h, fun e => hq (hk.trans e)⟩
  · rename_i hf
    rw [registerMappingFind, registerMappingFindItem, HashTable.find, HashTable.add, List.find?_cons] at h
    split at h
    · exact Or.inl h
    · refine Or.inr ⟨h, fun e => ?_⟩
      rw [e] at h
      rw [show List.find? (fun i => decide (RegisterMapItem.key i = path)) m = none from hf] at h
      cases h

/-! ## A run -/

/-- Every mapped record's pair is in the tables' relation. -/
structure Backed (a : Agent) : Prop where
  rep : ∃ R, Rep a.tables R ∧ ∀ q, ∀ r ∈ a.mapped q, r.pair ∈ R
  unmarked : ∀ q, Unmarked (a.mapped q)

theorem init_backed : Backed .init :=
  ⟨⟨∅, Rep.init, fun _ _ hr => absurd hr List.not_mem_nil⟩, fun _ _ hr => absurd hr List.not_mem_nil⟩

variable {parse : Parse} {a a' : Agent} {path : CStr} {names : List CStr} {new : Option RegisterInfoArray}

/-- What a record of the difference was, or is to be. -/
theorem diff_eq (hb : Backed a) (hn : parseNodes parse a.serviceFilters names = some new) :
    (diffRegisterInfo (registerMappingFind a.registerMapping path) new).getD [] =
      marked (-1) ((a.mapped path).filter (· ∉ new.getD [])) ++ marked 1 ((new.getD []).filter (· ∉ a.mapped path)) :=
  diff_getD (hb.unmarked path) (parseNodes_unmarked hn)

theorem children_backed (hb : Backed a) (hn : parseNodes parse a.serviceFilters names = some new)
    (hap : Apart a path (new.getD [])) : Backed { a with
      tables := ((diffRegisterInfo (registerMappingFind a.registerMapping path) new).getD []).foldl notifyChange a.tables
      registerMapping := registerMappingPut a.registerMapping path new } := by
  obtain ⟨R, hR, hin⟩ := hb.rep
  have hmem : ∀ q r, r ∈ (registerMappingFind (registerMappingPut a.registerMapping path new) q).getD [] →
      r ∈ new.getD [] ∨ r ∈ a.mapped q ∧ q ≠ path := fun q r => mem_mapped_put
  have hrep := notifyChange_added (l := (new.getD []).filter (· ∉ a.mapped path))
    (notifyChange_deleted (l := (a.mapped path).filter (· ∉ new.getD [])) hR)
  rw [← List.foldl_append, ← diff_eq hb hn] at hrep
  refine ⟨⟨_, hrep, fun q r hr => ?_⟩, fun q r hr => ?_⟩
  · cases hmem q r hr with
    | inl hr =>
      by_cases hold : r ∈ a.mapped path
      · refine Or.inl ⟨hin path r hold, ?_⟩
        intro ⟨d, hd, he⟩
        obtain ⟨hd, hnot⟩ := List.mem_filter.mp hd
        have hsame := hap.pairs path path d r (Or.inl hd) (Or.inl hold) he
        exact of_decide_eq_true hnot (hsame ▸ hr)
      · exact Or.inr ⟨r, List.mem_filter.mpr ⟨hr, decide_eq_true hold⟩, rfl⟩
    | inr hr =>
      refine Or.inl ⟨hin q r hr.1, ?_⟩
      intro ⟨d, hd, he⟩
      have hd := (List.mem_filter.mp hd).1
      have hsame := hap.pairs path q d r (Or.inl hd) (Or.inl hr.1) he
      exact hr.2 (hap.paths q path r (Or.inl hr.1) (Or.inl (hsame ▸ hd)))
  · cases hmem q r hr with
    | inl hr => exact parseNodes_unmarked hn r hr
    | inr hr => exact hb.unmarked q r hr.1

theorem step_backed {ev : Event} (hb : Backed a) (hok : KeepsApart parse a ev) (hs : step parse a ev = some a') :
    Backed a' := by
  cases ev with
  | declare group service version =>
    obtain rfl := Option.some.inj hs
    exact ⟨hb.rep, hb.unmarked⟩
  | children path names =>
    obtain ⟨new, hn, rfl⟩ := childrenChange_eq_some hs
    exact children_backed hb hn (hok new hn)

/-- Throughout an update a record of the old list and the new is served, by one and the
    same node. -/
theorem unaffected_records_stay (hreach : Reach (step parse) (KeepsApart parse) .init a)
    (hn : parseNodes parse a.serviceFilters names = some new) (hap : Apart a path (new.getD []))
    {r : RegisterInfo} (hold : r ∈ a.mapped path) (hnew : r ∈ new.getD []) :
    ∃ node, nodeResourceGetByKey a.tables r.pair.2 = some node ∧
      ∀ p ∈ updatePoints a.tables ((diffRegisterInfo (registerMappingFind a.registerMapping path) new).getD []),
        Serves p.tables r.pair node := by
  have hb := hreach.inv init_backed fun _ _ _ hb hok hs => step_backed hb hok hs
  obtain ⟨R, hR, hin⟩ := hb.rep
  have hx := hin path r hold
  obtain ⟨node, hnode⟩ := hR.exists_node hx
  refine ⟨node, hnode, update_serves _ hR hx hnode fun d hd hdel he => ?_⟩
  rw [diff_eq hb hn] at hd
  cases List.mem_append.mp hd with
  | inl hd =>
    obtain ⟨d₀, hd₀, rfl⟩ := List.mem_map.mp hd
    obtain ⟨hd₀, hnot⟩ := List.mem_filter.mp hd₀
    exact of_decide_eq_true hnot (hap.pairs path path d₀ r (Or.inl hd₀) (Or.inl hold) he ▸ hnew)
  | inr hd =>
    obtain ⟨d₀, -, rfl⟩ := List.mem_map.mp hd
    exact absurd hdel (by decide : ¬(1 : Int) = -1)

/-- Two providers of one service; one of them leaves. -/
def otherText : CStr :=
  .lit "\x7b\"host\":\"i\",\"port\":80,\"group\":\"g\",\"services\":[\x7b\"service\":\"s\",\"version\":\"v\"\x7d]\x7d"

def otherItem : Item :=
  .object [(lHost, .string (.lit "i")), (lPort, .number 80), (lGroup, .string (.lit "g")),
    (lServices, .array [.object [(lService, .string (.lit "s")), (lVersion, .string (.lit "v"))]])]

def twoParse : Parse := fun content =>
  if content = sampleText then some sampleItem else if content = otherText then some otherItem else none

def twoRecord (host : CStr) : RegisterInfo := registerInfoPadding (.lit "g") (.lit "s") (.lit "v") host 80 0

def declaredAgent : Agent := declareService .init (.lit "g") (.lit "s") (.lit "v")

def twoAgent : Agent := { declaredAgent with
  tables := ((diffRegisterInfo none (some [twoRecord (.lit "h"), twoRecord (.lit "i")])).getD []).foldl notifyChange .init
  registerMapping := registerMappingPut [] (.lit "/g/providers") (some [twoRecord (.lit "h"), twoRecord (.lit "i")]) }

theorem mem_twoAgent {q : CStr} {r : RegisterInfo} (h : r ∈ twoAgent.mapped q) :
    q = .lit "/g/providers" ∧ r ∈ [twoRecord (.lit "h"), twoRecord (.lit "i")] := by
  have hfits : (CStr.lit "/g/providers").length < providerKeyLen := by decide
  have hput := (registerMappingFind_put (m := []) List.nodup_nil hfits
    (some [twoRecord (.lit "h"), twoRecord (.lit "i")])).2 q
  rw [Agent.mapped, twoAgent, hput] at h
  split at h
  · rename_i hq
    exact ⟨hq, h⟩
  · cases h

theorem two_pairs : ∀ r ∈ [twoRecord (.lit "h"), twoRecord (.lit "i")], ∀ r' ∈ [twoRecord (.lit "h"), twoRecord (.lit "i")],
    r.pair = r'.pair → r = r' := by decide +kernel

theorem twoAgent_reached : Reach (step twoParse) (KeepsApart twoParse) .init twoAgent := by
  have hparse : parseNodes twoParse declaredAgent.serviceFilters
      [UrlCodec.encodeStr sampleText, UrlCodec.encodeStr otherText] =
        some (some [twoRecord (.lit "h"), twoRecord (.lit "i")]) := by decide +kernel
  have hdeclared : Reach (step twoParse) (KeepsApart twoParse) .init declaredAgent :=
    .next (.declare (.lit "g") (.lit "s") (.lit "v")) .start trivial rfl
  refine .next (.children (.lit "/g/providers") [UrlCodec.encodeStr sampleText, UrlCodec.encodeStr otherText]) hdeclared
    (fun new hnew => ?_) ?_
  · obtain rfl := Option.some.inj (hparse.symm.trans hnew)
    have hin : ∀ q r, InLists declaredAgent (.lit "/g/providers") [twoRecord (.lit "h"), twoRecord (.lit "i")] q r →
        q = .lit "/g/providers" ∧ r ∈ [twoRecord (.lit "h"), twoRecord (.lit "i")] := fun q r h =>
      h.elim (fun h => absurd h List.not_mem_nil) id
    exact ⟨fun q q' r h h' => (hin q r h).1.trans (hin q' r h').1.symm,
      fun q q' r r' h h' => two_pairs r (hin q r h).2 r' (hin q' r' h').2⟩
  · rw [step, childrenChangeFuncImpl, hparse]
    rfl

theorem unaffected_records_stay_sample : ∃ node, nodeResourceGetByKey twoAgent.tables (twoRecord (.lit "h")).pair.2 =
    some node ∧ ∀ p ∈ updatePoints twoAgent.tables ((diffRegisterInfo
      (registerMappingFind twoAgent.registerMapping (.lit "/g/providers")) (some [twoRecord (.lit "h")])).getD []),
      Serves p.tables (twoRecord (.lit "h")).pair node := by
  have hparse : parseNodes twoParse twoAgent.serviceFilters [UrlCodec.encodeStr sampleText] =
      some (some [twoRecord (.lit "h")]) := by decide +kernel
  have hin : ∀ q r, InLists twoAgent (.lit "/g/providers") [twoRecord (.lit "h")] q r →
      q = .lit "/g/providers" ∧ r ∈ [twoRecord (.lit "h"), twoRecord (.lit "i")] := fun q r h =>
    h.elim mem_twoAgent fun h => ⟨h.1, List.mem_singleton.mp h.2 ▸ List.mem_cons_self⟩
  exact unaffected_records_stay twoAgent_reached hparse
    ⟨fun q q' r h h' => (hin q r h).1.trans (hin q' r h').1.symm,
      fun q q' r r' h h' => two_pairs r (hin q r h).2 r' (hin q' r' h').2⟩ (by decide +kernel) List.mem_cons_self

end Ddm.Registry
