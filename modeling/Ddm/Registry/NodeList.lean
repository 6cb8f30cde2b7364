/-
  Ddm.Registry.NodeList — what the loop over the child names of a path amounts to.

  `parse_node_register_info` accumulates through `*result`, NULL at first. Over names
  whose texts fail to parse or are complete definitions, the result is the set union of
  the definitions' declared records, each text cut to the room of its field, whatever the
  order of the names (`node_list_is_union`).
-/

import Ddm.Lib.Machine
import Ddm.Registry.Diff
import Ddm.Registry.Mirror

namespace Ddm.Registry

open Ddm.Lib Json Diff

variable {parse : Parse} {fs : List ServiceInfo} {names : List CStr}

/-- A text that fails to parse leaves `*result` as it was; any other makes it an array. -/
theorem parseNodeRegisterInfo_null {result result' : Option RegisterInfoArray} {content : CStr} {code : Int}
    (h : parseNodeRegisterInfo parse fs result content = some (code, result')) :
    result' = none ↔ parse content = none ∧ result = none := by
  unfold parseNodeRegisterInfo at h
  split at h
  · rename_i hp
    obtain ⟨-, rfl⟩ := Prod.mk.inj (Option.some.inj h)
    exact ⟨fun hr => ⟨hp, hr⟩, And.right⟩
  · rename_i root hp
    simp only [Option.bind_eq_bind, Option.bind_eq_some_iff, Option.some.injEq, Prod.mk.injEq] at h
    obtain ⟨_, _, _, _, _, _, _, _, _, _, -, rfl⟩ := h
    exact iff_of_false (Option.some_ne_none _) fun hn => by rw [hp] at hn; cases hn.1

theorem parseNodes_null {result' : Option RegisterInfoArray} (h : parseNodes parse fs names = some result') :
    result' = none ↔ ∀ name ∈ names, parse (decodeNode name) = none := by
  refine Machine.foldlM_inv (I := fun names result => result = none ↔ ∀ name ∈ names, parse (decodeNode name) = none)
    (by simp) (fun names result name result' hi hs => ?_) h
  obtain ⟨⟨code, _⟩, hcall, rfl⟩ := Option.map_eq_some_iff.mp hs
  rw [parseNodeRegisterInfo_null hcall, hi, List.forall_mem_append, List.forall_mem_singleton, and_comm]

theorem unparsed_iff {name : CStr} :
    parse (decodeNode name) = none ↔ ∀ text, NodeText name text → parse text = none := by
  simp only [nodeText_iff, forall_eq']

theorem plain_unmarked {l : RegisterInfoArray} (h : Unmarked l) : l.map plain = l := by
  refine (List.map_congr_left fun r hr => ?_).trans (List.map_id l)
  exact RegisterInfo.ext rfl rfl rfl (h r hr).symm

theorem listed_perm {names' : List CStr} (hp : names.Perm names') (r : RegisterInfo) :
    Listed parse fs names r ↔ Listed parse fs names' r := by
  simp only [Listed, Lists, hp.mem_iff]

/-- NULL if no text parses, else a duplicate-free array of the declared records of the
    texts that do; in another order of the names the same set. -/
theorem node_list_is_union (fs : List ServiceInfo) (hr : ∀ name ∈ names, Readable parse name) :
    ∃ result, parseNodes parse fs names = some result ∧
      (result = none ↔ ∀ name ∈ names, ∀ text, NodeText name text → parse text = none) ∧
      DuplicateFree (result.getD []) ∧ (∀ r, r ∈ result.getD [] ↔ Listed parse fs names r) ∧
      (∀ names', names.Perm names' → ∃ result', parseNodes parse fs names' = some result' ∧
        (result' = none ↔ result = none) ∧ ∀ r, r ∈ result'.getD [] ↔ r ∈ result.getD []) ∧
      ∀ result content, parse content = none → parseNodeRegisterInfo parse fs result content = some (-1, result) := by
  obtain ⟨result, he, h⟩ := parse_nodes fs hr
  have hnull := parseNodes_null he
  refine ⟨result, he, ?_, ?_, h.mem, fun names' hp => ?_, fun result content hc => ?_⟩
  · simp only [hnull, unparsed_iff]
  · rw [DuplicateFree, plain_unmarked h.unmarked]
    exact h.nodup
  · have hr' : ∀ name ∈ names', Readable parse name := fun name hn => hr name (hp.mem_iff.mpr hn)
    obtain ⟨result', he', h'⟩ := parse_nodes fs hr'
    refine ⟨result', he', ?_, fun r => ?_⟩
    · rw [parseNodes_null he', hnull]
      simp only [hp.mem_iff]
    · rw [h'.mem, h.mem, listed_perm hp]
  · simp only [parseNodeRegisterInfo, hc]

open Mirror in
/-- Of two names one is a definition, and its record is declared. -/
theorem node_list_is_union_sample : ∃ result r,
    parseNodes sampleParse [serviceFilterPadding (.lit "g") (.lit "s") (.lit "v")]
      [.lit "x", UrlCodec.encodeStr sampleText] = some result ∧
    r ∈ result.getD [] ∧ r.srvInfo.groupValue.str = .lit "g" ∧ r.srvInfo.serviceValue.str = .lit "s" ∧
    r.srvInfo.versionValue.str = .lit "v" ∧ r.hostValue.str = .lit "h" ∧ r.portValue = 80 := by
  have hr : ∀ name ∈ [.lit "x", UrlCodec.encodeStr sampleText], Readable sampleParse name :=
    (sample_call _).readable
  obtain ⟨result, he, -, -, hm, -⟩ :=
    node_list_is_union [serviceFilterPadding (.lit "g") (.lit "s") (.lit "v")] hr
  refine ⟨result, registerInfoPadding (.lit "g") (.lit "s") (.lit "v") (.lit "h") 80 0, he, (hm _).mpr ⟨?_, ?_⟩,
    rfl, rfl, rfl, rfl, rfl⟩
  · exact List.mem_singleton_self _
  · exact ⟨_, by simp, _, _, _, sample_text, if_pos rfl, sample_definition, _, List.mem_singleton_self _, rfl, rfl, rfl,
      rfl, rfl, rfl⟩

end Ddm.Registry
