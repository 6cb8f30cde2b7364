/-
  Ddm.CJson.Definition — a provider's file, as text, from one process to the other: read by
  `register_services`, url-encoded into the name of a node, decoded by the agent and read
  again by `parse_node_register_info`, each time with the parser of `cJSON.c`.

  Proved: whatever the layout of the file, what the agent lists of it are the declared
  records of its definition, exactly when the path carries the text, among whatever other
  names the parser returns on (`published_definition`).
-/

import Ddm.CJson.Safe
import Ddm.Provider.Register
import Ddm.Registry.ChildrenChange

namespace Ddm.CJson

open Ddm.Lib Ddm.Registry Ddm.Registry.Json Ddm.Provider JsonText

/-- The parser as its callers see it, where it returns. -/
def parser {F : Type} (M : Arith F) : Parse := fun s => (cJSONParse M s).toOption

/-- It comes back with a tree or with NULL: its heap is not overrun. -/
def Returns {F : Type} (M : Arith F) (text : CStr) : Prop :=
  cJSONParse M text = .error .null ∨ ∃ x, cJSONParse M text = .ok x

theorem parser_text {F : Type} {M : Arith F} {s : CStr} {d : Doc} (h : Text s.chars d) (hfits : Fits d)
    (hint : s.length < 2 ^ 31) : parser M s = some (item M d) := by
  obtain ⟨rest, hparse⟩ := @parseValue_text F M _ _ h hfits hint
  unfold parser cJSONParse
  rw [hparse]
  rfl

theorem parser_eq_some {F : Type} {M : Arith F} {s : CStr} {x : Item} (h : parser M s = some x) :
    cJSONParse M s = .ok x := by
  unfold parser at h
  cases hp : cJSONParse M s with
  | error e => rw [hp] at h; cases h
  | ok y => rw [hp] at h; exact congrArg Except.ok (Option.some.inj h)

theorem Short.child {n : Nat} {x : Item} (h : Short n x) {c : Option CStr × Item} (hc : c ∈ children x) :
    Short n c.2 := by
  cases h with
  | array h =>
    obtain ⟨y, hy, rfl⟩ := List.mem_map.mp hc
    exact h y hy
  | object h =>
    obtain ⟨m, hm, rfl⟩ := List.mem_map.mp hc
    exact h m hm
  | _ => cases hc

theorem Short.member {n : Nat} {x y : Item} (h : Short n x) {name : CStr} (hy : getObjectItem x name = some y) :
    Short n y := by
  obtain ⟨c, hc, rfl⟩ := Option.map_eq_some_iff.mp hy
  exact h.child (List.mem_of_find?_eq_some hc)

/-- The parser's strings are parts of the text with two quotes around them. -/
theorem parser_quotesStrings {F : Type} (M : Arith F) : QuotesStrings (parser M) := by
  intro content root x s hp hx hs
  have hshort := (cJSONParse_short M (parser_eq_some hp)).member hx
  cases hshort with
  | string h => obtain rfl := Option.some.inj hs; exact h
  | _ => cases hs

/-! ## From file to registry -/

theorem readDefinition_group {root : Item} {d : Definition} (h : readDefinition root = some d) :
    ∃ x, getObjectItem root lGroup = some x ∧ valuestring x = some d.group := by
  simp only [readDefinition, Option.bind_eq_bind, Option.bind_eq_some_iff, Option.some.injEq] at h
  obtain ⟨_, _, _, _, _, _, x, hx, g, hg, _, _, _, _, rfl⟩ := h
  exact ⟨x, hx, hg⟩

/-- The text of a name that is read without harm: the parser returns, and what it returns,
    if anything, is a definition. -/
structure Harmless {F : Type} (M : Arith F) (name : CStr) : Prop where
  returns : ∀ text, NodeText name text → Returns M text
  readable : Readable (parser M) name

/-- A file registered with success is received as it was exactly if its path carries it,
    and the agent then lists of its records the declared ones, among whatever other names
    are harmless. -/
theorem published_definition {F : Type} {M : Arith F} {answers : Answers} {zh zh' : ZkHandle} {file : CStr} {doc : Doc}
    {d : Definition} (ht : Text file.chars doc) (hfits : Fits doc) (hint : file.length < 2 ^ 31)
    (hd : readDefinition (item M doc) = some d)
    (hret : registerServices answers (parser M) zh (some file) = some (0, zh')) :
    (Received zh' file ↔ Transportable d.group file) ∧
    (Transportable d.group file → ∃ path, zh'.nodes.getLast? = some path ∧ NodeText (childName path) file ∧
      ∀ fs names, childName path ∈ names → (∀ name ∈ names, Harmless M name) →
        ∃ remote, parseNodes (parser M) fs names = some remote ∧ (remote.getD []).Nodup ∧
          ∀ s ∈ d.services, ∀ r, RecordOf d s r → (r ∈ remote.getD [] ↔ r.srvInfo ∈ fs)) := by
  obtain ⟨x, hx, hg⟩ := readDefinition_group hd
  have hp : parser M file = some (item M doc) := parser_text ht hfits hint
  have hiff := register_received_iff (parser_quotesStrings M) hp hx hg hret
  refine ⟨hiff, fun htr => ?_⟩
  obtain ⟨path, hlast, hdec⟩ := hiff.mpr htr
  have hname : NodeText (childName path) file := nodeText_iff.mpr (by rw [decodeNode, hdec, CStr.ofBytes_chars])
  refine ⟨path, hlast, hname, fun fs names hmem hread => ?_⟩
  obtain ⟨remote, he, hparsed⟩ := parse_nodes fs fun name hn => (hread name hn).readable
  refine ⟨remote, he, hparsed.nodup, fun s hs r hr => ?_⟩
  rw [hparsed.mem]
  constructor
  · intro h; exact h.1
  · intro h
    exact ⟨h, _, hmem, _, _, d, hname, hp, hd, s, hs, hr⟩

/-! ### A file of two lines -/

def bytes (s : String) : Bytes := s.toList.map Char.toUInt8

def sampleFile : CStr :=
  .lit "\x7b \"host\": \"h\", \"port\":8080,\n\"group\": \"g\", \"services\": [ \x7b\"service\": \"s\", \"version\": \"1\"\x7d ] \x7d\n"

def samplePort : Decimal := ⟨false, [8, 0, 8, 0], 0, 0⟩

def sampleDoc : Doc := .object [(bytes "host", .string (bytes "h")), (bytes "port", .number samplePort),
  (bytes "group", .string (bytes "g")), (bytes "services", .array [.object
    [(bytes "service", .string (bytes "s")), (bytes "version", .string (bytes "1"))]])]

/-- Nothing of it is escaped. -/
def Plain (s : String) : Prop := ∀ c ∈ bytes s, 32 ≤ c ∧ c ≠ 34 ∧ c ≠ 92

instance (s : String) : Decidable (Plain s) := List.decidableBAll _ (bytes s)

theorem sample_member (k : String) {t : Bytes} {d : Doc} (hk : Plain k) {w : Bytes}
    (hw : Blank w) (h : Value t d) : Member (34 :: (bytes k ++ 34 :: ([] ++ 58 :: (w ++ t)))) (bytes k, d) :=
  .mk (chars_plain hk) (by decide) hw h

theorem sample_string (s : String) (hs : Plain s) :
    Value (34 :: (bytes s ++ [34])) (.string (bytes s)) := .string (chars_plain hs)

theorem sampleFile_text : Text sampleFile.chars sampleDoc := by
  have hblank : Blank [32] := by decide
  have hline : Blank [10] := by decide
  have hnone : Blank [] := by decide
  have hwhole : IntPart [56, 48, 56, 48] [56, 48, 56, 48] := .digits (by decide) (by decide +kernel)
  have hport : Value (bytes "8080") (.number samplePort) :=
    .number (@Number.mk [] _ _ _ _ _ _ false rfl hwhole .none .none)
  have hservice := Value.object (.more hnone
    (sample_member "service" (by decide) hblank (sample_string "s" (by decide))) hnone (.one hblank (sample_member "version" (by decide) hblank (sample_string "1" (by decide))) hnone))
  have hservices := Value.array (.one hblank hservice hblank)
  have hfile := Value.object
    (.more hblank (sample_member "host" (by decide) hblank (sample_string "h" (by decide))) hnone
    (.more hblank (sample_member "port" (by decide) hnone hport) hnone
    (.more hline (sample_member "group" (by decide) hblank (sample_string "g" (by decide))) hnone
    (.one hblank (sample_member "services" (by decide) hblank hservices) hblank))))
  exact Text.mk hnone hfile hline

theorem sampleDoc_fits : Fits sampleDoc := by
  have hservices : Fits (.array [.object
      [(bytes "service", .string (bytes "s")), (bytes "version", .string (bytes "1"))]]) := by
    refine .array fun d hd => ?_
    rw [List.mem_singleton.mp hd]
    refine .object fun m hm => ?_
    simp only [List.mem_cons, List.not_mem_nil, or_false] at hm
    rcases hm with rfl | rfl <;> exact .string _
  refine .object fun m hm => ?_
  simp only [List.mem_cons, List.not_mem_nil, or_false] at hm
  rcases hm with rfl | rfl | rfl | rfl
  · exact .string _
  · exact .number (by decide)
  · exact .string _
  · exact hservices

theorem sampleFile_length : sampleFile.length < 2 ^ 20 := by decide +kernel

theorem cJSONParse_text_sample : cJSONParse wholeArith sampleFile = .ok (item wholeArith sampleDoc) ∧
    (getObjectItem (item wholeArith sampleDoc) (.lit "port")).map valueint = some 8080 :=
  ⟨cJSONParse_text sampleFile_text sampleDoc_fits (Nat.lt_trans sampleFile_length (by decide)), by rfl⟩

def sampleDefinition : Definition := ⟨.lit "h", 8080, .lit "g", [(.lit "s", .lit "1")]⟩

theorem published_definition_sample : ∃ zh', registerServices (fun _ _ => true) (parser wholeArith) .init
      (some sampleFile) = some (0, zh') ∧
    ∃ path, zh'.nodes.getLast? = some path ∧ ∃ remote,
      parseNodes (parser wholeArith) [serviceFilterPadding (.lit "g") (.lit "s") (.lit "1")] [childName path] =
        some remote ∧
      ∀ r, RecordOf sampleDefinition (.lit "s", .lit "1") r → r ∈ remote.getD [] := by
  have ht := sampleFile_text
  have hint : sampleFile.length < 2 ^ 31 := Nat.lt_trans sampleFile_length (by decide)
  have hp : parser wholeArith sampleFile = some (item wholeArith sampleDoc) := parser_text ht sampleDoc_fits hint
  have hd : readDefinition (item wholeArith sampleDoc) = some sampleDefinition := by rfl
  obtain ⟨zh', hret⟩ := registerServices_created hp (by rfl) (by rfl) sampleFile_length (by decide) .init
  obtain ⟨-, hreceived⟩ := published_definition ht sampleDoc_fits hint hd hret
  obtain ⟨path, hlast, hname, hlist⟩ := hreceived (Or.inl (by decide +kernel))
  have hread : ∀ name ∈ [childName path], Harmless wholeArith name := by
    intro name hmem
    obtain rfl := List.mem_singleton.mp hmem
    have htext : ∀ text, NodeText (childName path) text → text = sampleFile := fun text h =>
      (nodeText_iff.mp h).symm.trans (nodeText_iff.mp hname)
    constructor
    · intro text h
      rw [htext text h]
      exact .inr ⟨_, parser_eq_some hp⟩
    · intro text root h hroot
      rw [htext text h, hp] at hroot
      obtain rfl := Option.some.inj hroot
      rw [hd]
      rfl
  obtain ⟨remote, he, -, hmem⟩ :=
    hlist [serviceFilterPadding (.lit "g") (.lit "s") (.lit "1")] [childName path] (List.mem_singleton_self _) hread
  refine ⟨zh', hret, path, hlast, remote, he, fun r hr => (hmem _ (List.mem_singleton_self _) r hr).mpr ?_⟩
  rw [recordOf_iff.mp hr]
  exact List.mem_singleton_self _

end Ddm.CJson
