/-
  Ddm.Documents — which documents the three readers survive.

  `parse_node_register_info` reads a provider's definition, `watch_declared_services` the
  file of declared services and `register_services` a provider's own file. None of them
  asks whether `cJSON_GetObjectItem` found a member, or whether it is a string, before
  it reads through the pointer.

  Proved: each returns exactly on the documents that have every member it looks up, as a
  string where it prints it (`documents_survived_iff`). A child node named `{}` is a
  document that no agent survives (`empty_object_crashes`).
-/

import Ddm.Provider.Register
import Ddm.Watch.Declare

namespace Ddm.Documents

open Ddm.Lib Ddm.Registry Ddm.Registry.Json Ddm.Provider Ddm.Watch

/-! ## What each reader needs -/

def HasMember (item : Item) (name : CStr) : Prop := (getObjectItem item name).isSome = true

def HasString (item : Item) (name : CStr) : Prop := (stringMember item name).isSome = true

/-- A service as all three files write it. -/
structure ServiceReadable (serviceItem : Item) : Prop where
  service : HasString serviceItem lService
  version : HasString serviceItem lVersion

/-- `host` and `group` are printed only for a service. -/
structure NodeReadable (root : Item) : Prop where
  host : HasMember root lHost
  port : HasMember root lPort
  group : HasMember root lGroup
  servicesArray : HasMember root lServices
  services : ∀ servicesArray ∈ getObjectItem root lServices, ∀ serviceItem ∈ arrayItems servicesArray,
    ServiceReadable serviceItem ∧ HasString root lHost ∧ HasString root lGroup

structure DefineReadable (defineItem : Item) : Prop where
  group : HasString defineItem lGroup
  servicesArray : HasMember defineItem lServices
  services : ∀ servicesArray ∈ getObjectItem defineItem lServices, ∀ serviceItem ∈ arrayItems servicesArray,
    ServiceReadable serviceItem

/-- Every definition is readable, and its group's path fits the context's field. -/
structure FileReadable (root : Item) : Prop where
  defines : ∀ defineItem ∈ arrayItems root, DefineReadable defineItem
  groupsFit : ∀ groupName ∈ declaredGroups root, (providerPath groupName).length < maxGroupValueLen

/-- `url_encode` takes the length as an `int` and allocates three bytes for each. -/
def Encodable (content : CStr) : Prop := 0 ≤ toInt content.length ∧ 3 * toInt content.length + 1 < 2 ^ 31

/-! ## Loops that stop at the first NULL -/

/-- A loop whose turns go wrong by the item alone goes through if no item is wrong. -/
theorem foldlM_isSome {α β : Type} {f : β → α → Option β} {P : α → Prop} {l : List α}
    (hf : ∀ b, ∀ a ∈ l, (f b a).isSome = true ↔ P a) (b : β) : (l.foldlM f b).isSome = true ↔ ∀ a ∈ l, P a := by
  induction l generalizing b with
  | nil => exact iff_of_true rfl fun a ha => absurd ha List.not_mem_nil
  | cons a l ih =>
    rw [List.forall_mem_cons, ← hf b a List.mem_cons_self, List.foldlM_cons]
    cases h : f b a with
    | none => exact iff_of_false Bool.false_ne_true fun h => Bool.false_ne_true h.1
    | some b' =>
      rw [Option.bind_eq_bind, Option.bind_some, ih (fun b a ha => hf b a (List.mem_cons_of_mem _ ha)) b']
      exact (and_iff_right rfl).symm

theorem bind_isSome {α β : Type} {x : Option α} {f : α → Option β} :
    (x.bind f).isSome = true ↔ x.isSome = true ∧ ∀ a ∈ x, (f a).isSome = true := by
  cases x with
  | none => exact iff_of_false Bool.false_ne_true fun h => Bool.false_ne_true h.1
  | some a => exact ⟨fun h => ⟨rfl, fun _ ha => Option.some.inj ha ▸ h⟩, fun h => h.2 a rfl⟩

/-! ## The turns of the loops -/

theorem declareServiceItem_isSome (groupName : CStr) (fs : List ServiceInfo) (serviceItem : Item) :
    (declareServiceItem groupName fs serviceItem).isSome = true ↔ ServiceReadable serviceItem := by
  have hiff : ServiceReadable serviceItem ↔ HasString serviceItem lService ∧ HasString serviceItem lVersion :=
    ⟨fun h => ⟨h.service, h.version⟩, fun h => ⟨h.1, h.2⟩⟩
  rw [hiff, declareServiceItem, HasString, HasString, stringMember, stringMember]
  cases hs : getObjectItem serviceItem lService with
  | none => simp
  | some s =>
    cases hsv : valuestring s with
    | none => simp [hsv]
    | some sv =>
      cases hv : getObjectItem serviceItem lVersion with
      | none => simp [hsv]
      | some v => cases hvv : valuestring v <;> simp [hsv, hvv]

theorem parseService_isSome (fs : List ServiceInfo) (group host : Option CStr) (port : Int) (result : RegisterInfoArray)
    (serviceItem : Item) : (parseService fs group host port result serviceItem).isSome = true ↔
      ServiceReadable serviceItem ∧ host.isSome = true ∧ group.isSome = true := by
  rw [← declareServiceItem_isSome (.lit "") fs serviceItem, parseService, declareServiceItem]
  cases hs : getObjectItem serviceItem lService with
  | none => simp
  | some s =>
    cases hsv : valuestring s with
    | none => simp [hsv]
    | some sv =>
      cases hv : getObjectItem serviceItem lVersion with
      | none => simp
      | some v =>
        cases hvv : valuestring v with
        | none => simp [hvv]
        | some vv =>
          cases group with
          | none => simp [hsv, hvv]
          | some g =>
            cases host with
            | none => simp [hsv, hvv]
            | some h =>
              simp only [Option.bind_eq_bind, Option.bind_some, hsv, hvv]
              split <;> simp

theorem declareItem_isSome (declared : List ServiceInfo × List CStr) (defineItem : Item) :
    (declareItem declared defineItem).isSome = true ↔ DefineReadable defineItem := by
  have hiff : DefineReadable defineItem ↔ HasString defineItem lGroup ∧ HasMember defineItem lServices ∧
      ∀ servicesArray ∈ getObjectItem defineItem lServices, ∀ serviceItem ∈ arrayItems servicesArray,
        ServiceReadable serviceItem :=
    ⟨fun h => ⟨h.group, h.servicesArray, h.services⟩, fun h => ⟨h.1, h.2.1, h.2.2⟩⟩
  rw [hiff, declareItem, HasString, HasMember, stringMember]
  cases hg : getObjectItem defineItem lGroup with
  | none => simp
  | some g =>
    cases hgv : valuestring g with
    | none => simp [hgv]
    | some groupName =>
      cases hs : getObjectItem defineItem lServices with
      | none => simp [hgv]
      | some servicesArray =>
        have hloop := foldlM_isSome (l := arrayItems servicesArray)
          (fun fs item _ => declareServiceItem_isSome groupName fs item) declared.1
        simp only [Option.bind_eq_bind, Option.bind_some, hgv, bind_isSome, hloop, Option.isSome_some, implies_true,
          and_true, true_and, Option.mem_def, Option.some.injEq, forall_eq']

/-! ## The three readers -/

theorem parseNodeRegisterInfo_isSome {parse : Parse} {content : CStr} {root : Item} (hp : parse content = some root)
    (fs : List ServiceInfo) (result : Option RegisterInfoArray) :
    (parseNodeRegisterInfo parse fs result content).isSome = true ↔ NodeReadable root := by
  have hiff : NodeReadable root ↔ HasMember root lHost ∧ HasMember root lPort ∧ HasMember root lGroup ∧
      HasMember root lServices ∧ ∀ servicesArray ∈ getObjectItem root lServices, ∀ serviceItem ∈ arrayItems servicesArray,
        ServiceReadable serviceItem ∧ HasString root lHost ∧ HasString root lGroup :=
    ⟨fun h => ⟨h.host, h.port, h.group, h.servicesArray, h.services⟩, fun h => ⟨h.1, h.2.1, h.2.2.1, h.2.2.2.1, h.2.2.2.2⟩⟩
  rw [hiff, parseNodeRegisterInfo]
  simp only [hp, HasMember, HasString, stringMember]
  cases hh : getObjectItem root lHost with
  | none => simp
  | some h =>
    cases hpo : getObjectItem root lPort with
    | none => simp
    | some p =>
      cases hg : getObjectItem root lGroup with
      | none => simp
      | some g =>
        cases hs : getObjectItem root lServices with
        | none => simp
        | some servicesArray =>
          have hloop := foldlM_isSome (l := arrayItems servicesArray) (fun arr item _ =>
            parseService_isSome fs (valuestring g) (valuestring h) (valueint p) arr item) (result.getD [])
          simp only [Option.bind_eq_bind, Option.bind_some, bind_isSome, hloop, Option.isSome_some, implies_true,
            and_true, true_and, Option.mem_def, Option.some.injEq, forall_eq']

theorem declareDocument_isSome (fs : List ServiceInfo) (root : Item) :
    (declareDocument fs root).isSome = true ↔ ∀ defineItem ∈ arrayItems root, DefineReadable defineItem :=
  foldlM_isSome (fun declared defineItem _ => declareItem_isSome declared defineItem) (fs, [])

theorem registerServices_isSome {parse : Parse} {content : CStr} {root : Item} (hp : parse content = some root)
    (answers : Answers) (zh : ZkHandle) :
    (registerServices answers parse zh (some content)).isSome = true ↔ HasString root lGroup ∧ Encodable content := by
  simp only [registerServices, hp, HasString, stringMember, Encodable, UrlCodec.urlEncode]
  cases hg : getObjectItem root lGroup with
  | none => simp
  | some g =>
    cases hgv : valuestring g with
    | none => simp [hgv]
    | some groupName =>
      by_cases he : 0 ≤ toInt content.length ∧ 3 * toInt content.length + 1 < 2 ^ 31
      · simp only [Option.bind_eq_bind, Option.bind_some, hgv, if_pos he, Option.isSome_some, true_and]
        refine iff_of_true ?_ he
        split <;> rfl
      · simp only [Option.bind_eq_bind, Option.bind_some, hgv, if_neg he, Option.bind_none, Option.isSome_none,
          Option.isSome_some, true_and]
        exact iff_of_false Bool.false_ne_true he

theorem mapM_isSome {α β : Type} {f : α → Option β} {l : List α} :
    (l.mapM f).isSome = true ↔ ∀ a ∈ l, (f a).isSome = true := by
  induction l with
  | nil => exact iff_of_true rfl fun a ha => absurd ha List.not_mem_nil
  | cons a l ih =>
    rw [List.forall_mem_cons, ← ih, List.mapM_cons]
    cases f a with
    | none => simp
    | some b => cases l.mapM f <;> simp

theorem watchDocument_isSome (fs : List ServiceInfo) (root : Item) :
    (watchDocument fs root).isSome = true ↔ FileReadable root := by
  have hfits : ∀ groupName, (contextPath groupName).isSome = true ↔ (providerPath groupName).length < maxGroupValueLen :=
    fun groupName => by
      rw [Option.isSome_iff_exists]
      simp only [contextPath_eq_some]
      exact ⟨fun ⟨_, he, hl⟩ => he ▸ hl, fun h => ⟨_, rfl, h⟩⟩
  have hdoc := declareDocument_isSome fs root
  rw [watchDocument, Option.bind_eq_bind]
  cases hd : declareDocument fs root with
  | none =>
    rw [hd] at hdoc
    exact iff_of_false Bool.false_ne_true fun h => Bool.false_ne_true (hdoc.mpr h.defines)
  | some declared =>
    rw [hd] at hdoc
    rw [Option.bind_some, Option.bind_eq_bind, bind_isSome, mapM_isSome]
    simp only [hfits, mem_groups hd]
    exact ⟨fun h => ⟨hdoc.mp rfl, h.1⟩, fun h => ⟨h.groupsFit, fun _ _ => rfl⟩⟩

/-- Each reader returns on exactly these documents. -/
theorem documents_survived_iff {parse : Parse} {content : CStr} {root : Item} (hp : parse content = some root) :
    (∀ fs result, (parseNodeRegisterInfo parse fs result content).isSome = true ↔ NodeReadable root) ∧
      (∀ fs, (watchDocument fs root).isSome = true ↔ FileReadable root) ∧
      ∀ answers zh, (registerServices answers parse zh (some content)).isSome = true ↔
        HasString root lGroup ∧ Encodable content :=
  ⟨parseNodeRegisterInfo_isSome hp, fun fs => watchDocument_isSome fs root, registerServices_isSome hp⟩

/-- A definition of one service. -/
def sampleService : Item := .object [(lService, .string (.lit "s")), (lVersion, .string (.lit "1"))]

def sampleRoot : Item := .object [(lHost, .string (.lit "h")), (lPort, .number 8080), (lGroup, .string (.lit "g")),
  (lServices, .array [sampleService])]

/-- The definition for the text "d", and a file of it for "f". -/
def sampleParse : Parse := fun content =>
  if content = .lit "d" then some sampleRoot
  else if content = .lit "f" then some (.array [sampleRoot])
  else none

theorem sampleService_readable : ServiceReadable sampleService := ⟨rfl, rfl⟩

theorem mem_sampleServices {serviceItem : Item}
    (h : ∃ servicesArray, servicesArray ∈ getObjectItem sampleRoot lServices ∧ serviceItem ∈ arrayItems servicesArray) :
    serviceItem = sampleService := by
  obtain ⟨servicesArray, ha, hs⟩ := h
  have hone : getObjectItem sampleRoot lServices = some (.array [sampleService]) := by rfl
  obtain rfl := Option.some.inj (hone.symm.trans ha)
  exact List.mem_singleton.mp hs

/-- The definition is read to its end, in a node, in a file and in the provider. -/
theorem documents_survived_iff_sample :
    (parseNodeRegisterInfo sampleParse [] none (.lit "d")).isSome = true ∧
      (watchDocument [] (.array [sampleRoot])).isSome = true ∧
      (registerServices (fun _ _ => true) sampleParse .init (some (.lit "d"))).isSome = true := by
  have hdefinition : sampleParse (.lit "d") = some sampleRoot := by rfl
  have hfile : sampleParse (.lit "f") = some (.array [sampleRoot]) := by rfl
  obtain ⟨hnode, -, hregister⟩ := documents_survived_iff hdefinition
  obtain ⟨-, hwatch, -⟩ := documents_survived_iff hfile
  refine ⟨(hnode _ _).mpr ⟨rfl, rfl, rfl, rfl, fun a ha x hx => ?_⟩, (hwatch _).mpr ⟨fun d hd => ?_, fun g hg => ?_⟩,
    (hregister _ _).mpr ⟨rfl, by unfold Encodable; decide⟩⟩
  · rw [mem_sampleServices ⟨a, ha, hx⟩]
    exact ⟨sampleService_readable, rfl, rfl⟩
  · obtain rfl := List.mem_singleton.mp hd
    refine ⟨rfl, rfl, fun a ha x hx => ?_⟩
    rw [mem_sampleServices ⟨a, ha, hx⟩]
    exact sampleService_readable
  · have hgroups : declaredGroups (.array [sampleRoot]) = [.lit "g"] := by rfl
    rw [hgroups] at hg
    obtain rfl := List.mem_singleton.mp hg
    decide

/-- What `cJSON_Parse` makes of `{}`, and of nothing else here. -/
def emptyObjectParse : Parse := fun content => if content = .lit "\x7b\x7d" then some (.object []) else none

/-- A document without members, as a child name. -/
theorem empty_object_crashes : ¬∀ (parse : Parse) (content : CStr) (root : Item), parse content = some root →
    ∀ fs result, (parseNodeRegisterInfo parse fs result content).isSome = true := by
  intro hall
  have h := hall emptyObjectParse (.lit "\x7b\x7d") (.object []) rfl [] none
  have hn : NodeReadable (.object []) := (parseNodeRegisterInfo_isSome (by rfl) [] none).mp h
  exact Bool.false_ne_true hn.host

end Ddm.Documents
