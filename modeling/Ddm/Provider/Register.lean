/-
  Ddm.Provider.Register — `register_services` of the provider's extension: the services
  definition, url-encoded, becomes the name of an ephemeral node under the group's
  provider path, which is how the agent receives it.

  ZooKeeper's answers are the environment's: `answers i path` is whether the i-th call,
  on this path, returns ZOK. A node it creates has exactly the path it was given.

  The path is printed into MAX_NODE_PATH_LEN bytes, which the encoding of a definition
  of the intended size can exceed, and what does not fit is cut without an error.
  Proved: a registered definition is received as it was if and only if its path fits, or
  the cut took only what the decoder puts back (`register_received_iff`).
-/

import Mathlib.Data.List.DropRight
import Ddm.Registry.ServiceConf

namespace Ddm.Provider

open Ddm.Lib Ddm.Registry Ddm.Registry.Json

abbrev maxServicesDefineContentSize : Nat := 1024 * 10
abbrev maxGroupValueLen : Nat := 512
abbrev maxNodePathLen : Nat := maxServicesDefineContentSize + maxGroupValueLen + 100

theorem maxNodePathLen_eq : maxNodePathLen = 10852 := rfl

instance (priority := high) : NeZero maxNodePathLen := ⟨by decide⟩

def slash : UInt8 := 47

/-! ## The ZooKeeper handle -/

structure ZkHandle where
  /-- The paths of the nodes this handle created, the newest last. -/
  nodes : List CStr
  calls : Nat
  nodeValue : CStr
  deriving DecidableEq

def ZkHandle.init : ZkHandle := ⟨[], 0, .lit ""⟩

abbrev Answers := Nat → CStr → Bool

variable (answers : Answers)

def existNode (zh : ZkHandle) (path : CStr) : Bool × ZkHandle :=
  (answers zh.calls path, { zh with calls := zh.calls + 1 })

def createNode (zh : ZkHandle) (path : CStr) : Int × ZkHandle :=
  if answers zh.calls path then (0, { zh with nodes := zh.nodes ++ [path], calls := zh.calls + 1 })
  else (-1, { zh with calls := zh.calls + 1 })

/-- One turn of `make_sure_node_path`: the result of a creation is not looked at. -/
def makeSureNode (zh : ZkHandle) (path : CStr) : ZkHandle :=
  let (exists', zh) := existNode answers zh path
  if exists' then zh else (createNode answers zh path).2

/-- The loop of `make_sure_node_path` from position `i`; `strPtr` is where the current
    component starts. -/
def makeSureLoop (path : CStr) (strPtr i : Nat) : Bytes → ZkHandle → ZkHandle
  | [], zh => zh
  | c :: rest, zh =>
    if c = slash then
      if i = strPtr then zh
      else makeSureLoop path (i + 1) (i + 1) rest (makeSureNode answers zh (path.take i))
    else makeSureLoop path strPtr (i + 1) rest zh

def makeSureNodePath (zh : ZkHandle) (path : CStr) : Int × ZkHandle :=
  if path.length ≤ 1 then (-1, zh) else (0, makeSureLoop answers path 1 1 (path.chars.drop 1) zh)

/-- The index of the last `c`. -/
def strrchr (s : CStr) (c : UInt8) : Option Nat :=
  if c ∈ s.chars then some (s.length - 1 - (s.chars.rtakeWhile (· != c)).length) else none

def makeSureEnode (zh : ZkHandle) (path : CStr) : Int × ZkHandle :=
  match strrchr path slash with
  | none => (-1, zh)
  | some 0 => (-1, zh)
  | some delim =>
    let (_, zh) := makeSureNodePath answers zh (path.take (delim + 1))
    createNode answers zh path

/-! ## Registration -/

/-- `/%s/providers/%s` -/
def nodePathText (groupName encoded : CStr) : CStr :=
  .lit "/" ++ groupName ++ .lit "/providers/" ++ encoded

def nodePath (groupName encoded : CStr) : CharBuf maxNodePathLen := snprintf maxNodePathLen (nodePathText groupName encoded)

/-- `services` is what the services file holds; `none` in the result is a crash. The
    length goes to `url_encode` as an `int`. -/
def registerServices (parse : Parse) (zh : ZkHandle) (services : Option CStr) : Option (Int × ZkHandle) :=
  match services with
  | none => some (-1, zh)
  | some servicesInfo =>
    match parse servicesInfo with
    | none => some (-1, zh)
    | some root => do
      let groupName ← (← getObjectItem root lGroup) |> valuestring
      let encoded ← UrlCodec.urlEncode servicesInfo.chars (toInt servicesInfo.length)
      let path := nodePath groupName (.ofBytes encoded)
      let (ret, zh) := makeSureEnode answers zh path.str
      if ret = 0 then some (0, { zh with nodeValue := path.str }) else some (-1, zh)

/-- The name ZooKeeper reports for the child with this path. -/
def childName (path : CStr) : CStr :=
  ⟨path.chars.rtakeWhile (· != slash), fun h => path.noNul (List.rtakeWhile_suffix _ _ |>.subset h)⟩

/-- What the agent decodes from the newest node's name is the definition. -/
def Received (zh : ZkHandle) (servicesInfo : CStr) : Prop :=
  ∃ path, zh.nodes.getLast? = some path ∧ UrlCodec.urlDecode (childName path).chars = servicesInfo.chars

/-- The path fits its buffer, or it is two bytes too long and these are the digits of a
    last `%` or end the encoding of a last `%2`. -/
def Transportable (groupName servicesInfo : CStr) : Prop :=
  let path := nodePathText groupName (UrlCodec.encodeStr servicesInfo)
  path.length < maxNodePathLen ∨
    path.length = maxNodePathLen + 1 ∧ ∃ a, servicesInfo.chars = a ++ [37] ∨ servicesInfo.chars = a ++ [37, 50]

/-- A string in a parsed text is shorter than the text, which has its quotes. -/
def QuotesStrings (parse : Parse) : Prop :=
  ∀ content root item s, parse content = some root → getObjectItem root lGroup = some item → valuestring item = some s →
    s.length < content.length

/-! ## The newest node -/

variable {answers}

theorem makeSureEnode_ok {zh zh' : ZkHandle} {path : CStr} (h : makeSureEnode answers zh path = (0, zh')) :
    zh'.nodes.getLast? = some path := by
  unfold makeSureEnode at h
  split at h
  · cases (Prod.mk.inj h).1
  · cases (Prod.mk.inj h).1
  · simp only [createNode] at h
    split at h
    · obtain ⟨-, rfl⟩ := Prod.mk.inj h; simp
    · cases (Prod.mk.inj h).1

theorem registerServices_ok {parse : Parse} {zh zh' : ZkHandle} {text : CStr} {root item : Item} {g : CStr}
    (hp : parse text = some root) (hi : getObjectItem root lGroup = some item) (hg : valuestring item = some g)
    (h : registerServices answers parse zh (some text) = some (0, zh')) :
    ∃ encoded, UrlCodec.urlEncode text.chars (toInt text.length) = some encoded ∧
      zh'.nodes.getLast? = some (nodePath g (.ofBytes encoded)).str := by
  simp only [registerServices, hp, hi, Option.bind_eq_bind, Option.bind_some, hg, Option.bind_eq_some_iff] at h
  obtain ⟨encoded, he, h⟩ := h
  refine ⟨encoded, he, ?_⟩
  cases hm : makeSureEnode answers zh (nodePath g (.ofBytes encoded)).str with
  | mk ret zh₁ =>
    rw [hm] at h
    split at h
    · rename_i hret
      obtain ⟨-, rfl⟩ := Prod.mk.inj (Option.some.inj h)
      obtain rfl : ret = 0 := hret
      have hlast := makeSureEnode_ok hm
      exact hlast
    · cases (Prod.mk.inj (Option.some.inj h)).1

/-! ## Its name -/

theorem length_nodePathText (g e : CStr) : (nodePathText g e).length = 12 + g.length + e.length := by
  have h1 : (CStr.lit "/").length = 1 := by decide
  have h2 : (CStr.lit "/providers/").length = 11 := by decide
  simp only [nodePathText, CStr.length_append, h1, h2]; omega

theorem chars_nodePathText (g e : CStr) :
    (nodePathText g e).chars = (slash :: g.chars ++ (CStr.lit "/providers").chars) ++ slash :: e.chars := by
  have h1 : (CStr.lit "/").chars = [slash] := by decide
  have h2 : (CStr.lit "/providers/").chars = (CStr.lit "/providers").chars ++ [slash] := by decide
  simp only [nodePathText, CStr.chars_append, h1, h2, List.append_assoc, List.cons_append, List.nil_append]

theorem childName_append {path : CStr} {x y : Bytes} (h : path.chars = x ++ slash :: y) (hy : slash ∉ y) :
    (childName path).chars = y := by
  have hrev : (x ++ slash :: y).reverse = y.reverse ++ slash :: x.reverse := by simp
  have hall : ∀ b ∈ y.reverse, (b != slash) = true := fun b hb => by
    have : b ≠ slash := fun e => hy (e ▸ List.mem_reverse.mp hb)
    simpa using this
  show path.chars.rtakeWhile (· != slash) = y
  rw [h, List.rtakeWhile, hrev, List.takeWhile_append_of_pos hall]
  simp

/-- What follows any separator of the path is at least as long as the name. -/
theorem length_childName {path : CStr} {x y : Bytes} (h : path.chars = x ++ slash :: y) :
    (childName path).length ≤ y.length := by
  have hs : (childName path).chars <:+ path.chars := List.rtakeWhile_suffix _ _
  by_contra hc
  -- a longer suffix would hold the separator
  have hy : slash :: y <:+ (childName path).chars := by
    refine List.suffix_of_suffix_length_le (h ▸ List.suffix_append x (slash :: y)) hs ?_
    simp only [CStr.length] at hc
    simp only [List.length_cons]; omega
  have hm : slash ∈ path.chars.rtakeWhile (· != slash) := hy.subset List.mem_cons_self
  simpa using List.mem_rtakeWhile_imp hm

theorem length_childName_le (path : CStr) : (childName path).length ≤ path.length :=
  (List.rtakeWhile_suffix _ _).length_le

theorem slash_not_mem_encode (s : CStr) : slash ∉ (UrlCodec.encodeStr s).chars :=
  fun h => (UrlCodec.encodeBytes_clean s.noNul h).1 rfl

/-! ## Short and long definitions -/

variable {g text : CStr}

/-- A definition of moderate size is encoded whole. -/
theorem urlEncode_text (h : text.length < 2 ^ 20) :
    UrlCodec.urlEncode text.chars (toInt text.length) = some (UrlCodec.encodeStr text).chars := by
  rw [UrlCodec.urlEncode, toInt_small (by omega), if_pos (by omega), Int.toNat_natCast, CStr.length, List.take_length]
  rfl

/-- The group leaves room for a name: the path is cut inside it, if at all. -/
theorem chars_nodePath (e : CStr) (hroom : 12 + g.length < maxNodePathLen) : (nodePath g e).str.chars =
    (slash :: g.chars ++ (CStr.lit "/providers").chars) ++
      slash :: e.chars.take (maxNodePathLen - 1 - (12 + g.length)) := by
  have hl : (slash :: g.chars ++ (CStr.lit "/providers").chars).length = 11 + g.length := by
    have : (CStr.lit "/providers").chars.length = 10 := by decide
    simp only [List.length_append, List.length_cons, CStr.length, this]; omega
  show ((nodePathText g e).take (maxNodePathLen - 1)).chars = _
  rw [CStr.chars_take, chars_nodePathText, List.take_append, List.take_of_length_le (by omega), hl]
  congr 1
  have : maxNodePathLen - 1 - (11 + g.length) = maxNodePathLen - 1 - (12 + g.length) + 1 := by omega
  rw [this, List.take_succ_cons]

/-- So the name is the start of the encoding. -/
theorem childName_encoded (hroom : 12 + g.length < maxNodePathLen) :
    (childName (nodePath g (UrlCodec.encodeStr text)).str).chars =
      (UrlCodec.encodeStr text).chars.take (maxNodePathLen - 1 - (12 + g.length)) :=
  childName_append (chars_nodePath _ hroom) fun h => slash_not_mem_encode text (List.mem_of_mem_take h)

/-- A group that leaves none: the name is shorter than the group. -/
theorem childName_group (e : CStr) (hroom : maxNodePathLen ≤ 12 + g.length) :
    (childName (nodePath g e).str).length ≤ g.length := by
  have hchars : (nodePath g e).str.chars =
      (slash :: (g.chars ++ (slash :: (CStr.lit "providers").chars ++ slash :: e.chars))).take (maxNodePathLen - 1) := by
    have h1 : (CStr.lit "/providers").chars = slash :: (CStr.lit "providers").chars := by decide
    show ((nodePathText g e).take (maxNodePathLen - 1)).chars = _
    rw [CStr.chars_take, chars_nodePathText, h1]
    simp only [List.cons_append, List.append_assoc]
  by_cases hshort : maxNodePathLen - 1 ≤ g.length + 1
  · -- cut inside the group: only the first separator is sure to be there
    have hcut : maxNodePathLen - 1 = (maxNodePathLen - 2) + 1 := by decide
    rw [hcut, List.take_succ_cons] at hchars
    have := length_childName (x := []) hchars
    rw [List.length_take] at this
    omega
  · -- cut after it: the name starts after the group at the earliest
    have hlen : (slash :: g.chars).length = g.length + 1 := rfl
    have hcut : maxNodePathLen - 1 = (slash :: g.chars).length + (maxNodePathLen - 1 - (g.length + 2) + 1) := by omega
    rw [← List.cons_append, hcut, List.take_length_add_append] at hchars
    have hcut' : (nodePath g e).str.chars = (slash :: g.chars) ++ slash ::
        ((CStr.lit "providers").chars ++ slash :: e.chars).take (maxNodePathLen - 1 - (g.length + 2)) := hchars
    have := length_childName hcut'
    rw [List.length_take] at this
    have := maxNodePathLen_eq
    omega

theorem received_iff {zh : ZkHandle} {path : CStr} (hn : zh.nodes.getLast? = some path) :
    Received zh text ↔ UrlCodec.urlDecode (childName path).chars = text.chars := by
  constructor
  · intro ⟨p, hp, hd⟩
    obtain rfl := Option.some.inj (hn.symm.trans hp)
    exact hd
  · intro hd; exact ⟨path, hn, hd⟩

theorem Received.length_le {zh : ZkHandle} {path : CStr} (hn : zh.nodes.getLast? = some path) (h : Received zh text) :
    text.length ≤ (childName path).length := by
  have hd := UrlCodec.length_urlDecode (childName path).chars
  rwa [(received_iff hn).mp h] at hd

theorem Transportable.length_le (h : Transportable g text) : g.length + text.length ≤ maxNodePathLen := by
  have henc : text.length ≤ (UrlCodec.encodeStr text).length := UrlCodec.length_encodeBytes text.chars
  have hpath := length_nodePathText g (UrlCodec.encodeStr text)
  rcases h with h | ⟨h, -⟩ <;> omega

/-- With room for a name both sides speak of the same cut. -/
theorem received_iff_transportable {zh : ZkHandle} (hroom : 12 + g.length < maxNodePathLen)
    (hn : zh.nodes.getLast? = some (nodePath g (UrlCodec.encodeStr text)).str) :
    Received zh text ↔ Transportable g text := by
  rw [received_iff hn, childName_encoded hroom]
  have hpath := length_nodePathText g (UrlCodec.encodeStr text)
  refine UrlCodec.urlDecode_take.trans (or_congr ?_ (and_congr_left fun _ => ?_))
  · show (UrlCodec.encodeStr text).length ≤ _ ↔ _
    omega
  · show (UrlCodec.encodeStr text).length = _ ↔ _
    omega

/-- Registered, a definition is received as it was exactly under this condition. -/
theorem register_received_iff {parse : Parse} (hq : QuotesStrings parse) {zh zh' : ZkHandle} {root item : Item}
    (hp : parse text = some root) (hi : getObjectItem root lGroup = some item) (hg : valuestring item = some g)
    (hret : registerServices answers parse zh (some text) = some (0, zh')) :
    Received zh' text ↔ Transportable g text := by
  have hgl := hq text root item g hp hi hg
  obtain ⟨encoded, he, hn⟩ := registerServices_ok hp hi hg hret
  have hfit := (nodePath g (.ofBytes encoded)).fits
  have hchild := length_childName_le (nodePath g (.ofBytes encoded)).str
  by_cases hbig : 2 ^ 20 ≤ text.length
  · -- no path of this buffer can carry such a text
    refine iff_of_false (fun h => ?_) fun h => ?_
    · have := h.length_le hn
      have := maxNodePathLen_eq
      omega
    · have := h.length_le
      have := maxNodePathLen_eq
      omega
  · rw [urlEncode_text (by omega), Option.some.injEq] at he
    rw [← he, CStr.ofBytes_chars] at hn
    by_cases hroom : 12 + g.length < maxNodePathLen
    · exact received_iff_transportable hroom hn
    · -- the name is part of the group, which is shorter than the text
      refine iff_of_false (fun h => ?_) fun h => ?_
      · have := h.length_le hn
        have := childName_group (UrlCodec.encodeStr text) (g := g) (by omega)
        omega
      · have := h.length_le
        have := maxNodePathLen_eq
        omega

/-- A small definition, and the tree it parses to. -/
def smallText : CStr := .lit "\x7b\"group\":\"g\"\x7d"

def groupItem : Item := .object [(lGroup, .string (.lit "g"))]

def parseOne (text : CStr) : Parse := fun content => if content = text then some groupItem else none

theorem quotes_parseOne {text : CStr} (h : 1 < text.length) : QuotesStrings (parseOne text) := by
  intro content root item s hp hi hs
  simp only [parseOne, Option.ite_none_right_eq_some, Option.some.injEq] at hp
  obtain ⟨rfl, rfl⟩ := hp
  obtain rfl : .string (.lit "g") = item := Option.some.inj hi
  obtain rfl : .lit "g" = s := Option.some.inj hs
  exact h

theorem register_received_small : ∃ zh', registerServices (fun _ _ => true) (parseOne smallText) .init (some smallText) =
    some (0, zh') ∧ (Received zh' smallText ↔ Transportable (.lit "g") smallText) := by
  have hret : registerServices (fun _ _ => true) (parseOne smallText) .init (some smallText) = some (0,
      ⟨[.lit "/g/providers/%7B%22group%22%3A%22g%22%7D"], 3, .lit "/g/providers/%7B%22group%22%3A%22g%22%7D"⟩) := by
    decide
  exact ⟨_, hret, register_received_iff (quotes_parseOne (by decide)) (by rfl) (by rfl) (by rfl) hret⟩

/-! ### A definition that does not survive -/

/-- With every answer ZOK a path of two components is created. -/
theorem makeSureEnode_created {path : CStr} {x y : Bytes} (h : path.chars = x ++ slash :: y) (hx : x ≠ [])
    (zh : ZkHandle) : (makeSureEnode (fun _ _ => true) zh path).1 = 0 := by
  have hm : slash ∈ path.chars := by rw [h]; simp
  have hlen : path.length = x.length + y.length + 1 := by
    rw [CStr.length, h, List.length_append, List.length_cons]; omega
  have hpos : 0 < x.length := List.length_pos_iff.mpr hx
  have hchild : (path.chars.rtakeWhile (· != slash)).length ≤ y.length := length_childName h
  simp only [makeSureEnode, strrchr, if_pos hm]
  split
  · rename_i e; cases e
  · rename_i e
    have := Option.some.inj e
    omega
  · rfl

theorem registerServices_created {parse : Parse} {root item : Item} (hp : parse text = some root)
    (hi : getObjectItem root lGroup = some item) (hg : valuestring item = some g) (hsmall : text.length < 2 ^ 20)
    (hroom : 12 + g.length < maxNodePathLen) (zh : ZkHandle) :
    ∃ zh', registerServices (fun _ _ => true) parse zh (some text) = some (0, zh') := by
  have hcreated := makeSureEnode_created (chars_nodePath (UrlCodec.encodeStr text) hroom) (by simp) zh
  simp only [registerServices, hp, hi, Option.bind_eq_bind, Option.bind_some, hg, urlEncode_text hsmall,
    CStr.ofBytes_chars, hcreated, if_pos]
  exact ⟨_, rfl⟩

def spaces (n : Nat) : CStr := ⟨List.replicate n 32, by simp⟩

/-- The small definition with 11000 spaces after it, which `cJSON_Parse` skips. -/
def paddedText : CStr := smallText ++ spaces 11000

theorem length_paddedText : paddedText.length = 11013 := by
  have h : smallText.length = 13 := by decide
  rw [paddedText, CStr.length_append, h, CStr.length, spaces, List.length_replicate]

theorem padded_definition_cut :
    ∃ zh', registerServices (fun _ _ => true) (parseOne paddedText) .init (some paddedText) = some (0, zh') ∧
      ¬Received zh' paddedText := by
  have hlen := length_paddedText
  have hp : parseOne paddedText paddedText = some groupItem := if_pos rfl
  have hi : getObjectItem groupItem lGroup = some (.string (.lit "g")) := rfl
  obtain ⟨zh', hret⟩ := registerServices_created hp hi rfl (by omega) (by decide) .init
  refine ⟨zh', hret, fun h => ?_⟩
  obtain ⟨encoded, -, hn⟩ := registerServices_ok hp hi rfl hret
  have h1 := h.length_le hn
  have h2 := length_childName_le (nodePath (.lit "g") (.ofBytes encoded)).str
  have h3 := (nodePath (.lit "g") (.ofBytes encoded)).fits
  have := maxNodePathLen_eq
  omega

end Ddm.Provider
