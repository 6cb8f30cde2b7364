/-
  Ddm.Invoke.SoaServer — `onReceive` of the demo provider (`SoaServer.php`) at the other
  end of the agent's connections.

  Swoole cuts the stream into packages by the length at offset 8; that it gives back whole
  frames of at most `package_max_length` bytes is a hypothesis. PHP's `crc32` is the
  bitwise one; what `msgpack_unpack` makes of a body and `msgpack_pack` of the response
  are parameters. A body that unpacks to a string or an object ends the handler, for these
  have no offset 'service'.

  Proved: the provider closes on exactly the packages the agent's `crc32_check` would
  reject, and for the rest, if their bodies unpack to something else, the agent's
  `receive_message` takes its answers off the socket one for each request, in order, as
  successes of these requests (`provider_answers`).
-/

import Ddm.Invoke.Model
import Ddm.Wire.Checksum

namespace Ddm.Invoke

open Ddm.Lib Ddm.Wire

/-! ## The provider -/

/-- PHP's `crc32`. -/
def phpCrc32 (data : Bytes) : Nat := (crc32Bitwise data).toNat

/-- A value of PHP, as far as its offsets are concerned. -/
inductive PhpValue where
  | null
  | bool (b : Bool)
  | number (n : Int)
  | string (s : Bytes)
  | array (entries : List (Bytes × PhpValue))
  | object

/-- `$value[key]` with a string for a key: NULL where there is nothing, and an error on
    strings and objects. -/
def PhpValue.offset (value : PhpValue) (key : CStr) : Option PhpValue :=
  match value with
  | .array entries => some ((entries.lookup key.chars).getD .null)
  | .string _ | .object => none
  | .null | .bool _ | .number _ => some .null

/-- Neither a string nor an object. -/
def PhpValue.indexable : PhpValue → Bool
  | .string _ | .object => false
  | _ => true

/-- `$service_name`, `$service_version` and `$request_params`. -/
def requestOf (req : PhpValue) : Option (PhpValue × PhpValue × PhpValue) := do
  let serviceName ← req.offset (.lit "service")
  let serviceVersion ← req.offset (.lit "version")
  let requestParams ← req.offset (.lit "request")
  return (serviceName, serviceVersion, requestParams)

theorem requestOf_isSome {req : PhpValue} (h : req.indexable = true) : (requestOf req).isSome = true := by
  cases req with
  | string | object => cases h
  | null | bool | number | array => rfl

/-- How `onReceive` ends. -/
inductive Received where
  | closed
  /-- An error that nobody catches. -/
  | died
  | answered (response : Bytes)

/-- `resp` is the packed response. -/
def onReceive (unpack : Bytes → PhpValue) (resp data : Bytes) : Received :=
  let crc := ofBe32 data
  let identifier := ofBe32 (data.drop 4)
  let type := data.getD 12 0
  if phpCrc32 (data.drop 4) ≠ crc then .closed
  else
    match requestOf (unpack (data.drop 16)) with
    | none => .died
    | some _ =>
      let response := be32 identifier ++ (be32 resp.length ++ ([type ||| (1 : UInt8) <<< 7] ++ ([0, 0, 0] ++ resp)))
      .answered (be32 (phpCrc32 response) ++ response)

abbrev packageMaxLength : Nat := 81920

/-- `package_body_offset` and what `package_length_offset` points to. -/
def IsPackage (data : Bytes) : Prop :=
  sizeofMessageHeader ≤ data.length ∧ data.length = 16 + ofBe32 (data.drop 8) ∧ data.length ≤ packageMaxLength

/-- However packages are cut on the way, they are handed over whole. -/
def HandsOver (swoole : List Bytes → List Bytes) : Prop :=
  ∀ packages chunks, (∀ p ∈ packages, IsPackage p) → chunks.flatten = packages.flatten → swoole chunks = packages

/-! ## One request -/

theorem crc32Step_php (data : Bytes) :
    (data.foldl crc32Step 0xFFFFFFFF ^^^ 0xFFFFFFFF).toNat = phpCrc32 data := by
  rw [← UInt32.toNat_toBitVec, UInt32.toBitVec_xor, foldl_crc32Step]
  rfl

variable {unpack : Bytes → PhpValue}

/-- The two checks agree. -/
theorem onReceive_closed_iff {header body : Bytes} (resp : Bytes) (hh : header.length = sizeofMessageHeader)
    (hlen : (header ++ body).length < 2 ^ 31) :
    onReceive unpack resp (header ++ body) = .closed ↔ crc32Check header body = some false := by
  have hcrc : ofBe32 (header ++ body) = ofBe32 header := by
    rw [ofBe32_take, List.take_append_of_le_length (by rw [hh]; decide), ← ofBe32_take]
  rw [crc32Check_eq hh hlen, crc32Step_php, onReceive, hcrc]
  by_cases heq : phpCrc32 ((header ++ body).drop 4) = ofBe32 header
  · rw [if_neg (not_not.mpr heq), heq, decide_eq_true rfl]
    refine iff_of_false (fun h => ?_) (fun h => ?_)
    · split at h <;> cases h
    · exact absurd (Option.some.inj h).symm Bool.false_ne_true
  · rw [if_pos heq, decide_eq_false (Ne.symm heq)]
    exact ⟨fun _ => rfl, fun _ => rfl⟩

theorem phpCrc32_lt (data : Bytes) : phpCrc32 data < 2 ^ 32 := BitVec.isLt _

/-- What a frame's checksum is over. -/
def summed (identifier : Nat) (type : UInt8) (body : Bytes) : Bytes :=
  be32 identifier ++ (be32 body.length ++ ([type] ++ ([0, 0, 0] ++ body)))

theorem length_summed (identifier : Nat) (type : UInt8) (body : Bytes) :
    (summed identifier type body).length = sizeofMessageHeader + body.length - 4 := by
  have hsize : sizeofMessageHeader = 16 := rfl
  simp only [summed, List.length_append, length_be32, List.length_cons, List.length_nil]
  omega

/-- The frame `send_message` makes of a body. -/
theorem messageBuf_php (identifier : UInt32) (type : UInt8) {body : Bytes} (h : BodyFits body) :
    messageBuf identifier type body =
      some (be32 (phpCrc32 (summed identifier.toNat type body)) ++ summed identifier.toNat type body) := by
  have hzeroed : (messageHeader 0 identifier.toNat body.length type ++ body).drop 4 =
      summed identifier.toNat type body := rfl
  have hlen := length_summed identifier.toNat type body
  have hsize : sizeofMessageHeader = 16 := rfl
  unfold BodyFits at h
  have hcrc := crc32_whole (show (summed identifier.toNat type body).length < 2 ^ 31 by omega)
  rw [hlen] at hcrc
  simp only [messageBuf, hzeroed, hcrc, Option.bind_eq_bind, Option.bind_some]
  rw [crc32Step_php]
  rfl

/-- The answer to a frame is the agent's own frame of the response. -/
theorem onReceive_frame {m : Message} {frame resp : Bytes} (hm : m.frame = some frame) (hb : BodyFits m.body)
    (hi : (unpack m.body).indexable = true) (hresp : BodyFits resp) :
    ∃ answer, onReceive unpack resp frame = .answered answer ∧
      messageBuf m.identifier (getRespType m.type) resp = some answer := by
  obtain rfl := Option.some.inj ((messageBuf_php m.identifier m.type hb).symm.trans hm)
  refine ⟨_, ?_, messageBuf_php m.identifier (getRespType m.type) hresp⟩
  have hdrop (n : Nat) : (be32 n ++ summed m.identifier.toNat m.type m.body).drop 4 =
      summed m.identifier.toNat m.type m.body := rfl
  have hidentifier : ofBe32 (summed m.identifier.toNat m.type m.body) = m.identifier.toNat := by
    rw [summed, ofBe32_be32, Nat.mod_eq_of_lt m.identifier.toNat_lt]
  have htype : m.type ||| (1 : UInt8) <<< 7 = getRespType m.type := UInt8.or_comm ..
  have hbody (n : Nat) : (be32 n ++ summed m.identifier.toNat m.type m.body).drop 16 = m.body := rfl
  obtain ⟨request, hrequest⟩ := Option.isSome_iff_exists.mp (requestOf_isSome hi)
  unfold onReceive
  simp only [hdrop, hidentifier, hbody, hrequest, ofBe32_be32, Nat.mod_eq_of_lt (phpCrc32_lt _)]
  rw [if_neg (not_not.mpr rfl)]
  show Received.answered (be32 (phpCrc32 (summed m.identifier.toNat (m.type ||| (1 : UInt8) <<< 7) resp)) ++
    summed m.identifier.toNat (m.type ||| (1 : UInt8) <<< 7) resp) = _
  rw [htype]

/-- A frame is a package. -/
theorem isPackage_frame {m : Message} {frame : Bytes} (hm : m.frame = some frame)
    (hb : sizeofMessageHeader + m.body.length ≤ packageMaxLength) : IsPackage frame := by
  have hsize : sizeofMessageHeader = 16 := rfl
  have hmax : packageMaxLength = 81920 := rfl
  have hfits : BodyFits m.body := by
    unfold BodyFits
    omega
  obtain rfl := Option.some.inj ((messageBuf_php m.identifier m.type hfits).symm.trans hm)
  have hlen : (be32 (phpCrc32 (summed m.identifier.toNat m.type m.body)) ++
      summed m.identifier.toNat m.type m.body).length = 16 + m.body.length := by
    rw [List.length_append, length_be32, length_summed]
    omega
  have hlength : ofBe32 ((be32 (phpCrc32 (summed m.identifier.toNat m.type m.body)) ++
      summed m.identifier.toNat m.type m.body).drop 8) = m.body.length := by
    have hdrop : (be32 (phpCrc32 (summed m.identifier.toNat m.type m.body)) ++
        summed m.identifier.toNat m.type m.body).drop 8 =
        be32 m.body.length ++ ([m.type] ++ ([0, 0, 0] ++ m.body)) := rfl
    rw [hdrop, ofBe32_be32, Nat.mod_eq_of_lt (by omega)]
  refine ⟨by omega, ?_, by omega⟩
  rw [hlength, hlen]

theorem isPackage_mapM {ms : List Message} : ∀ {frames : List Bytes}, ms.mapM Message.frame = some frames →
    (∀ m ∈ ms, sizeofMessageHeader + m.body.length ≤ packageMaxLength) → ∀ p ∈ frames, IsPackage p := by
  induction ms with
  | nil =>
    intro frames h _ p hp
    obtain rfl := Option.some.inj h
    cases hp
  | cons m ms ih =>
    intro frames h hfit p hp
    simp only [List.mapM_cons, Option.bind_eq_bind, Option.bind_eq_some_iff, Option.pure_def, Option.some.injEq] at h
    obtain ⟨frame, hframe, rest, hrest, rfl⟩ := h
    rcases List.mem_cons.mp hp with rfl | hp
    · exact isPackage_frame hframe (hfit m List.mem_cons_self)
    · exact ih hrest (fun x hx => hfit x (List.mem_cons_of_mem _ hx)) p hp

/-! ## A connection -/

/-- What the agent reads of the answer to `m`. -/
def answerTo (resp : Bytes) (m : Message) : Message := ⟨m.identifier, getRespType m.type, resp⟩

theorem succeeds_answer (resp : Bytes) {m : Message} (h : m.type = bizReqMsgType) :
    succeeds m.identifier ⟨0, some (m.identifier, (answerTo resp m).type), resp⟩ = true := by
  have htype : (answerTo resp m).type = bizResMsgType := by
    rw [answerTo, h]
    rfl
  rw [succeeds, htype]
  simp

/-- The answers of the provider, and what the agent receives of them. -/
theorem answers_deliver {resp : Bytes} (hresp : BodyFits resp) (ms : List Message) (hfit : ∀ m ∈ ms, BodyFits m.body)
    (hi : ∀ m ∈ ms, (unpack m.body).indexable = true) :
    ∃ (frames answers : List Bytes), ms.mapM Message.frame = some frames ∧
      frames.map (onReceive unpack resp) = answers.map .answered ∧
      ∀ s, Readable (2 * ms.length) s.selects → Flowing s.recvs → stream s.recvs = answers.flatten →
        Delivers (ms.map (answerTo resp)) s := by
  induction ms with
  | nil => exact ⟨[], [], rfl, rfl, fun _ _ _ _ => trivial⟩
  | cons m ms ih =>
    obtain ⟨frames, answers, hframes, hanswers, hd⟩ :=
      ih (fun x hx => hfit x (List.mem_cons_of_mem _ hx)) fun x hx => hi x (List.mem_cons_of_mem _ hx)
    have hb := hfit m List.mem_cons_self
    obtain ⟨frame, hframe⟩ : ∃ frame, m.frame = some frame := ⟨_, messageBuf_php m.identifier m.type hb⟩
    obtain ⟨answer, hanswer, hbuf⟩ := onReceive_frame hframe hb (hi m List.mem_cons_self) hresp
    refine ⟨frame :: frames, answer :: answers, ?_, ?_, fun s hsel hf hst => ?_⟩
    · simp only [List.mapM_cons, hframe, hframes]
      rfl
    · rw [List.map_cons, List.map_cons, hanswer, hanswers]
    · obtain ⟨s', hr, hs', hsel', hf'⟩ := receiveMessage_frame hresp hbuf hsel hf hst
      exact ⟨answer, s', hbuf, hr, by rw [hst, hs', List.flatten_cons], hd s' hsel' hf' hs'⟩

/-- Whatever pieces the requests and the answers come in, if their bodies unpack to what
    has offsets the agent receives the answer to each request in its turn, and takes that
    to a service's request for a success. -/
theorem provider_answers {swoole : List Bytes → List Bytes} (hswoole : HandsOver swoole) {resp : Bytes}
    (hresp : BodyFits resp) (ms : List Message)
    (hfit : ∀ m ∈ ms, sizeofMessageHeader + m.body.length ≤ packageMaxLength)
    (hi : ∀ m ∈ ms, (unpack m.body).indexable = true) :
    ∃ frames, ms.mapM Message.frame = some frames ∧ ∀ chunks, chunks.flatten = frames.flatten →
      ∃ answers : List Bytes, (swoole chunks).map (onReceive unpack resp) = answers.map .answered ∧
        (∀ s, Readable (2 * ms.length) s.selects → Flowing s.recvs → stream s.recvs = answers.flatten →
          Delivers (ms.map (answerTo resp)) s) ∧
        ∀ m ∈ ms, m.type = bizReqMsgType →
          succeeds m.identifier ⟨0, some ((answerTo resp m).identifier, (answerTo resp m).type), resp⟩ = true := by
  have hbody : ∀ m ∈ ms, BodyFits m.body := by
    intro m hm
    have hmax : packageMaxLength = 81920 := rfl
    have := hfit m hm
    unfold BodyFits
    omega
  obtain ⟨frames, answers, hframes, hanswers, hd⟩ := answers_deliver hresp ms hbody hi
  refine ⟨frames, hframes, fun chunks hchunks => ⟨answers, ?_, hd, fun m _ ht => succeeds_answer resp ht⟩⟩
  rw [hswoole frames chunks (isPackage_mapM hframes hfit) hchunks]
  exact hanswers

/-! ## Packages by their length -/

def splitPackages : Nat → Bytes → List Bytes
  | 0, _ => []
  | fuel + 1, data =>
    if data = [] then []
    else data.take (16 + ofBe32 (data.drop 8)) :: splitPackages fuel (data.drop (16 + ofBe32 (data.drop 8)))

theorem splitPackages_flatten (packages : List Bytes) : ∀ fuel, packages.flatten.length ≤ fuel →
    (∀ p ∈ packages, IsPackage p) → splitPackages fuel packages.flatten = packages := by
  induction packages with
  | nil => intro fuel _ _; cases fuel <;> rfl
  | cons p packages ih =>
    intro fuel hfuel hp
    obtain ⟨hmin, hlen, -⟩ := hp p List.mem_cons_self
    have hsize : sizeofMessageHeader = 16 := rfl
    rw [List.flatten_cons, List.length_append] at hfuel
    have hhead : ofBe32 ((p ++ packages.flatten).drop 8) = ofBe32 (p.drop 8) := by
      rw [List.drop_append_of_le_length (by omega), ofBe32_take, List.take_append_of_le_length, ← ofBe32_take]
      rw [List.length_drop]
      omega
    have hne : p ++ packages.flatten ≠ [] := List.ne_nil_of_length_pos (by rw [List.length_append]; omega)
    obtain ⟨fuel, rfl⟩ : ∃ n, fuel = n + 1 := ⟨fuel - 1, by omega⟩
    rw [List.flatten_cons, splitPackages, if_neg hne, hhead, ← hlen, List.take_left, List.drop_left,
      ih fuel (by omega) fun q hq => hp q (List.mem_cons_of_mem _ hq)]

theorem handsOver_split : HandsOver fun chunks => splitPackages chunks.flatten.length chunks.flatten := by
  intro packages chunks hp he
  dsimp only
  rw [he]
  exact splitPackages_flatten packages _ (Nat.le_refl _) hp

/-- The map with 's' for 'service'. -/
def sampleBody : Bytes := [129, 167, 115, 101, 114, 118, 105, 99, 101, 161, 115]

def sampleUnpack (body : Bytes) : PhpValue :=
  if body = sampleBody then .array [((CStr.lit "service").chars, .string [115])]
  else if body = [] then .null
  else .bool false

/-- A request and a heartbeat. -/
def sampleRequests : List Message := [⟨7, bizReqMsgType, sampleBody⟩, ⟨8, hbReqMsgType, []⟩]

theorem provider_answers_sample : ∃ frames, sampleRequests.mapM Message.frame = some frames ∧
    ∃ answers : List Bytes,
      (splitPackages frames.flatten.length frames.flatten).map (onReceive sampleUnpack [161, 120]) =
        answers.map .answered ∧
      ∀ s, Readable 4 s.selects → Flowing s.recvs → stream s.recvs = answers.flatten →
        Delivers (sampleRequests.map (answerTo [161, 120])) s := by
  have hresp : BodyFits [161, 120] := by unfold BodyFits; decide
  obtain ⟨frames, hframes, hall⟩ := provider_answers handsOver_split hresp sampleRequests (by decide)
    (show ∀ m ∈ sampleRequests, (sampleUnpack m.body).indexable = true by decide)
  obtain ⟨answers, hanswers, hd, -⟩ := hall frames rfl
  exact ⟨frames, hframes, answers, hanswers, hd⟩

end Ddm.Invoke
