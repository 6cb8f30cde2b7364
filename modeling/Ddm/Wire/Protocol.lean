/-
  Ddm.Wire.Protocol — `protocol.c`: the packed 16-byte header and the body,
  `send_message`'s buffer and `receive_message` over a socket's script.

  `none` is a receive that waits beyond its script, or a length the CRC's `int` counter
  cannot hold.

  Proved: a frame at the front of the stream is received as its message, however it is
  cut and interrupted (`receiveMessage_frame`), so a stream of frames is received as
  their messages, each call taking exactly its own frame (`codec_round_trip`).
-/

import Ddm.Wire.Crc32
import Ddm.Wire.Socket

namespace Ddm.Wire

open Ddm.Lib

def bizReqMsgType : UInt8 := 0x10
def hbReqMsgType : UInt8 := 0x01

def getRespType (type : UInt8) : UInt8 := (1 : UInt8) <<< 7 ||| type

abbrev sizeofMessageHeader : Nat := 16

/-- The header as it stands in memory: four words, the last one the type and padding. -/
def messageHeader (crc identifier length : Nat) (type : UInt8) : Bytes :=
  be32 crc ++ (be32 identifier ++ (be32 length ++ [type, 0, 0, 0]))

/-- What `send_message` hands to `socket_send`. -/
def messageBuf (identifier : UInt32) (type : UInt8) (buffer : Bytes) : Option Bytes := do
  let zeroed := messageHeader 0 identifier.toNat buffer.length type ++ buffer
  let crc ← crc32 (zeroed.drop 4) (sizeofMessageHeader + buffer.length - 4)
  some (messageHeader crc.toNat identifier.toNat buffer.length type ++ buffer)

def crc32Check (header body : Bytes) : Option Bool := do
  let crcValue ← crc32 ((header ++ body).drop 4) (body.length + sizeofMessageHeader - 4)
  some (ofBe32 header = crcValue.toNat)

/-- What a `receive_message` leaves its caller: the return code, `*identifier` and
    `*type` once the header is read, and the buffer, empty for NULL. -/
structure Inbound where
  ret : Int
  head : Option (UInt32 × UInt8)
  outBuf : Bytes
  deriving DecidableEq

def receiveMessage (s : Socket) : Option (Inbound × Socket) := do
  let (code, header, s) ← socketReceive s sizeofMessageHeader 3
  if code ≠ 0 then some (⟨-1, none, []⟩, s)
  else
    let head := some (UInt32.ofNat (ofBe32 (header.drop 4)), header.getD 12 0)
    let bodyLen := ofBe32 (header.drop 8)
    if bodyLen = 0 then
      let ok ← crc32Check header []
      some (⟨if ok then 0 else -1, head, []⟩, s)
    else
      let (code, bodyValue, s) ← socketReceive s bodyLen 3
      if code ≠ 0 then some (⟨-1, head, []⟩, s)
      else
        let ok ← crc32Check header bodyValue
        some (if ok then ⟨0, head, bodyValue⟩ else ⟨-1, head, []⟩, s)

/-! ## The header -/

@[simp] theorem length_messageHeader (crc identifier length : Nat) (type : UInt8) :
    (messageHeader crc identifier length type).length = sizeofMessageHeader := rfl

theorem drop_messageHeader (crc identifier length : Nat) (type : UInt8) (body : Bytes) :
    (messageHeader crc identifier length type ++ body).drop 4 =
      be32 identifier ++ (be32 length ++ [type, 0, 0, 0]) ++ body := rfl

theorem header_identifier (crc length : Nat) (identifier : UInt32) (type : UInt8) :
    UInt32.ofNat (ofBe32 ((messageHeader crc identifier.toNat length type).drop 4)) = identifier := by
  have h : ofBe32 ((messageHeader crc identifier.toNat length type).drop 4) = identifier.toNat % 2 ^ 32 :=
    ofBe32_be32 identifier.toNat (be32 length ++ [type, 0, 0, 0])
  rw [h, Nat.mod_eq_of_lt identifier.toNat_lt, UInt32.ofNat_toNat]

theorem header_length (crc identifier length : Nat) (type : UInt8) (h : length < 2 ^ 32) :
    ofBe32 ((messageHeader crc identifier length type).drop 8) = length := by
  have hr : ofBe32 ((messageHeader crc identifier length type).drop 8) = length % 2 ^ 32 :=
    ofBe32_be32 length [type, 0, 0, 0]
  rw [hr, Nat.mod_eq_of_lt h]

theorem header_crc (crc : UInt32) (identifier length : Nat) (type : UInt8) :
    ofBe32 (messageHeader crc.toNat identifier length type) = crc.toNat := by
  rw [messageHeader, ofBe32_be32, Nat.mod_eq_of_lt crc.toNat_lt]

/-! ## One frame -/

/-- The bound under which every length fits the code's integers. -/
def BodyFits (body : Bytes) : Prop := body.length < 2 ^ 31 - 16

/-- The buffer sent is a header and the body, and passes the receiver's check: both
    sides sum the bytes after the CRC field. -/
theorem messageBuf_checked (identifier : UInt32) (type : UInt8) {body : Bytes} (h : BodyFits body) :
    ∃ crc : UInt32,
      messageBuf identifier type body = some (messageHeader crc.toNat identifier.toNat body.length type ++ body) ∧
      crc32Check (messageHeader crc.toNat identifier.toNat body.length type) body = some true := by
  unfold BodyFits at h
  have hlen : ((messageHeader 0 identifier.toNat body.length type ++ body).drop 4).length =
      sizeofMessageHeader + body.length - 4 := by
    simp only [List.length_drop, List.length_append, length_messageHeader]
  have hshort : ((messageHeader 0 identifier.toNat body.length type ++ body).drop 4).length < 2 ^ 31 := by
    rw [hlen, sizeofMessageHeader]; omega
  have hcrc := crc32_whole hshort
  rw [hlen] at hcrc
  refine ⟨_, by simp only [messageBuf, hcrc, Option.bind_eq_bind, Option.bind_some]; rfl, ?_⟩
  rw [drop_messageHeader] at hcrc
  simp only [crc32Check, drop_messageHeader, Nat.add_comm body.length, hcrc, header_crc, Option.bind_eq_bind,
    Option.bind_some, decide_true]

/-- A header that announces the body and agrees with it, then the body. -/
theorem receiveMessage_header {header body rest : Bytes} {s : Socket} {n : Nat} (hh : header.length = sizeofMessageHeader)
    (hlen : ofBe32 (header.drop 8) = body.length) (hc : crc32Check header body = some true)
    (hsel : Readable (n + 2) s.selects) (hf : Flowing s.recvs) (hst : stream s.recvs = header ++ (body ++ rest)) :
    ∃ s', receiveMessage s =
        some (⟨0, some (UInt32.ofNat (ofBe32 (header.drop 4)), header.getD 12 0), body⟩, s') ∧
      stream s'.recvs = rest ∧ Readable n s'.selects ∧ Flowing s'.recvs := by
  obtain ⟨s₁, hr₁, hs₁, hsel₁, hf₁⟩ := socketReceive_stream (by decide : (0 : Int) < 3) hsel hf
    (by decide : 0 < sizeofMessageHeader) (by rw [hst, List.length_append, hh]; omega)
  rw [hst, ← hh, List.take_left] at hr₁
  rw [hst, ← hh, List.drop_left] at hs₁
  rw [hh] at hr₁
  by_cases h0 : body = []
  · -- a header alone is checked at once
    subst h0
    refine ⟨s₁, ?_, hs₁, ⟨by have := hsel₁.1; omega, hsel₁.2⟩, hf₁⟩
    simp only [receiveMessage, hr₁, hlen, hc, Option.bind_eq_bind, Option.bind_some, List.length_nil, ne_eq, not_true,
      if_false, if_true]
  · have hpos : 0 < body.length := List.length_pos_iff.mpr h0
    obtain ⟨s₂, hr₂, hs₂, hsel₂, hf₂⟩ := socketReceive_stream (by decide : (0 : Int) < 3) hsel₁ hf₁ hpos
      (by rw [hs₁, List.length_append]; omega)
    rw [hs₁, List.take_left] at hr₂
    rw [hs₁, List.drop_left] at hs₂
    refine ⟨s₂, ?_, hs₂, hsel₂, hf₂⟩
    simp only [receiveMessage, hr₁, hlen, hr₂, hc, Option.bind_eq_bind, Option.bind_some, ne_eq, not_true, if_false,
      if_true, if_neg (by omega : ¬body.length = 0)]

/-- A frame at the front of the stream is received as its message. -/
theorem receiveMessage_frame {identifier : UInt32} {type : UInt8} {body frame rest : Bytes} {s : Socket} {n : Nat}
    (hb : BodyFits body) (hm : messageBuf identifier type body = some frame) (hsel : Readable (n + 2) s.selects)
    (hf : Flowing s.recvs) (hst : stream s.recvs = frame ++ rest) :
    ∃ s', receiveMessage s = some (⟨0, some (identifier, type), body⟩, s') ∧ stream s'.recvs = rest ∧
      Readable n s'.selects ∧ Flowing s'.recvs := by
  obtain ⟨crc, he, hc⟩ := messageBuf_checked identifier type hb
  obtain rfl := Option.some.inj (he.symm.trans hm)
  have hlen := header_length crc.toNat identifier.toNat body.length type (by unfold BodyFits at hb; omega)
  obtain ⟨s', hr, hs⟩ := receiveMessage_header (length_messageHeader ..) hlen hc hsel hf
    (hst.trans (List.append_assoc ..))
  have htype : (messageHeader crc.toNat identifier.toNat body.length type).getD 12 0 = type := rfl
  rw [header_identifier, htype] at hr
  exact ⟨s', hr, hs⟩

/-! ## A stream of frames -/

structure Message where
  identifier : UInt32
  type : UInt8
  body : Bytes
  deriving DecidableEq

/-- The bytes `send_message` sends for it. -/
def Message.frame (m : Message) : Option Bytes := messageBuf m.identifier m.type m.body

/-- Successive calls return the messages in order, each taking exactly its own frame. -/
def Delivers : List Message → Socket → Prop
  | [], _ => True
  | m :: ms, s => ∃ frame s', m.frame = some frame ∧
      receiveMessage s = some (⟨0, some (m.identifier, m.type), m.body⟩, s') ∧
      stream s.recvs = frame ++ stream s'.recvs ∧ Delivers ms s'

/-- However a stream of frames is cut and interrupted, its messages are received. -/
theorem codec_round_trip (ms : List Message) (hfit : ∀ m ∈ ms, BodyFits m.body) :
    ∃ frames, ms.mapM Message.frame = some frames ∧
      ∀ s, Readable (2 * ms.length) s.selects → Flowing s.recvs → stream s.recvs = frames.flatten → Delivers ms s := by
  induction ms with
  | nil => exact ⟨[], rfl, fun _ _ _ _ => trivial⟩
  | cons m ms ih =>
    obtain ⟨frames, hfr, hd⟩ := ih fun x hx => hfit x (List.mem_cons_of_mem _ hx)
    have hb := hfit m List.mem_cons_self
    obtain ⟨crc, hm, -⟩ := messageBuf_checked m.identifier m.type hb
    refine ⟨_ :: frames, by simp only [List.mapM_cons, Message.frame, hm, hfr]; rfl, fun s hsel hf hst => ?_⟩
    obtain ⟨s', hr, hs', hsel', hf'⟩ := receiveMessage_frame hb hm hsel hf hst
    exact ⟨_, s', hm, hr, by rw [hst, hs', List.flatten_cons], hd s' hsel' hf' hs'⟩

/-- A business request and a heartbeat, and their bytes in pieces that ignore the border. -/
def sampleMessages : List Message := [⟨7, bizReqMsgType, [1, 2, 255]⟩, ⟨8, hbReqMsgType, []⟩]

def sampleSocket : Socket :=
  ⟨[.readable, .readable, .readable, .readable],
    [.eintr, .data [84, 236, 150, 125, 0], .data [0, 0, 7, 0, 0, 0, 3, 16, 0, 0, 0, 1], .eagain,
      .data [2, 255, 120, 177, 3, 18, 0], .eagain, .eintr, .data [0, 0, 8, 0, 0, 0, 0, 1, 0, 0, 0]]⟩

theorem codec_round_trip_sample : Delivers sampleMessages sampleSocket := by
  have hfit : ∀ m ∈ sampleMessages, BodyFits m.body := by
    intro m hm
    simp only [sampleMessages, List.mem_cons, List.not_mem_nil, or_false] at hm
    cases hm with
    | inl h => subst h; unfold BodyFits; decide
    | inr h => subst h; unfold BodyFits; decide
  obtain ⟨frames, hfr, hd⟩ := codec_round_trip sampleMessages hfit
  have hbytes : sampleMessages.mapM Message.frame =
      some [[84, 236, 150, 125, 0, 0, 0, 7, 0, 0, 0, 3, 16, 0, 0, 0, 1, 2, 255],
        [120, 177, 3, 18, 0, 0, 0, 8, 0, 0, 0, 0, 1, 0, 0, 0]] := by decide +kernel
  obtain rfl := Option.some.inj (hbytes.symm.trans hfr)
  refine hd sampleSocket ⟨by decide, ?_⟩ ?_ rfl
  · simp [sampleSocket]
  · simp [sampleSocket, Flowing]

end Ddm.Wire
