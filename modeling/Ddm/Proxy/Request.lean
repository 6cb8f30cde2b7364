/-
  Ddm.Proxy.Request — from `prequest_encode` of the PHP extension (`soaprotobuf.c`) to the
  `invoke_service` call in `handle_buffer`.

  The extension packs the four strings and puts the packed length before them, as 32 bits
  in network order; both sides compile their own `proxy_msg_header`, of four bytes. The
  protobuf codec is a parameter: unpacking gives back what was packed, and a message with
  four required fields is never packed into nothing.

  Proved: a frame is left alone until it is complete, then taken whole and its request
  passed on unchanged, if and only if it is packed into less than 2^31 bytes
  (`request_faithful_iff`); a body of 2^31 - 1 bytes is not served
  (`huge_body_is_dropped`).
-/

import Ddm.Lib.Protobuf
import Ddm.Proxy.Server

namespace Ddm.Proxy

open Ddm.Lib

/-! ## The client -/

/-- `proxy_request_encode`; `packRequest` is `soa_proxy_request__pack`. The message starts
    as SOA_PROXY_REQUEST__INIT, with an empty request. -/
def proxyRequestEncode (packRequest : SoaProxyRequest → Bytes) (group serviceName serviceVersion : CStr)
    (requestBody : Bytes) : Bytes :=
  let msg : SoaProxyRequest := ⟨group, serviceName, serviceVersion, []⟩
  let msg := if requestBody.length > 0 then { msg with request := requestBody } else msg
  let buffer := packRequest msg
  if buffer.length > 0 then buffer else []

def prequestEncode (packRequest : SoaProxyRequest → Bytes) (group serviceName serviceVersion : CStr)
    (requestBody : Bytes) : Bytes :=
  let buffer := proxyRequestEncode packRequest group serviceName serviceVersion requestBody
  be32 buffer.length ++ if buffer.length > 0 then buffer else []

theorem prequestEncode_eq (packRequest : SoaProxyRequest → Bytes) (group serviceName serviceVersion : CStr)
    (requestBody : Bytes) : prequestEncode packRequest group serviceName serviceVersion requestBody =
      frame (packRequest ⟨group, serviceName, serviceVersion, requestBody⟩) := by
  have hself : ∀ b : Bytes, (if b.length > 0 then b else []) = b := fun b => by
    cases b with
    | nil => rfl
    | cons x b => exact if_pos (Nat.succ_pos _)
  have hmsg : (if requestBody.length > 0 then (⟨group, serviceName, serviceVersion, requestBody⟩ : SoaProxyRequest)
      else ⟨group, serviceName, serviceVersion, []⟩) = ⟨group, serviceName, serviceVersion, requestBody⟩ := by
    cases requestBody with
    | nil => rfl
    | cons x b => exact if_pos (Nat.succ_pos _)
  simp only [prequestEncode, proxyRequestEncode, hmsg, hself, frame]

/-! ## Fidelity -/

variable {σ : Type} {env : Env σ}

/-- However the stream of a frame and what follows it is cut: the chunks before the one
    that completes the frame change nothing but the input, and that one leaves what
    follows the frame, one response, and the service after exactly this call. -/
def Faithful (env : Env σ) (packRequest : SoaProxyRequest → Bytes) (c : Conn σ) (reqMsg : SoaProxyRequest) : Prop :=
  let frame := prequestEncode packRequest reqMsg.groupName reqMsg.serviceName reqMsg.serviceVersion reqMsg.request
  ∀ (chunks : List Bytes) (last rest : Bytes), chunks.flatten ++ last = frame ++ rest →
    chunks.flatten.length < frame.length →
    frame.length ≤ (chunks.flatten ++ last).length →
    chunks.foldl (deliver env) c = c.withInput chunks.flatten ∧
      deliver env (chunks.foldl (deliver env) c) last =
        { c with input := rest
                 output := c.output ++ [responseFrame env (env.invokeService c.service reqMsg).2]
                 service := (env.invokeService c.service reqMsg).1 }

/-- Chunks that leave the first frame incomplete are kept. -/
theorem deliver_waits {body rest : Bytes} (h : body.length < 2 ^ 32) (chunks : List Bytes) :
    ∀ (c : Conn σ) (more : Bytes), c.closed = false → c.input ++ chunks.flatten ++ more = frame body ++ rest →
      (c.input ++ chunks.flatten).length < (frame body).length →
      chunks.foldl (deliver env) c = c.withInput (c.input ++ chunks.flatten) := by
  induction chunks with
  | nil =>
    intro c more _ _ _
    rw [List.flatten_nil, List.append_nil]
    rfl
  | cons chunk chunks ih =>
    intro c more hc hs hlt
    rw [List.flatten_cons, ← List.append_assoc] at hs hlt
    have hshort : (c.input ++ chunk).length < (frame body).length := by
      rw [List.length_append] at hlt
      omega
    have hwait : readcb env (c.withInput (c.input ++ chunk)) = c.withInput (c.input ++ chunk) := by
      refine readcb_wait (Bool.eq_false_iff.mpr fun hread => ?_)
      have := (canRead_frame _ h ((List.append_assoc ..).symm.trans hs)).mp hread
      exact absurd hshort (Nat.not_lt.mpr this)
    have hdel : deliver env c chunk = c.withInput (c.input ++ chunk) := by
      rw [deliver, if_neg (by rw [hc]; exact Bool.false_ne_true)]
      exact hwait
    rw [List.foldl_cons, hdel, ih (c.withInput (c.input ++ chunk)) more hc hs hlt, List.flatten_cons, ← List.append_assoc]
    rfl

/-- A frame whose packed length does not fit in 32 bits is cut short by its own header. -/
theorem readcb_cut {c : Conn σ} {body : Bytes} (h : 2 ^ 32 ≤ body.length) (hi : c.input = frame body) :
    (readcb env c).input ≠ [] := by
  have hsize : sizeofProxyMsgHeader = 4 := rfl
  have hlen : ofBe32 c.input = body.length % 2 ^ 32 := by rw [hi, frame, ofBe32_be32]
  have hdrop : c.input.drop sizeofProxyMsgHeader = body := by rw [hi]; rfl
  have hread : canRead c.input = true := by
    simp only [canRead, hlen, Bool.and_eq_true, decide_eq_true_eq]
    rw [hi, length_frame]
    omega
  have hinput : (readcb env c).input = body.drop (body.length % 2 ^ 32) := by
    simp only [readcb, handleBuffer, if_pos hread, evbufferRemove, hdrop, hlen]
    split
    · split
      · rfl
      · split <;> rfl
    · rfl
  rw [hinput]
  intro hnil
  have := List.drop_eq_nil_iff.mp hnil
  omega

theorem deliver_open {c : Conn σ} (hc : c.closed = false) (chunk : Bytes) :
    deliver env c chunk = readcb env (c.withInput (c.input ++ chunk)) := by
  rw [deliver, if_neg (by rw [hc]; exact Bool.false_ne_true)]
  rfl

section Codec

variable {packRequest : SoaProxyRequest → Bytes} (hinv : ∀ reqMsg, env.unpack (packRequest reqMsg) = some reqMsg)
  (hne : ∀ reqMsg, packRequest reqMsg ≠ []) {reqMsg : SoaProxyRequest} {c : Conn σ}

include hinv hne

theorem packed_wellFormed (h : (packRequest reqMsg).length < 2 ^ 32) : WellFormed env (packRequest reqMsg) :=
  ⟨hne reqMsg, h, by rw [hinv]; rfl⟩

variable (hi : c.input = []) (hc : c.closed = false)

include hi hc

theorem faithful_of_small (h : (packRequest reqMsg).length < 2 ^ 31) : Faithful env packRequest c reqMsg := by
  rw [Faithful, prequestEncode_eq]
  intro chunks last rest hs hlt hle
  have h32 : (packRequest reqMsg).length < 2 ^ 32 := by omega
  have hwait : chunks.foldl (deliver env) c = c.withInput chunks.flatten := by
    have hkept : chunks.foldl (deliver env) c = c.withInput (c.input ++ chunks.flatten) :=
      deliver_waits h32 chunks c last hc (by rw [hi, List.nil_append]; exact hs) (by rw [hi, List.nil_append]; exact hlt)
    rwa [hi, List.nil_append] at hkept
  refine ⟨hwait, ?_⟩
  have hclosed : (c.withInput chunks.flatten).closed = false := hc
  rw [hwait, deliver_open hclosed, readcb_frame (packed_wellFormed hinv hne h32) hs, answer, if_pos h]
  simp only [hinv]
  rfl

/-- The whole frame in one chunk shows the limit. -/
theorem small_of_faithful (h : Faithful env packRequest c reqMsg) : (packRequest reqMsg).length < 2 ^ 31 := by
  rw [Faithful, prequestEncode_eq] at h
  by_contra hbig
  have hfirst := (h [] (frame (packRequest reqMsg)) [] (by rw [List.flatten_nil, List.append_nil]; rfl)
    (by rw [List.flatten_nil, length_frame]; exact Nat.succ_pos _) (Nat.le_refl _)).2
  rw [List.foldl_nil, deliver_open hc, hi, List.nil_append] at hfirst
  by_cases h32 : (packRequest reqMsg).length < 2 ^ 32
  · -- the frame is taken, and no request is made of it
    have hw := packed_wellFormed hinv hne h32
    have hin : (c.withInput (frame (packRequest reqMsg))).input = frame (packRequest reqMsg) ++ [] := by
      rw [List.append_nil]; rfl
    rw [readcb_frame hw hin, answer, if_neg hbig] at hfirst
    have hlen := congrArg (fun c => c.output.length) hfirst
    simp only [Conn.withInput, List.length_append, List.length_singleton] at hlen
    omega
  · have hcut : (readcb env (c.withInput (frame (packRequest reqMsg)))).input ≠ [] :=
      readcb_cut (by omega) rfl
    exact hcut (by rw [hfirst])

end Codec

theorem request_faithful_iff {packRequest : SoaProxyRequest → Bytes}
    (hinv : ∀ reqMsg, env.unpack (packRequest reqMsg) = some reqMsg) (hne : ∀ reqMsg, packRequest reqMsg ≠ [])
    (group serviceName serviceVersion : CStr) (requestBody : Bytes) {c : Conn σ} (hi : c.input = [])
    (hc : c.closed = false) :
    Faithful env packRequest c ⟨group, serviceName, serviceVersion, requestBody⟩ ↔
      (packRequest ⟨group, serviceName, serviceVersion, requestBody⟩).length < 2 ^ 31 :=
  ⟨small_of_faithful hinv hne hi hc, faithful_of_small hinv hne hi hc⟩

/-! ## The messages of `soa_proxy_msg.proto` -/

def packSoaProxyRequest (m : SoaProxyRequest) : Bytes :=
  Protobuf.fields [(1, m.groupName.chars), (2, m.serviceName.chars), (3, m.serviceVersion.chars), (4, m.request)]

/-- Of a field given twice the last counts, and a required one must be there. -/
def unpackSoaProxyRequest (b : Bytes) : Option SoaProxyRequest := do
  let fields ← Protobuf.readFields b
  let last (number : Nat) : Option Bytes := (fields.reverse.find? (·.1 == number)).map (·.2)
  some ⟨CStr.ofBytes (← last 1), CStr.ofBytes (← last 2), CStr.ofBytes (← last 3), ← last 4⟩

theorem unpack_pack (m : SoaProxyRequest) : unpackSoaProxyRequest (packSoaProxyRequest m) = some m := by
  simp only [unpackSoaProxyRequest, packSoaProxyRequest, Protobuf.readFields_fields]
  simp [CStr.ofBytes_chars]

theorem length_pack (m : SoaProxyRequest) : m.request.length + 2 ≤ (packSoaProxyRequest m).length := by
  have := Protobuf.length_field 4 m.request
  simp only [packSoaProxyRequest, Protobuf.fields, List.flatMap_cons, List.flatMap_nil, List.length_append]
  omega

theorem pack_ne_nil (m : SoaProxyRequest) : packSoaProxyRequest m ≠ [] := fun h => by
  have := length_pack m
  rw [h, List.length_nil] at this
  omega

/-- An agent that notes the requests it is called with. -/
def notingEnv : Env (List SoaProxyRequest) where
  unpack := unpackSoaProxyRequest
  pack status response := [8, if status = 0 then 0 else 1] ++ Protobuf.field 2 response
  invokeService noted reqMsg := (noted ++ [reqMsg], some [])

theorem request_faithful_iff_sample :
    Faithful notingEnv packSoaProxyRequest (.init []) ⟨.lit "g", .lit "s", .lit "v", [0, 255]⟩ :=
  (request_faithful_iff unpack_pack pack_ne_nil (.lit "g") (.lit "s") (.lit "v") [0, 255] rfl rfl).mpr
    (by decide)

theorem long_body_is_dropped (group serviceName serviceVersion : CStr) {requestBody : Bytes}
    (h : 2 ^ 31 ≤ requestBody.length + 2) :
    ¬Faithful notingEnv packSoaProxyRequest (.init []) ⟨group, serviceName, serviceVersion, requestBody⟩ := fun hf => by
  have hsmall := small_of_faithful unpack_pack pack_ne_nil rfl rfl hf
  have hlen : requestBody.length + 2 ≤ _ := length_pack ⟨group, serviceName, serviceVersion, requestBody⟩
  omega

/-- The longest body PHP can pass: the frame is read and no service called. -/
theorem huge_body_is_dropped : ¬Faithful notingEnv packSoaProxyRequest (.init [])
    ⟨.lit "g", .lit "s", .lit "v", List.replicate (2 ^ 31 - 1) 120⟩ :=
  long_body_is_dropped _ _ _ (by rw [List.length_replicate]; omega)

end Ddm.Proxy
