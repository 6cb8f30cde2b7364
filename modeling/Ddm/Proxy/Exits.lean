/-
  Ddm.Proxy.Exits — `handle_buffer` with every way its libevent calls come back.

  `Ddm.Proxy.Server` has the calls that succeed; here each of the four may fail as well
  (`handleBufferWith_ok` connects the two). A call is all-or-nothing when it leaves the
  buffers alone without a complete frame, and else takes exactly the first one and
  either appends one response frame or asks `readcb` to close the connection.

  Proved: it is if and only if no frame is complete, or the calls succeed, the frame's
  length is neither zero nor too large for an `int`, and the response's length fits the
  header (`allOrNothing_iff`). A frame of length zero is taken and forgotten
  (`empty_frame_is_dropped`).
-/

import Ddm.Proxy.Request

namespace Ddm.Proxy

open Ddm.Lib

/-- How the calls into libevent come back. -/
structure Libevent where
  /-- `evbuffer_copyout` returns a positive number. -/
  copied : Bool
  /-- `evbuffer_drain` returns 0. -/
  drained : Bool
  /-- `evbuffer_remove` does not return -1. -/
  removed : Bool
  /-- `evbuffer_add` returns 0. -/
  added : Bool
  deriving DecidableEq

def Libevent.ok : Libevent := ⟨true, true, true, true⟩

variable {σ : Type} (env : Env σ)

def handleBufferWith (ev : Libevent) (c : Conn σ) : Int × Conn σ :=
  if ev.copied && canRead c.input then
    if ev.drained then
      let input := c.input.drop sizeofProxyMsgHeader
      let (n, body, input) := if ev.removed then evbufferRemove input (ofBe32 c.input) else (-1, [], input)
      if n > 0 then
        match env.unpack body with
        | none => (-1, { c with input := input })
        | some reqMsg =>
          let (service, result) := env.invokeService c.service reqMsg
          let output := if ev.added then c.output ++ [responseFrame env result] else c.output
          (0, { c with input := input, output := output, service := service })
      else (0, { c with input := input })
    else (0, c)
  else (0, c)

def readcbWith (ev : Libevent) (c : Conn σ) : Conn σ :=
  let (ret, c) := handleBufferWith env ev c
  if ret ≠ 0 then { c with closed := true } else c

theorem handleBufferWith_ok (c : Conn σ) : handleBufferWith env .ok c = handleBuffer env c := rfl

/-! ## All or nothing -/

/-- The input starts with this frame. -/
def FirstFrame (input body rest : Bytes) : Prop := body.length < 2 ^ 32 ∧ input = frame body ++ rest

/-- A frame whose body the client unpacks. -/
def WellFormedResponse (unpackResponse : Bytes → Option (Int × Bytes)) (f : Bytes) : Prop :=
  ∃ packed, packed.length < 2 ^ 32 ∧ f = frame packed ∧ (unpackResponse packed).isSome

structure AllOrNothing (unpackResponse : Bytes → Option (Int × Bytes)) (ev : Libevent) (c : Conn σ) : Prop where
  nothing : (∀ body rest, ¬FirstFrame c.input body rest) →
    (handleBufferWith env ev c).1 = 0 ∧ (handleBufferWith env ev c).2.input = c.input ∧
      (handleBufferWith env ev c).2.output = c.output
  all : ∀ body rest, FirstFrame c.input body rest → (handleBufferWith env ev c).2.input = rest ∧
    ((handleBufferWith env ev c).1 = 0 ∧
        (∃ f, WellFormedResponse unpackResponse f ∧ (handleBufferWith env ev c).2.output = c.output ++ [f]) ∨
      (handleBufferWith env ev c).1 = -1 ∧ (handleBufferWith env ev c).2.output = c.output ∧
        (readcbWith env ev c).closed = true)

/-- What `proxy_response_encode` makes of the outcome of `invoke_service`. -/
def packedResponse (result : Option Bytes) : Bytes :=
  match result with
  | some buf => env.pack 0 buf
  | none => env.pack 1 []

/-- Every call on this frame's way succeeds, and every length on it fits. -/
def Serves (ev : Libevent) (c : Conn σ) (body : Bytes) : Prop :=
  ev.copied = true ∧ ev.drained = true ∧ ev.removed = true ∧ 0 < body.length ∧ body.length < 2 ^ 31 ∧
    ∀ reqMsg, env.unpack body = some reqMsg →
      ev.added = true ∧ (packedResponse env (env.invokeService c.service reqMsg).2).length < 2 ^ 32

variable {env}

theorem FirstFrame.canRead {input body rest : Bytes} (h : FirstFrame input body rest) : canRead input = true := by
  obtain ⟨hlt, rfl⟩ := h
  refine (canRead_frame [] hlt (List.append_nil _)).mpr ?_
  rw [List.length_append]
  omega

/-- What can be read is a frame. -/
theorem firstFrame_of_canRead {input : Bytes} (h : Ddm.Proxy.canRead input = true) :
    FirstFrame input ((input.drop 4).take (ofBe32 input)) ((input.drop 4).drop (ofBe32 input)) := by
  have hsize : sizeofProxyMsgHeader = 4 := rfl
  simp only [Ddm.Proxy.canRead, Bool.and_eq_true, decide_eq_true_eq] at h
  have hlen : ((input.drop 4).take (ofBe32 input)).length = ofBe32 input := by
    rw [List.length_take, List.length_drop]
    omega
  refine ⟨by rw [hlen]; exact ofBe32_lt input, ?_⟩
  rw [frame, hlen, be32_ofBe32 (by omega), List.append_assoc, List.take_append_drop, List.take_append_drop]

/-- A frame is the header's length and then the body. -/
theorem FirstFrame.parts {input body rest : Bytes} (h : FirstFrame input body rest) :
    ofBe32 input = body.length ∧ input.drop sizeofProxyMsgHeader = body ++ rest := by
  obtain ⟨hlt, rfl⟩ := h
  refine ⟨ofBe32_frame hlt rest, ?_⟩
  rw [frame, List.append_assoc]
  rfl

/-- The exits of a call on a complete frame. -/
theorem handleBufferWith_frame {c : Conn σ} {body rest : Bytes} (ev : Libevent) (h : FirstFrame c.input body rest) :
    handleBufferWith env ev c =
      if ev.copied = true ∧ ev.drained = true then
        if ev.removed = true then
          if 0 < body.length ∧ body.length < 2 ^ 31 then
            match env.unpack body with
            | none => (-1, c.withInput rest)
            | some reqMsg =>
              (0, { c with input := rest
                           output := if ev.added then
                               c.output ++ [frame (packedResponse env (env.invokeService c.service reqMsg).2)]
                             else c.output
                           service := (env.invokeService c.service reqMsg).1 })
          else (0, c.withInput rest)
        else (0, c.withInput (body ++ rest))
      else (0, c) := by
  obtain ⟨hlen, hdrop⟩ := h.parts
  have hmin : min body.length (body ++ rest).length = body.length := by rw [List.length_append]; omega
  have hpos : toInt body.length > 0 ↔ 0 < body.length ∧ body.length < 2 ^ 31 := by
    rcases Nat.eq_zero_or_pos body.length with h0 | h0
    · rw [h0]
      decide
    · rw [toInt_pos h0 h.1]
      omega
  unfold handleBufferWith
  rw [h.canRead, Bool.and_true, hdrop, hlen]
  cases ev.copied with
  | false => rfl
  | true =>
    cases ev.drained with
    | false => rfl
    | true =>
      cases ev.removed with
      | false => rfl
      | true =>
        simp only [if_true, evbufferRemove, hmin, hpos, List.take_left, List.drop_left, and_self]
        rfl

/-- Without a complete frame nothing happens. -/
theorem handleBufferWith_wait {c : Conn σ} (ev : Libevent) (h : ∀ body rest, ¬FirstFrame c.input body rest) :
    handleBufferWith env ev c = (0, c) := by
  have hread : canRead c.input = false := Bool.eq_false_iff.mpr fun hr => h _ _ (firstFrame_of_canRead hr)
  unfold handleBufferWith
  rw [hread, Bool.and_false]
  rfl

/-- A frame on whose way everything succeeds is answered or refused. -/
theorem serves_all {unpackResponse : Bytes → Option (Int × Bytes)}
    (hcodec : ∀ status response, status = 0 ∨ status = 1 → (env.pack status response).length < 2 ^ 32 →
      unpackResponse (env.pack status response) = some (status, response))
    {ev : Libevent} {c : Conn σ} {body rest : Bytes} (h : FirstFrame c.input body rest) (hs : Serves env ev c body) :
    (handleBufferWith env ev c).2.input = rest ∧
      ((handleBufferWith env ev c).1 = 0 ∧
          (∃ f, WellFormedResponse unpackResponse f ∧ (handleBufferWith env ev c).2.output = c.output ++ [f]) ∨
        (handleBufferWith env ev c).1 = -1 ∧ (handleBufferWith env ev c).2.output = c.output ∧
          (readcbWith env ev c).closed = true) := by
  obtain ⟨hcopied, hdrained, hremoved, h0, h31, hresp⟩ := hs
  have he := @handleBufferWith_frame _ env _ _ _ ev h
  rw [if_pos ⟨hcopied, hdrained⟩, if_pos hremoved, if_pos ⟨h0, h31⟩] at he
  cases hu : env.unpack body with
  | none =>
    simp only [hu] at he
    refine ⟨by rw [he]; rfl, Or.inr ⟨by rw [he], by rw [he]; rfl, ?_⟩⟩
    unfold readcbWith
    rw [he]
    rfl
  | some reqMsg =>
    obtain ⟨hadded, hfits⟩ := hresp reqMsg hu
    simp only [hu, hadded, if_true] at he
    refine ⟨by rw [he], Or.inl ⟨by rw [he], _, ⟨_, hfits, rfl, ?_⟩, by rw [he]⟩⟩
    cases hr : (env.invokeService c.service reqMsg).2 with
    | none => rw [hr] at hfits; rw [packedResponse, hcodec 1 [] (Or.inr rfl) hfits]; rfl
    | some buf => rw [hr] at hfits; rw [packedResponse, hcodec 0 buf (Or.inl rfl) hfits]; rfl

/-- A frame that is taken and answered or refused met no failure. -/
theorem serves_of_all {unpackResponse : Bytes → Option (Int × Bytes)} {ev : Libevent} {c : Conn σ} {body rest : Bytes}
    (h : FirstFrame c.input body rest) (ha : AllOrNothing env unpackResponse ev c) : Serves env ev c body := by
  obtain ⟨hin, hout⟩ := ha.all body rest h
  have he := @handleBufferWith_frame _ env _ _ _ ev h
  -- a call that returns 0 has appended a response
  have hgrown : (handleBufferWith env ev c).1 = 0 → ∃ f, WellFormedResponse unpackResponse f ∧
      (handleBufferWith env ev c).2.output = c.output ++ [f] := fun h0 => by
    rcases hout with ⟨-, hf⟩ | ⟨h1, -⟩
    · exact hf
    · rw [h0] at h1
      exact absurd h1 (by decide)
  have hsame : ∀ c' : Conn σ, handleBufferWith env ev c = (0, c') → c'.output = c.output → False := fun c' hc' heq => by
    obtain ⟨f, -, hf⟩ := hgrown (by rw [hc'])
    rw [hc', heq] at hf
    have hl := congrArg List.length hf
    rw [List.length_append, List.length_singleton] at hl
    omega
  by_cases hcd : ev.copied = true ∧ ev.drained = true
  · rw [if_pos hcd] at he
    by_cases hremoved : ev.removed = true
    · rw [if_pos hremoved] at he
      by_cases hlen : 0 < body.length ∧ body.length < 2 ^ 31
      · rw [if_pos hlen] at he
        refine ⟨hcd.1, hcd.2, hremoved, hlen.1, hlen.2, fun reqMsg hu => ?_⟩
        simp only [hu] at he
        by_cases hadded : ev.added = true
        · refine ⟨hadded, ?_⟩
          rw [if_pos hadded] at he
          obtain ⟨f, ⟨packed, hfits, hf, -⟩, ho⟩ := hgrown (by rw [he])
          rw [he] at ho
          have hp : frame (packedResponse env (env.invokeService c.service reqMsg).2) = frame packed :=
            (List.cons.inj (List.append_cancel_left ho)).1.trans hf
          have hl := congrArg List.length hp
          rw [length_frame, length_frame] at hl
          omega
        · rw [if_neg hadded] at he
          exact (hsame _ he rfl).elim
      · rw [if_neg hlen] at he
        exact (hsame _ he rfl).elim
    · rw [if_neg hremoved] at he
      exact (hsame _ he rfl).elim
  · rw [if_neg hcd] at he
    exact (hsame _ he rfl).elim

theorem allOrNothing_iff {unpackResponse : Bytes → Option (Int × Bytes)}
    (hcodec : ∀ status response, status = 0 ∨ status = 1 → (env.pack status response).length < 2 ^ 32 →
      unpackResponse (env.pack status response) = some (status, response)) (ev : Libevent) (c : Conn σ) :
    AllOrNothing env unpackResponse ev c ↔ ∀ body rest, FirstFrame c.input body rest → Serves env ev c body := by
  constructor
  · intro ha body rest h
    exact serves_of_all h ha
  · intro hs
    refine ⟨fun h => ?_, fun body rest h => serves_all hcodec h (hs body rest h)⟩
    rw [handleBufferWith_wait ev h]
    exact ⟨rfl, rfl, rfl⟩

/-- The client's `soa_proxy_response__unpack`, for a status of one byte. -/
def unpackSoaProxyResponse : Bytes → Option (Int × Bytes)
  | 8 :: status :: rest => do
    let (number, response, _) ← Protobuf.readField rest
    if number = 2 then some (status.toNat, response) else none
  | _ => none

theorem unpack_notingEnv (status : Int) (response : Bytes) (h : status = 0 ∨ status = 1) :
    unpackSoaProxyResponse (notingEnv.pack status response) = some (status, response) := by
  have hread : Protobuf.readField (Protobuf.field 2 response) = some (2, response, []) := by
    have := Protobuf.readField_field 2 response []
    rwa [List.append_nil] at this
  rcases h with rfl | rfl
  · show unpackSoaProxyResponse (8 :: 0 :: Protobuf.field 2 response) = _
    rw [unpackSoaProxyResponse, hread]
    rfl
  · show unpackSoaProxyResponse (8 :: 1 :: Protobuf.field 2 response) = _
    rw [unpackSoaProxyResponse, hread]
    rfl

/-- A connection that has received these bytes. -/
def received (input : Bytes) : Conn (List SoaProxyRequest) := (Conn.init []).withInput input

/-- A frame that is all there is taken, and its answer is in the other buffer. -/
theorem allOrNothing_iff_sample : AllOrNothing notingEnv unpackSoaProxyResponse .ok (received (frame sampleBody)) ∧
    (handleBufferWith notingEnv .ok (received (frame sampleBody))).2.input = [] ∧
    (handleBufferWith notingEnv .ok (received (frame sampleBody))).2.output = [[0, 0, 0, 4, 8, 0, 18, 0]] := by
  have hcodec : ∀ status response, status = 0 ∨ status = 1 → (notingEnv.pack status response).length < 2 ^ 32 →
      unpackSoaProxyResponse (notingEnv.pack status response) = some (status, response) :=
    fun status response h _ => unpack_notingEnv status response h
  refine ⟨(allOrNothing_iff hcodec .ok _).mpr fun body rest h => ?_, by decide, by decide⟩
  -- the frame has the one body
  have hbody : body.length = 12 := h.parts.1.symm
  obtain rfl : body = sampleBody := by
    have happend : sampleBody = body ++ rest := h.parts.2
    exact (List.append_inj_left (happend.symm.trans (List.append_nil _).symm) hbody)
  refine ⟨rfl, rfl, rfl, by decide, by decide, fun reqMsg _ => ⟨rfl, ?_⟩⟩
  show (packedResponse notingEnv (some [])).length < 2 ^ 32
  decide

/-- The header of an empty body is taken, and the client hears nothing. -/
theorem empty_frame_is_dropped : ¬AllOrNothing notingEnv unpackSoaProxyResponse .ok (received [0, 0, 0, 0]) := by
  intro h
  have hframe : FirstFrame [0, 0, 0, 0] [] [] := ⟨by decide, rfl⟩
  have hs : Serves notingEnv .ok (received [0, 0, 0, 0]) [] := serves_of_all hframe h
  exact absurd hs.2.2.2.1 (Nat.lt_irrefl 0)

end Ddm.Proxy
