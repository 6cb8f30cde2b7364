/-
  Ddm.Proxy.Server — `handle_buffer` and `readcb` of `server.c`: the proxy's front end
  answers length-prefixed requests on a connection.

  libevent appends each chunk it reads to the input buffer and calls `readcb` once.
  `readcb` calls `handle_buffer` once, and that takes at most one request, so requests
  left complete in the buffer wait for bytes of a later one. The protobuf codec and
  `invoke_service` are parameters; the latter threads the agent's state.

  Proved: every request is answered if and only if no more requests are ever incomplete
  than chunks are still to come, and no body has 2^31 bytes (`responses_iff`). The
  connection simulates `Ddm.Lib.Backlog` over its frames' lengths (`Sim`).
-/

import Ddm.Lib.Backlog
import Ddm.Lib.Bytes

namespace Ddm.Proxy

open Ddm.Lib

structure SoaProxyRequest where
  groupName : CStr
  serviceName : CStr
  serviceVersion : CStr
  request : Bytes
  deriving DecidableEq

/-- What the handler calls: `soa_proxy_request__unpack`, `soa_proxy_response__pack` and
    `invoke_service` (the response, or `none` for a failed call). -/
structure Env (σ : Type) where
  unpack : Bytes → Option SoaProxyRequest
  pack : Int → Bytes → Bytes
  invokeService : σ → SoaProxyRequest → σ × Option Bytes

abbrev sizeofProxyMsgHeader : Nat := 4

structure Conn (σ : Type) where
  input : Bytes
  /-- Each entry is what one `evbuffer_add` appended. -/
  output : List Bytes
  service : σ
  closed : Bool
  deriving DecidableEq

variable {σ : Type} (env : Env σ)

/-- The header of `len` and the packed response. -/
def responseFrame (result : Option Bytes) : Bytes :=
  let packed := match result with
    | some buf => env.pack 0 buf
    | none => env.pack 1 []
  be32 packed.length ++ packed

/-- The number of bytes moved is returned as an `int`. -/
def evbufferRemove (input : Bytes) (datlen : Nat) : Int × Bytes × Bytes :=
  (toInt (min datlen input.length), input.take datlen, input.drop datlen)

/-- `bCanRead`: the header is there and as many bytes as it announces. -/
def canRead (input : Bytes) : Bool :=
  sizeofProxyMsgHeader ≤ input.length && sizeofProxyMsgHeader + ofBe32 input ≤ input.length

def handleBuffer (c : Conn σ) : Int × Conn σ :=
  if canRead c.input then
    let (n, body, input) := evbufferRemove (c.input.drop sizeofProxyMsgHeader) (ofBe32 c.input)
    if n > 0 then
      match env.unpack body with
      | none => (-1, { c with input := input })
      | some reqMsg =>
        let (service, result) := env.invokeService c.service reqMsg
        (0, { c with input := input, output := c.output ++ [responseFrame env result], service := service })
    else (0, { c with input := input })
  else (0, c)

def readcb (c : Conn σ) : Conn σ :=
  let (ret, c) := handleBuffer env c
  if ret ≠ 0 then { c with closed := true } else c

/-- One socket read. -/
def deliver (c : Conn σ) (chunk : Bytes) : Conn σ :=
  if c.closed then c else readcb env { c with input := c.input ++ chunk }

def Conn.init (s : σ) : Conn σ := ⟨[], [], s, false⟩

/-! ## What a client may expect -/

/-- A request's body as the client sends it. -/
structure WellFormed (body : Bytes) : Prop where
  nonempty : body ≠ []
  fits : body.length < 2 ^ 32
  unpacks : (env.unpack body).isSome = true

def frame (body : Bytes) : Bytes := be32 body.length ++ body

def wire (bodies : List Bytes) : Bytes := bodies.flatMap frame

/-- One response for each request in order, the service's state threaded through. -/
def responses (s : σ) : List SoaProxyRequest → List Bytes
  | [] => []
  | reqMsg :: reqMsgs =>
    let (s, result) := env.invokeService s reqMsg
    responseFrame env result :: responses s reqMsgs

/-- All requests answered, and no complete one left in the buffer. -/
structure Answered (s : σ) (bodies : List Bytes) (c : Conn σ) : Prop where
  output : c.output = responses env s (bodies.filterMap env.unpack)
  input : canRead c.input = false

/-- How many of the frames are complete in the stream's first `n` bytes. -/
def completeFrames (bodies : List Bytes) (n : Nat) : Nat := Backlog.completed (bodies.map fun b => (frame b).length) n

/-! ## One call -/

variable {env}

theorem length_frame (body : Bytes) : (frame body).length = body.length + 4 := by
  simp only [frame, List.length_append, length_be32]; omega

theorem ofBe32_frame {body : Bytes} (h : body.length < 2 ^ 32) (rest : Bytes) :
    ofBe32 (frame body ++ rest) = body.length := by
  rw [frame, List.append_assoc, ofBe32_be32, Nat.mod_eq_of_lt h]

/-- The front of a stream of frames can be read when it holds the first of them. -/
theorem canRead_frame {body input rest : Bytes} (more : Bytes) (h : body.length < 2 ^ 32)
    (hs : input ++ more = frame body ++ rest) : canRead input = true ↔ (frame body).length ≤ input.length := by
  have hsize : sizeofProxyMsgHeader = 4 := rfl
  simp only [canRead, Bool.and_eq_true, decide_eq_true_eq, length_frame]
  by_cases h4 : sizeofProxyMsgHeader ≤ input.length
  · have hlen : ofBe32 input = body.length := by
      -- four bytes decide the length, and they are the frame's
      have e := congrArg (List.take 4) hs
      rw [List.take_append_of_le_length h4, frame, List.append_assoc] at e
      have e' : input.take 4 = be32 body.length := e
      have hin : input = be32 body.length ++ input.drop 4 := by rw [← e', List.take_append_drop]
      rw [hin, ofBe32_be32, Nat.mod_eq_of_lt h]
    rw [hlen]
    omega
  · omega

theorem toInt_pos {n : Nat} (h0 : 0 < n) (h : n < 2 ^ 32) : toInt n > 0 ↔ n < 2 ^ 31 := by
  rw [toInt, Nat.mod_eq_of_lt h]
  split <;> omega

def Conn.withInput (c : Conn σ) (input : Bytes) : Conn σ := { c with input := input }

/-- What handling a request does to the output and the service: nothing for a body of
    2^31 bytes or more. -/
def answer (env : Env σ) (c : Conn σ) (body : Bytes) : Conn σ :=
  if body.length < 2 ^ 31 then
    match env.unpack body with
    | none => c
    | some reqMsg =>
      let (service, result) := env.invokeService c.service reqMsg
      { c with output := c.output ++ [responseFrame env result], service := service }
  else c

theorem answer_withInput (c : Conn σ) (input body : Bytes) :
    answer env (c.withInput input) body = (answer env c body).withInput input := by
  unfold answer
  split
  · split <;> rfl
  · rfl

theorem answer_closed (c : Conn σ) (body : Bytes) : (answer env c body).closed = c.closed := by
  unfold answer
  split
  · split <;> rfl
  · rfl

/-- A complete frame is taken whole, and answered. -/
theorem readcb_frame {body rest : Bytes} {c : Conn σ} (hw : WellFormed env body) (hi : c.input = frame body ++ rest) :
    readcb env c = (answer env c body).withInput rest := by
  obtain ⟨reqMsg, hu⟩ := Option.isSome_iff_exists.mp hw.unpacks
  have hpos : 0 < body.length := List.length_pos_iff.mpr hw.nonempty
  have hread : canRead c.input = true := (canRead_frame [] hw.fits (by rw [List.append_nil, hi])).mpr (by
    rw [hi, List.length_append]; omega)
  have hdrop : c.input.drop sizeofProxyMsgHeader = body ++ rest := by rw [hi, frame, List.append_assoc]; rfl
  have hlen : ofBe32 c.input = body.length := by rw [hi]; exact ofBe32_frame hw.fits rest
  have hmin : min body.length (body ++ rest).length = body.length := by rw [List.length_append]; omega
  have hh : handleBuffer env c = (0, (answer env c body).withInput rest) := by
    simp only [handleBuffer, if_pos hread, evbufferRemove, hdrop, hlen, hmin, List.take_left, List.drop_left,
      toInt_pos hpos hw.fits, answer, hu]
    split <;> rfl
  rw [readcb, hh]
  rfl

/-- Less than a frame is left alone. -/
theorem readcb_wait {c : Conn σ} (h : canRead c.input = false) : readcb env c = c := by
  simp only [readcb, handleBuffer, h, Bool.false_eq_true, if_false, ne_eq, not_true]

/-! ## A run -/

theorem foldl_answer_withInput (bodies : List Bytes) : ∀ (c : Conn σ) (input : Bytes),
    bodies.foldl (answer env) (c.withInput input) = (bodies.foldl (answer env) c).withInput input := by
  induction bodies with
  | nil => intro c input; rfl
  | cons body bodies ih => intro c input; rw [List.foldl_cons, answer_withInput, ih, List.foldl_cons]

def frameLengths (bodies : List Bytes) : List Nat := bodies.map fun b => (frame b).length

/-- The run is the backlog's over the frames' lengths: the frames taken are answered in
    order, and those left are in the buffer. -/
theorem deliver_sim (chunks : List Bytes) : ∀ (c : Conn σ) (pending : List Bytes), (∀ b ∈ pending, WellFormed env b) →
    c.closed = false → c.input ++ chunks.flatten = wire pending →
    ∃ taken left, pending = taken ++ left ∧
      chunks.foldl (deliver env) c = (taken.foldl (answer env) c).withInput (wire left) ∧
      frameLengths left =
        ((chunks.map List.length).foldl Backlog.serve ⟨frameLengths pending, c.input.length⟩).items := by
  induction chunks with
  | nil =>
    intro c pending _ _ hs
    rw [List.flatten_nil, List.append_nil] at hs
    exact ⟨[], pending, rfl, by rw [← hs]; rfl, rfl⟩
  | cons chunk chunks ih =>
    intro c pending hw hc hs
    rw [List.flatten_cons, ← List.append_assoc] at hs
    have hdel : deliver env c chunk = readcb env (c.withInput (c.input ++ chunk)) := by
      rw [deliver, if_neg (by rw [hc]; exact Bool.false_ne_true)]; rfl
    rw [List.foldl_cons, hdel, List.map_cons, List.foldl_cons]
    cases pending with
    | nil =>
      -- nothing more comes
      have hnil : c.input ++ chunk = [] := (List.append_eq_nil_iff.mp hs).1
      have hwait : readcb env (c.withInput (c.input ++ chunk)) = c.withInput (c.input ++ chunk) :=
        readcb_wait (by rw [hnil]; rfl)
      rw [hwait]
      obtain ⟨taken, left, hp, hrun, hl⟩ := ih (c.withInput (c.input ++ chunk)) [] (by simp) hc hs
      rw [foldl_answer_withInput] at hrun
      refine ⟨taken, left, hp, hrun, ?_⟩
      rw [hl, Backlog.serve]
      simp only [Conn.withInput, List.length_append, frameLengths, List.map_nil]
    | cons body pending =>
      have hwb := hw body List.mem_cons_self
      have hs' : (c.input ++ chunk) ++ chunks.flatten = frame body ++ wire pending := hs
      by_cases hle : (frame body).length ≤ (c.input ++ chunk).length
      · -- the first frame is complete: it is taken and answered
        set rest := (c.input ++ chunk).drop (frame body).length with hrest
        have hin : c.input ++ chunk = frame body ++ rest := by
          have e := congrArg (List.take (frame body).length) hs'
          rw [List.take_append_of_le_length hle, List.take_left] at e
          have ht := List.take_append_drop (frame body).length (c.input ++ chunk)
          rw [e] at ht
          exact ht.symm
        have hread := readcb_frame (c := c.withInput (c.input ++ chunk)) hwb hin
        rw [answer_withInput] at hread
        rw [hread]
        obtain ⟨taken, left, hp, hrun, hl⟩ := ih ((answer env c body).withInput rest) pending
          (fun b hb => hw b (List.mem_cons_of_mem _ hb)) ((answer_closed c body).trans hc) (by
            rw [hin, List.append_assoc] at hs'
            exact List.append_cancel_left hs')
        rw [foldl_answer_withInput] at hrun
        refine ⟨body :: taken, left, by rw [hp]; rfl, hrun, ?_⟩
        have hlen : rest.length = c.input.length + chunk.length - (frame body).length := by
          rw [hrest, List.length_drop, List.length_append]
        rw [List.length_append] at hle
        rw [hl]
        simp only [frameLengths, List.map_cons, Backlog.serve, if_pos hle, Conn.withInput, hlen]
      · -- the buffer waits for more of it
        have hwait : readcb env (c.withInput (c.input ++ chunk)) = c.withInput (c.input ++ chunk) := by
          refine readcb_wait (Bool.eq_false_iff.mpr fun h => hle ?_)
          exact (canRead_frame _ hwb.fits hs').mp h
        rw [hwait]
        obtain ⟨taken, left, hp, hrun, hl⟩ := ih (c.withInput (c.input ++ chunk)) (body :: pending) hw hc hs
        rw [foldl_answer_withInput] at hrun
        refine ⟨taken, left, hp, hrun, ?_⟩
        rw [List.length_append] at hle
        rw [hl]
        simp only [frameLengths, List.map_cons, Backlog.serve, if_neg hle, Conn.withInput, List.length_append]

/-! ## The responses -/

def small (body : Bytes) : Bool := body.length < 2 ^ 31

theorem length_responses (reqs : List SoaProxyRequest) : ∀ s : σ, (responses env s reqs).length = reqs.length := by
  induction reqs with
  | nil => intro s; rfl
  | cons req reqs ih => intro s; simp only [responses, List.length_cons, ih]

theorem length_requests {bodies : List Bytes} (hw : ∀ b ∈ bodies, WellFormed env b) :
    (bodies.filterMap env.unpack).length = bodies.length := by
  induction bodies with
  | nil => rfl
  | cons body bodies ih =>
    obtain ⟨reqMsg, hu⟩ := Option.isSome_iff_exists.mp (hw body List.mem_cons_self).unpacks
    rw [List.filterMap_cons_some hu, List.length_cons, List.length_cons, ih fun b hb => hw b (List.mem_cons_of_mem _ hb)]

/-- Every small body adds one response and no other does. -/
theorem length_answered {taken : List Bytes} : ∀ {c : Conn σ}, (∀ b ∈ taken, WellFormed env b) →
    (taken.foldl (answer env) c).output.length = c.output.length + (taken.filter small).length := by
  induction taken with
  | nil => intro c _; rfl
  | cons body taken ih =>
    intro c hw
    obtain ⟨reqMsg, hu⟩ := Option.isSome_iff_exists.mp (hw body List.mem_cons_self).unpacks
    rw [List.foldl_cons, ih fun b hb => hw b (List.mem_cons_of_mem _ hb)]
    by_cases hs : body.length < 2 ^ 31
    · have : small body = true := by simpa [small] using hs
      rw [List.filter_cons_of_pos this, answer, if_pos hs]
      simp only [hu, List.length_append, List.length_cons, List.length_nil]
      omega
    · have : ¬small body = true := by simpa [small] using hs
      rw [List.filter_cons_of_neg this, answer, if_neg hs]

/-- Small bodies are answered as the client expects. -/
theorem output_answered {taken : List Bytes} : ∀ {c : Conn σ}, (∀ b ∈ taken, WellFormed env b) →
    (∀ b ∈ taken, b.length < 2 ^ 31) →
    (taken.foldl (answer env) c).output = c.output ++ responses env c.service (taken.filterMap env.unpack) := by
  induction taken with
  | nil => intro c _ _; exact (List.append_nil _).symm
  | cons body taken ih =>
    intro c hw hs
    obtain ⟨reqMsg, hu⟩ := Option.isSome_iff_exists.mp (hw body List.mem_cons_self).unpacks
    rw [List.foldl_cons, ih (fun b hb => hw b (List.mem_cons_of_mem _ hb)) fun b hb => hs b (List.mem_cons_of_mem _ hb),
      List.filterMap_cons_some hu, answer, if_pos (hs body List.mem_cons_self)]
    simp only [hu, responses, List.append_assoc, List.cons_append, List.nil_append]

/-- When every frame is taken. -/
theorem taken_all_iff {bodies chunks : List Bytes} {left : List Bytes}
    (hl : frameLengths left = ((chunks.map List.length).foldl Backlog.serve ⟨frameLengths bodies, 0⟩).items) :
    left = [] ↔ ∀ k ≤ chunks.length,
      bodies.length ≤ completeFrames bodies (chunks.take k).flatten.length + (chunks.length - k) := by
  have hpos : ∀ size ∈ frameLengths bodies, 0 < size := by
    intro size hsize
    obtain ⟨b, -, rfl⟩ := List.mem_map.mp hsize
    rw [length_frame]; omega
  have hnil : left = [] ↔ frameLengths left = [] := by rw [frameLengths, List.map_eq_nil_iff]
  rw [hnil, hl, Backlog.drained_iff hpos]
  simp only [List.length_map, frameLengths, completeFrames, List.length_flatten, List.map_take]

/-- Every request is answered exactly under this condition on the frames and the cuts. -/
theorem responses_iff (s : σ) {bodies chunks : List Bytes} (hw : ∀ b ∈ bodies, WellFormed env b)
    (hs : chunks.flatten = wire bodies) :
    Answered env s bodies (chunks.foldl (deliver env) (.init s)) ↔
      (∀ b ∈ bodies, b.length < 2 ^ 31) ∧ ∀ k ≤ chunks.length,
        bodies.length ≤ completeFrames bodies (chunks.take k).flatten.length + (chunks.length - k) := by
  obtain ⟨taken, left, rfl, hrun, hl⟩ := deliver_sim chunks (.init s) bodies hw rfl hs
  rw [← taken_all_iff hl, hrun]
  have hwt : ∀ b ∈ taken, WellFormed env b := fun b hb => hw b (List.mem_append_left _ hb)
  constructor
  · intro ⟨hout, _⟩
    -- the responses are as many as the small frames taken
    have hcount := congrArg List.length hout
    rw [length_responses, length_requests hw, Conn.withInput, length_answered hwt] at hcount
    have hfilter := List.length_filter_le small taken
    rw [List.length_append] at hcount
    have h0 : (Conn.init s).output.length = 0 := rfl
    have hleft : left = [] := List.eq_nil_of_length_eq_zero (by omega)
    subst hleft
    refine ⟨fun b hb => ?_, rfl⟩
    rw [List.append_nil] at hb
    have hall := List.length_filter_eq_length_iff.mp (by rw [List.length_nil] at hcount; omega :
      (taken.filter small).length = taken.length)
    simpa [small] using hall b hb
  · intro h
    obtain ⟨hsmall, rfl⟩ := h
    rw [List.append_nil] at hsmall ⊢
    exact ⟨output_answered hwt hsmall, rfl⟩

/-- A packed request for service "s" of group "g", version "v", and an agent that
    answers it with one byte. -/
def sampleBody : Bytes := [10, 1, 103, 18, 1, 115, 26, 1, 118, 34, 1, 120]

def sampleEnv : Env Unit where
  unpack body := if body = sampleBody then some ⟨.lit "g", .lit "s", .lit "v", [120]⟩ else none
  pack status response := [8, if status = 0 then 0 else 1, 18, response.length.toUInt8] ++ response
  invokeService s _ := (s, some [121])

theorem sample_wellFormed : ∀ b ∈ [sampleBody, sampleBody], WellFormed sampleEnv b := by
  intro b hb
  have hb : b = sampleBody := by simpa using hb
  subst hb
  exact ⟨by decide, by decide, by decide⟩

/-- Two requests, a chunk each: both are answered. -/
theorem responses_iff_sample :
    Answered sampleEnv () [sampleBody, sampleBody]
        ([frame sampleBody, frame sampleBody].foldl (deliver sampleEnv) (.init ())) ∧
      ([frame sampleBody, frame sampleBody].foldl (deliver sampleEnv) (.init ())).output =
        [[0, 0, 0, 5, 8, 0, 18, 1, 121], [0, 0, 0, 5, 8, 0, 18, 1, 121]] := by
  have hiff := @responses_iff _ sampleEnv () _ [frame sampleBody, frame sampleBody] sample_wellFormed rfl
  exact ⟨hiff.mpr ⟨by decide, by decide⟩, by decide⟩

/-- Two requests in one chunk: the second stays in the buffer. -/
theorem pipelined_request_unanswered :
    ¬Answered sampleEnv () [sampleBody, sampleBody]
      ([frame sampleBody ++ frame sampleBody].foldl (deliver sampleEnv) (.init ())) := by
  intro h
  have hread : canRead ([frame sampleBody ++ frame sampleBody].foldl (deliver sampleEnv) (.init ())).input = true := by
    decide
  exact absurd (hread.symm.trans h.input) (by decide)

end Ddm.Proxy
