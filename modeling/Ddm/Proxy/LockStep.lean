/-
  Ddm.Proxy.LockStep — a client that waits for each response before the next request, by
  `proxy_request_send` and `proxy_response_receive` of `proxy_message.c`, and the front end
  of `server.c`, with the network between them.

  Bytes travel in pieces of any size both ways: `send` and `recv` of the client, the reads
  and writes of libevent. A step is one of these; an interrupted call is none. The client
  gives up when a `select` times out or a call fails.

  `readcb` takes one request a call, so a client that sends ahead can wait for ever; this
  one cannot. Proved, for every order of steps: what it has received are the first replies
  in order, and if it does not give up, the run is no longer than its work and cannot stop
  before the last reply (`lockStep_correct`).
-/

import Ddm.Lib.Machine
import Ddm.Proxy.Exits
import Ddm.Proxy.Request

namespace Ddm.Proxy

open Ddm.Lib

/-! ## The client -/

inductive Client where
  | idle
  /-- In `socket_send`, with what is left of the message. -/
  | sending (unsent : Bytes)
  /-- In the `socket_receive` of the header, and of `len` bytes of body. -/
  | header (got : Bytes)
  | body (len : Nat) (got : Bytes)
  | failed
  deriving DecidableEq

/-- A status and the bytes of the response; `none` for a message of length 0. -/
abbrev Reply := Option (Int × Bytes)

structure LockStep (σ : Type) where
  /-- The requests of the calls to come. -/
  todo : List SoaProxyRequest
  client : Client
  replies : List Reply
  /-- Sent, and not read by the server. -/
  up : Bytes
  conn : Conn σ
  /-- How many bytes of the output have been written to the socket. -/
  flushed : Nat
  /-- Written by the server, and not received. -/
  down : Bytes

/-- The bytes in the output buffer. -/
def LockStep.pending {σ : Type} (s : LockStep σ) : Bytes := s.conn.output.flatten.drop s.flushed

/-- What the client calls, beside the server's environment. -/
structure Codec where
  packRequest : SoaProxyRequest → Bytes
  unpackResponse : Bytes → Option (Int × Bytes)

variable {σ : Type} (codec : Codec)

/-- What `proxy_request_send` hands to `socket_send`; it is the extension's message. -/
def message (r : SoaProxyRequest) : Bytes :=
  prequestEncode codec.packRequest r.groupName r.serviceName r.serviceVersion r.request

/-- `socket_receive` of the header has `got` now. -/
def headerGot (got : Bytes) : Client × List Reply :=
  if got.length = sizeofProxyMsgHeader then
    if ofBe32 got = 0 then (.idle, [none]) else (.body (ofBe32 got) [], [])
  else (.header got, [])

/-- That of the body. -/
def bodyGot (len : Nat) (got : Bytes) : Client × List Reply :=
  if got.length = len then
    match codec.unpackResponse got with
    | some reply => (.idle, [some reply])
    | none => (.failed, [])
  else (.body len got, [])

inductive Label where
  | call
  | send (n : Nat)
  | deliver (n : Nat)
  | flush (n : Nat)
  | recv (n : Nat)
  | giveUp
  deriving DecidableEq

def step (env : Env σ) (s : LockStep σ) : Label → Option (LockStep σ)
  | .call =>
    match s.client, s.todo with
    | .idle, r :: todo => some { s with todo := todo, client := .sending (message codec r) }
    | _, _ => none
  | .send n =>
    match s.client with
    | .sending unsent =>
      if 0 < n ∧ n ≤ unsent.length then some { s with
        client := if n = unsent.length then .header [] else .sending (unsent.drop n)
        up := s.up ++ unsent.take n }
      else none
    | _ => none
  | .deliver n =>
    if 0 < n ∧ n ≤ s.up.length then some { s with up := s.up.drop n, conn := deliver env s.conn (s.up.take n) }
    else none
  | .flush n =>
    if 0 < n ∧ n ≤ s.pending.length then some { s with flushed := s.flushed + n, down := s.down ++ s.pending.take n }
    else none
  | .recv n =>
    match s.client with
    | .header got =>
      if 0 < n ∧ n ≤ s.down.length ∧ got.length + n ≤ sizeofProxyMsgHeader then
        let (client, replies) := headerGot (got ++ s.down.take n)
        some { s with client := client, replies := s.replies ++ replies, down := s.down.drop n }
      else none
    | .body len got =>
      if 0 < n ∧ n ≤ s.down.length ∧ got.length + n ≤ len then
        let (client, replies) := bodyGot codec len (got ++ s.down.take n)
        some { s with client := client, replies := s.replies ++ replies, down := s.down.drop n }
      else none
    | _ => none
  | .giveUp => if s.client = .idle then none else some { s with client := .failed }

def LockStep.init (service : σ) (todo : List SoaProxyRequest) : LockStep σ :=
  ⟨todo, .idle, [], [], .init service, 0, []⟩

/-! ## What the client is to get -/

variable (env : Env σ)

def replyOf : Option Bytes → Int × Bytes
  | some buf => (0, buf)
  | none => (1, [])

/-- The replies to requests made one after the other. -/
def repliesTo (service : σ) : List SoaProxyRequest → List Reply
  | [] => []
  | r :: rs =>
    some (replyOf (env.invokeService service r).2) :: repliesTo (env.invokeService service r).1 rs

/-- How many steps the requests can take: each byte goes up in two, and down in two. -/
def work (service : σ) : List SoaProxyRequest → Nat
  | [] => 0
  | r :: rs => 1 + 2 * (message codec r).length + 2 * (responseFrame env (env.invokeService service r).2).length +
      work (env.invokeService service r).1 rs

/-- The codec gives back what was packed, and packs no message into nothing. -/
structure Codec.Lawful (codec : Codec) (env : Env σ) : Prop where
  request : ∀ r, env.unpack (codec.packRequest r) = some r
  response : ∀ result, codec.unpackResponse (packedResponse env result) = some (replyOf result)
  request_ne_nil : ∀ r, codec.packRequest r ≠ []
  response_ne_nil : ∀ result, packedResponse env result ≠ []

/-- Every message fits the length in front of it. -/
def Small (service : σ) : List SoaProxyRequest → Prop
  | [] => True
  | r :: rs => (codec.packRequest r).length < 2 ^ 31 ∧
      (packedResponse env (env.invokeService service r).2).length < 2 ^ 32 ∧ Small (env.invokeService service r).1 rs

/-! ## Where a run can be -/

/-- The client has `rest` to receive of the frame of `packed`. -/
inductive Reading (packed : Bytes) : Client → Bytes → Prop
  | header {got rest : Bytes} : got.length < sizeofProxyMsgHeader → got ++ rest = frame packed →
      Reading packed (.header got) rest
  | body {got rest : Bytes} : rest ≠ [] → got ++ rest = packed → Reading packed (.body packed.length got) rest

/-- The client has `unsent` of a request left to send. -/
inductive Asking : Client → Bytes → Prop
  | sending {unsent : Bytes} : unsent ≠ [] → Asking (.sending unsent) unsent
  | sent : Asking (.header []) []

/-- A state of a run that ends with the replies `final`, with `w` of its work left. -/
inductive Along : LockStep σ → List Reply → Nat → Prop
  | idle {s : LockStep σ} (client : s.client = .idle) (input : s.conn.input = []) (up : s.up = [])
      (pending : s.pending = []) (down : s.down = []) (small : Small codec env s.conn.service s.todo) :
      Along s (s.replies ++ repliesTo env s.conn.service s.todo) (work codec env s.conn.service s.todo)
  | asking {s : LockStep σ} {r : SoaProxyRequest} {unsent : Bytes} (client : Asking s.client unsent)
      (bytes : s.conn.input ++ (s.up ++ unsent) = message codec r)
      (short : s.conn.input.length < (message codec r).length) (pending : s.pending = []) (down : s.down = [])
      (small : Small codec env s.conn.service (r :: s.todo)) :
      Along s (s.replies ++ repliesTo env s.conn.service (r :: s.todo))
        (2 * unsent.length + s.up.length + 2 * (responseFrame env (env.invokeService s.conn.service r).2).length +
          work codec env (env.invokeService s.conn.service r).1 s.todo)
  | answered {s : LockStep σ} {result : Option Bytes}
      (client : Reading (packedResponse env result) s.client (s.down ++ s.pending)) (input : s.conn.input = [])
      (up : s.up = []) (short : (packedResponse env result).length < 2 ^ 32)
      (small : Small codec env s.conn.service s.todo) :
      Along s (s.replies ++ some (replyOf result) :: repliesTo env s.conn.service s.todo)
        (2 * s.pending.length + s.down.length + work codec env s.conn.service s.todo)

/-- The server has not closed, and has written no more than there was. -/
structure Open (s : LockStep σ) : Prop where
  conn : s.conn.closed = false
  flushed : s.flushed ≤ s.conn.output.flatten.length

variable {codec env} {s t : LockStep σ} {final : List Reply} {w : Nat}

theorem message_eq (r : SoaProxyRequest) : message codec r = frame (codec.packRequest r) := prequestEncode_eq ..

theorem message_ne_nil (r : SoaProxyRequest) : message codec r ≠ [] := by
  rw [message_eq]
  exact List.ne_nil_of_length_pos (by rw [length_frame]; omega)

/-! ## One step -/

theorem step_call (h : Along codec env s final w) (ho : Open s) (hs : step codec env s .call = some t) :
    ∃ w' < w, Along codec env t final w' ∧ Open t := by
  simp only [step] at hs
  split at hs
  case h_2 => cases hs
  case h_1 r todo hclient htodo =>
    obtain rfl := Option.some.inj hs
    cases h with
    | asking client => rw [hclient] at client; cases client
    | answered client => rw [hclient] at client; cases client
    | idle _ input up pending down small =>
      rw [htodo] at small ⊢
      have hpos : 0 < (message codec r).length := List.length_pos_iff.mpr (message_ne_nil r)
      refine ⟨_, ?_, .asking (.sending (message_ne_nil r)) ?_ ?_ pending down small, ⟨ho.conn, ho.flushed⟩⟩
      · simp only [up, work, List.length_nil]
        omega
      · simp only [input, up, List.nil_append]
      · simp only [input, List.length_nil]
        exact hpos

theorem step_send {n : Nat} (h : Along codec env s final w) (ho : Open s) (hs : step codec env s (.send n) = some t) :
    ∃ w' < w, Along codec env t final w' ∧ Open t := by
  simp only [step] at hs
  split at hs
  case h_2 => cases hs
  case h_1 unsent hclient =>
    split at hs
    case isFalse => cases hs
    case isTrue hn =>
      obtain rfl := Option.some.inj hs
      cases h with
      | idle client => rw [hclient] at client; cases client
      | answered client => rw [hclient] at client; cases client
      | asking client bytes short pending down small =>
        rw [hclient] at client
        cases client with
        | sending hne =>
          have hasking : Asking (if n = unsent.length then .header [] else .sending (unsent.drop n)) (unsent.drop n) := by
            split
            case isTrue he => rw [he, List.drop_length]; exact .sent
            case isFalse he =>
              refine .sending (List.ne_nil_of_length_pos ?_)
              rw [List.length_drop]
              omega
          refine ⟨_, ?_, .asking hasking ?_ short pending down small, ⟨ho.conn, ho.flushed⟩⟩
          · simp only [List.length_drop, List.length_append, List.length_take]
            omega
          · simp only [List.append_assoc, List.take_append_drop]
            exact bytes

/-- A read that leaves the request incomplete, and one that completes it. -/
theorem deliver_request (hl : codec.Lawful env) {c : Conn σ} {r : SoaProxyRequest} {chunk more : Bytes}
    (hc : c.closed = false) (hbytes : c.input ++ (chunk ++ more) = message codec r)
    (hsmall : (codec.packRequest r).length < 2 ^ 31) :
    ((c.input ++ chunk).length < (message codec r).length ∧ deliver env c chunk = c.withInput (c.input ++ chunk)) ∨
      more = [] ∧ deliver env c chunk =
        { c with
          input := []
          output := c.output ++ [responseFrame env (env.invokeService c.service r).2]
          service := (env.invokeService c.service r).1 } := by
  have hfits : (codec.packRequest r).length < 2 ^ 32 := by omega
  have hwell : WellFormed env (codec.packRequest r) := ⟨hl.request_ne_nil r, hfits, by rw [hl.request]; rfl⟩
  rw [message_eq] at hbytes ⊢
  rw [deliver_open hc]
  by_cases hlt : (c.input ++ chunk).length < (frame (codec.packRequest r)).length
  · refine .inl ⟨hlt, readcb_wait (Bool.eq_false_iff.mpr fun hread => ?_)⟩
    have hsplit : (c.input ++ chunk) ++ more = frame (codec.packRequest r) ++ [] := by
      rw [List.append_nil, List.append_assoc, hbytes]
    exact absurd hlt (Nat.not_lt.mpr ((canRead_frame more hfits hsplit).mp hread))
  · have hlen := congrArg List.length hbytes
    rw [← List.append_assoc, List.length_append] at hlen
    have hmore : more = [] := List.eq_nil_of_length_eq_zero (by omega)
    subst hmore
    rw [List.append_nil] at hbytes
    refine .inr ⟨rfl, ?_⟩
    have hinput : (c.withInput (c.input ++ chunk)).input = frame (codec.packRequest r) ++ [] := by
      rw [List.append_nil]
      exact hbytes
    rw [readcb_frame hwell hinput, answer, if_pos hsmall, hl.request]
    rfl

theorem step_deliver {n : Nat} (hl : codec.Lawful env) (h : Along codec env s final w) (ho : Open s)
    (hs : step codec env s (.deliver n) = some t) : ∃ w' < w, Along codec env t final w' ∧ Open t := by
  simp only [step] at hs
  split at hs
  case isFalse => cases hs
  case isTrue hn =>
    obtain rfl := Option.some.inj hs
    cases h with
    | idle _ _ up => rw [up, List.length_nil] at hn; omega
    | answered _ _ up => rw [up, List.length_nil] at hn; omega
    | @asking r unsent client bytes short pending down small =>
      have hsplit : s.conn.input ++ (s.up.take n ++ (s.up.drop n ++ unsent)) = message codec r := by
        rw [← bytes, ← List.append_assoc (s.up.take n), List.take_append_drop]
      have hup : (s.up.drop n).length < s.up.length := by
        rw [List.length_drop]
        omega
      obtain ⟨hrequest, hresponse, hrest⟩ := small
      rcases deliver_request hl ho.conn hsplit hrequest with ⟨hlt, hdel⟩ | ⟨hnil, hdel⟩
      · rw [hdel]
        refine ⟨_, ?_, .asking client ?_ hlt pending down ⟨hrequest, hresponse, hrest⟩, ⟨ho.conn, ho.flushed⟩⟩
        · dsimp only [Conn.withInput]
          omega
        · dsimp only [Conn.withInput]
          rw [List.append_assoc, hsplit]
      · obtain ⟨hdrop, hunsent⟩ := List.append_eq_nil_iff.mp hnil
        rw [hdel]
        subst hunsent
        have hclient : s.client = .header [] := by
          cases hc : s.client with
          | header got => rw [hc] at client; cases client; rfl
          | sending u => rw [hc] at client; cases client with | sending hne => exact absurd rfl hne
          | _ => rw [hc] at client; cases client
        have hout :
            (s.conn.output ++ [responseFrame env (env.invokeService s.conn.service r).2]).flatten.drop s.flushed =
            responseFrame env (env.invokeService s.conn.service r).2 := by
          have hpending : s.conn.output.flatten.drop s.flushed = [] := pending
          rw [List.flatten_append, List.drop_append_of_le_length ho.flushed, hpending]
          simp
        refine ⟨_, ?_, .answered ?_ rfl hdrop hresponse hrest,
          ⟨ho.conn, ?_⟩⟩
        · dsimp only [LockStep.pending]
          rw [hout, down]
          simp only [List.length_nil]
          omega
        · dsimp only [LockStep.pending]
          rw [hout, down, hclient, List.nil_append]
          exact .header (by decide) rfl
        · dsimp only
          rw [List.flatten_append, List.length_append]
          exact Nat.le_trans ho.flushed (Nat.le_add_right _ _)

theorem step_flush {n : Nat} (h : Along codec env s final w) (ho : Open s) (hs : step codec env s (.flush n) = some t) :
    ∃ w' < w, Along codec env t final w' ∧ Open t := by
  simp only [step] at hs
  split at hs
  case isFalse => cases hs
  case isTrue hn =>
    obtain rfl := Option.some.inj hs
    have hdrop : LockStep.pending { s with flushed := s.flushed + n, down := s.down ++ s.pending.take n } =
        s.pending.drop n := by
      rw [LockStep.pending, LockStep.pending, List.drop_drop]
    have hopen : s.flushed + n ≤ s.conn.output.flatten.length := by
      have hle := hn.2
      rw [LockStep.pending, List.length_drop] at hle
      omega
    cases h with
    | idle _ _ _ pending => rw [pending, List.length_nil] at hn; omega
    | asking _ _ _ pending => rw [pending, List.length_nil] at hn; omega
    | answered client input up short small =>
      refine ⟨_, ?_, .answered ?_ input up short small, ⟨ho.conn, hopen⟩⟩
      · simp only [hdrop, List.length_drop, List.length_append, List.length_take]
        omega
      · simp only [hdrop, List.append_assoc, List.take_append_drop]
        exact client

/-- A piece of the header. -/
theorem reading_header {packed got piece rest : Bytes} (hsmall : packed.length < 2 ^ 32) (hne : packed ≠ [])
    (hle : (got ++ piece).length ≤ sizeofProxyMsgHeader) (hbytes : (got ++ piece) ++ rest = frame packed) :
    ∃ client, headerGot (got ++ piece) = (client, []) ∧ Reading packed client rest := by
  generalize got ++ piece = got at hle hbytes
  by_cases hfull : got.length = sizeofProxyMsgHeader
  · have hparts : got = be32 packed.length ∧ rest = packed :=
      List.append_inj hbytes (by rw [hfull, length_be32])
    obtain ⟨rfl, rfl⟩ := hparts
    have hlen : ofBe32 (be32 rest.length) = rest.length := by
      have := ofBe32_be32 rest.length []
      rwa [List.append_nil, Nat.mod_eq_of_lt hsmall] at this
    have hpos : rest.length ≠ 0 := fun h => hne (List.eq_nil_of_length_eq_zero h)
    refine ⟨.body rest.length [], ?_, .body hne rfl⟩
    rw [headerGot, if_pos hfull, hlen, if_neg hpos]
  · exact ⟨.header got, if_neg hfull, .header (by omega) hbytes⟩

/-- A piece of the body, or the last one. -/
theorem reading_body {result : Option Bytes} {got rest : Bytes} (hl : codec.Lawful env)
    (hbytes : got ++ rest = packedResponse env result) :
    (rest = [] ∧ bodyGot codec (packedResponse env result).length got = (.idle, [some (replyOf result)])) ∨
      ∃ client, bodyGot codec (packedResponse env result).length got = (client, []) ∧
        Reading (packedResponse env result) client rest := by
  by_cases hnil : rest = []
  · refine .inl ⟨hnil, ?_⟩
    rw [hnil, List.append_nil] at hbytes
    rw [hbytes, bodyGot, if_pos rfl, hl.response]
  · refine .inr ⟨.body (packedResponse env result).length got, if_neg ?_, .body hnil hbytes⟩
    have hpos := List.length_pos_iff.mpr hnil
    rw [← hbytes, List.length_append]
    omega

theorem step_recv {n : Nat} (hl : codec.Lawful env) (h : Along codec env s final w) (ho : Open s)
    (hs : step codec env s (.recv n) = some t) : ∃ w' < w, Along codec env t final w' ∧ Open t := by
  simp only [step] at hs
  split at hs
  case h_3 => cases hs
  case h_1 got hclient =>
    split at hs
    case isFalse => cases hs
    case isTrue hn =>
      obtain rfl := Option.some.inj hs
      cases h with
      | idle client => rw [hclient] at client; cases client
      | asking _ _ _ _ down => rw [down, List.length_nil] at hn; omega
      | @answered result client input up short small =>
        rw [hclient] at client
        cases client with
        | header hlt hbytes =>
          have hsplit : (got ++ s.down.take n) ++ (s.down.drop n ++ s.pending) = frame (packedResponse env result) := by
            rw [← hbytes, List.append_assoc, ← List.append_assoc (s.down.take n), List.take_append_drop]
          have hle : (got ++ s.down.take n).length ≤ sizeofProxyMsgHeader := by
            rw [List.length_append, List.length_take]
            omega
          obtain ⟨client, hgot, hread⟩ := reading_header short (hl.response_ne_nil result) hle hsplit
          have hnone (l : List Reply) : l ++ [] = l := List.append_nil l
          rw [hgot]
          dsimp only
          rw [hnone]
          refine ⟨_, ?_, .answered hread input up short small, ⟨ho.conn, ho.flushed⟩⟩
          simp only [LockStep.pending, List.length_drop]
          omega
  case h_2 len got hclient =>
    split at hs
    case isFalse => cases hs
    case isTrue hn =>
      obtain rfl := Option.some.inj hs
      cases h with
      | idle client => rw [hclient] at client; cases client
      | asking _ _ _ _ down => rw [down, List.length_nil] at hn; omega
      | @answered result client input up short small =>
        rw [hclient] at client
        cases client with
        | body hne hbytes =>
          have hsplit : (got ++ s.down.take n) ++ (s.down.drop n ++ s.pending) = packedResponse env result := by
            rw [← hbytes, List.append_assoc, ← List.append_assoc (s.down.take n), List.take_append_drop]
          rcases reading_body hl hsplit with ⟨hnil, hgot⟩ | ⟨client, hgot, hread⟩
          · obtain ⟨hdown, hpending⟩ := List.append_eq_nil_iff.mp hnil
            rw [hgot]
            dsimp only
            have hfinal : s.replies ++ some (replyOf result) :: repliesTo env s.conn.service s.todo =
                s.replies ++ [some (replyOf result)] ++ repliesTo env s.conn.service s.todo := by
              rw [List.append_assoc]
              rfl
            rw [hfinal]
            refine ⟨_, ?_, .idle rfl input up hpending hdown small, ⟨ho.conn, ho.flushed⟩⟩
            dsimp only
            omega
          · rw [hgot]
            dsimp only
            rw [List.append_nil]
            refine ⟨_, ?_, .answered hread input up short small, ⟨ho.conn, ho.flushed⟩⟩
            simp only [LockStep.pending, List.length_drop]
            omega

/-- Every step but giving up does some of the work. -/
theorem step_along {a : Label} (hl : codec.Lawful env) (h : Along codec env s final w) (ho : Open s)
    (ha : a ≠ .giveUp) (hs : step codec env s a = some t) : ∃ w' < w, Along codec env t final w' ∧ Open t := by
  cases a with
  | call => exact step_call h ho hs
  | send n => exact step_send h ho hs
  | deliver n => exact step_deliver hl h ho hs
  | flush n => exact step_flush h ho hs
  | recv n => exact step_recv hl h ho hs
  | giveUp => exact absurd rfl ha

/-- There is always something to do but give up, until the last reply is there. -/
theorem progress (h : Along codec env s final w) :
    (∃ a, a ≠ .giveUp ∧ (step codec env s a).isSome = true) ∨ s.client = .idle ∧ s.replies = final := by
  cases h with
  | idle client =>
    cases htodo : s.todo with
    | nil => exact .inr ⟨client, (List.append_nil _).symm⟩
    | cons r todo =>
      refine .inl ⟨.call, nofun, ?_⟩
      simp only [step, client, htodo]
      rfl
  | @asking r unsent client bytes short =>
    cases client' : s.client with
    | sending u =>
      rw [client'] at client
      cases client with
      | sending hne =>
        have hpos := List.length_pos_iff.mpr hne
        refine .inl ⟨.send 1, nofun, ?_⟩
        simp only [step, client']
        rw [if_pos ⟨Nat.one_pos, hpos⟩]
        rfl
    | header got =>
      rw [client'] at client
      cases client with
      | sent =>
        -- all of it is sent, and the server waits for the rest
        have hlen := congrArg List.length bytes
        simp only [List.append_nil, List.length_append] at hlen
        refine .inl ⟨.deliver 1, nofun, ?_⟩
        simp only [step]
        rw [if_pos ⟨Nat.one_pos, by omega⟩]
        rfl
    | _ => rw [client'] at client; cases client
  | answered client =>
    by_cases hpending : s.pending = []
    · have hdown : s.down ≠ [] → 0 < s.down.length := List.length_pos_iff.mpr
      rw [hpending, List.append_nil] at client
      cases client' : s.client with
      | header got =>
        rw [client'] at client
        cases client with
        | header hlt hbytes =>
          have hlen := congrArg List.length hbytes
          rw [List.length_append, length_frame] at hlen
          refine .inl ⟨.recv 1, nofun, ?_⟩
          have hsize : sizeofProxyMsgHeader = 4 := rfl
          simp only [step, client']
          rw [if_pos ⟨Nat.one_pos, by omega, by omega⟩]
          rfl
      | body len got =>
        rw [client'] at client
        cases client with
        | body hne hbytes =>
          have hlen := congrArg List.length hbytes
          rw [List.length_append] at hlen
          have hpos := hdown hne
          refine .inl ⟨.recv 1, nofun, ?_⟩
          simp only [step, client']
          rw [if_pos ⟨Nat.one_pos, hpos, by omega⟩]
          rfl
      | _ => rw [client'] at client; cases client
    · have hpos := List.length_pos_iff.mpr hpending
      refine .inl ⟨.flush 1, nofun, ?_⟩
      simp only [step]
      rw [if_pos ⟨Nat.one_pos, hpos⟩]
      rfl

/-! ## Whole runs -/

theorem Along.prefix_final (h : Along codec env s final w) : s.replies <+: final := by
  cases h with
  | idle => exact List.prefix_append _ _
  | asking => exact List.prefix_append _ _
  | answered => exact List.prefix_append _ _

theorem along_init {service : σ} {todo : List SoaProxyRequest} (h : Small codec env service todo) :
    Along codec env (.init service todo) (repliesTo env service todo) (work codec env service todo) ∧
      Open (LockStep.init service todo) :=
  ⟨.idle rfl rfl rfl rfl rfl h, rfl, Nat.zero_le _⟩

/-- A client that has given up receives nothing more. -/
theorem step_failed {a : Label} (hf : s.client = .failed) (hs : step codec env s a = some t) :
    t.client = .failed ∧ t.replies = s.replies := by
  cases a with
  | call => simp only [step, hf] at hs; cases hs
  | send n => simp only [step, hf] at hs; cases hs
  | recv n => simp only [step, hf] at hs; cases hs
  | deliver n =>
    simp only [step] at hs
    split at hs
    · obtain rfl := Option.some.inj hs; exact ⟨hf, rfl⟩
    · cases hs
  | flush n =>
    simp only [step] at hs
    split at hs
    · obtain rfl := Option.some.inj hs; exact ⟨hf, rfl⟩
    · cases hs
  | giveUp =>
    simp only [step] at hs
    split at hs
    · cases hs
    · obtain rfl := Option.some.inj hs; exact ⟨rfl, rfl⟩

theorem step_giveUp (hs : step codec env s .giveUp = some t) : t.client = .failed ∧ t.replies = s.replies := by
  simp only [step] at hs
  split at hs
  · cases hs
  · obtain rfl := Option.some.inj hs; exact ⟨rfl, rfl⟩

/-- After the steps `as`, of which `w₀` bounds the number unless the client gives up. -/
structure Ran (codec : Codec) (env : Env σ) (final : List Reply) (w₀ : Nat) (as : List Label) (s : LockStep σ) :
    Prop where
  received : s.replies <+: final
  failed : .giveUp ∈ as → s.client = .failed
  along : .giveUp ∉ as → ∃ w, as.length + w ≤ w₀ ∧ Along codec env s final w ∧ Open s

theorem Ran.next {w₀ : Nat} {as : List Label} {a : Label} (hl : codec.Lawful env) (h : Ran codec env final w₀ as s)
    (hs : step codec env s a = some t) : Ran codec env final w₀ (as ++ [a]) t := by
  by_cases hmem : .giveUp ∈ as
  · obtain ⟨hclient, hreplies⟩ := step_failed (h.failed hmem) hs
    refine ⟨by rw [hreplies]; exact h.received, fun _ => hclient, fun hnot => ?_⟩
    exact absurd (List.mem_append_left _ hmem) hnot
  · obtain ⟨w, hw, halong, hopen⟩ := h.along hmem
    by_cases ha : a = .giveUp
    · subst ha
      obtain ⟨hclient, hreplies⟩ := step_giveUp hs
      refine ⟨by rw [hreplies]; exact h.received, fun _ => hclient, fun hnot => ?_⟩
      exact absurd (List.mem_append_right _ List.mem_cons_self) hnot
    · obtain ⟨w', hlt, halong', hopen'⟩ := step_along hl halong hopen ha hs
      refine ⟨halong'.prefix_final, fun hin => ?_, fun _ => ⟨w', ?_, halong', hopen'⟩⟩
      · rcases List.mem_append.mp hin with h | h
        · exact absurd h hmem
        · exact absurd (List.mem_singleton.mp h).symm ha
      · rw [List.length_append, List.length_singleton]
        omega

/-- Whatever the order of the steps and the pieces the bytes come in: only the first
    replies in order, and all of them unless the client gives up. -/
theorem lockStep_correct (hl : codec.Lawful env) {service : σ} {todo : List SoaProxyRequest}
    (hsmall : Small codec env service todo) {as : List Label} {t : LockStep σ}
    (h : as.foldlM (step codec env) (.init service todo) = some t) :
    t.replies <+: repliesTo env service todo ∧
      (.giveUp ∉ as → as.length ≤ work codec env service todo ∧
        ((∀ a, a ≠ .giveUp → step codec env t a = none) →
          t.client = .idle ∧ t.replies = repliesTo env service todo)) := by
  obtain ⟨hstart, hopen⟩ := along_init hsmall
  have hinit : Ran codec env (repliesTo env service todo) (work codec env service todo) [] (.init service todo) :=
    ⟨hstart.prefix_final, fun hin => absurd hin List.not_mem_nil,
      fun _ => ⟨_, Nat.le_of_eq (Nat.zero_add _), hstart, hopen⟩⟩
  have hran := Machine.foldlM_inv hinit (fun as s a u hs hstep => hs.next hl hstep) h
  refine ⟨hran.received, fun hno => ?_⟩
  obtain ⟨w, hw, halong, -⟩ := hran.along hno
  refine ⟨by omega, fun hstuck => ?_⟩
  rcases progress halong with ⟨a, ha, hsome⟩ | hdone
  · rw [hstuck a ha] at hsome
    cases hsome
  · exact hdone

def sampleCodec : Codec := ⟨packSoaProxyRequest, unpackSoaProxyResponse⟩

/-- A service that answers with the number of its request. -/
def countingEnv : Env (List SoaProxyRequest) :=
  { notingEnv with invokeService := fun noted reqMsg => (noted ++ [reqMsg], some [noted.length.toUInt8]) }

theorem sampleCodec_lawful : sampleCodec.Lawful countingEnv where
  request := unpack_pack
  response result := by
    cases result with
    | none => exact unpack_notingEnv 1 [] (.inr rfl)
    | some buf => exact unpack_notingEnv 0 buf (.inl rfl)
  request_ne_nil := pack_ne_nil
  response_ne_nil result := by
    cases result with
    | none => exact List.cons_ne_nil _ _
    | some buf => exact List.cons_ne_nil _ _

def sampleRequests : List SoaProxyRequest :=
  [⟨.lit "g", .lit "s", .lit "v", [0, 255]⟩, ⟨.lit "g", .lit "s", .lit "v", []⟩]

/-- Two requests and their replies, the first ones in pieces. -/
def sampleRun : List Label :=
  [.call, .send 5, .deliver 2, .send 12, .deliver 15, .flush 9, .recv 1, .recv 3, .recv 5, .call, .send 15, .deliver 15,
    .flush 9, .recv 4, .recv 5]

theorem lockStep_correct_sample : ∃ t,
    sampleRun.foldlM (step sampleCodec countingEnv) (.init [] sampleRequests) = some t ∧
      t.replies = [some (0, [0]), some (0, [1])] ∧ t.replies <+: repliesTo countingEnv [] sampleRequests ∧
      sampleRun.length ≤ work sampleCodec countingEnv [] sampleRequests := by
  have hrun : (sampleRun.foldlM (step sampleCodec countingEnv) (.init [] sampleRequests)).map LockStep.replies =
      some [some (0, [0]), some (0, [1])] := by decide
  obtain ⟨t, ht, hreplies⟩ := Option.map_eq_some_iff.mp hrun
  have hsmall : Small sampleCodec countingEnv [] sampleRequests := ⟨by decide, by decide, by decide, by decide, trivial⟩
  obtain ⟨hpre, hwork⟩ := lockStep_correct sampleCodec_lawful hsmall ht
  exact ⟨t, ht, hreplies, hpre, (hwork (by decide)).1⟩

end Ddm.Proxy
