/-
  Ddm.Invoke.CrossTalk — a call that returns 0 returns the answer to its own request.

  Late answers stay on connections that go back to a pool, and a retry sends the same
  identifier again on a new socket. The invariant `Tagged` does not say where answers
  may be; it says that whatever carries an identifier (a call, a request, an answer)
  carries the request that identifier was taken for, or its provider's answer to it.
  Identifiers are told apart as long as the counter has not come round, and that the
  provider is the call's own is `Holding`.

  Assumed of the environment (`Provider`): a peer answers a request with its identifier,
  the response type and its answer to the body; what else is read (a damaged frame, or
  what a stream out of step yields) fails the CRC.

  Proved: `no_cross_talk`.
-/

import Ddm.Invoke.Holding

namespace Ddm.Invoke

open Ddm.Lib Ddm.Lib.Machine Ddm.Pool Ddm.Wire

-- what the provider at an address answers to a request body
variable (answer : Address → Bytes → Bytes)

def answerFrame (provider : Address) (req : Request) : Response :=
  ⟨true, req.identifier, getRespType bizReqMsgType, answer provider req.body⟩

/-- The providers' behaviour, and fewer than 2^32 calls. -/
def Provider (s : St) : Label → Prop
  | .respond fd k f =>
    f.crcOk = false ∨ ((s.heap.socks fd).stream.owed[k]?).map (answerFrame answer (s.heap.socks fd).peer) = some f
  | .receive _ (.garbage f) => f.crcOk = false
  | .identify _ => s.issued.length + 1 < 2 ^ 32
  | _ => True

/-! ## Identifiers -/

/-- `identifier` was taken for a call with this body. -/
def Issued (issued : List Bytes) (identifier : UInt32) (body : Bytes) : Prop :=
  ∃ n, issued[n]? = some body ∧ identifier = UInt32.ofNat (n + 1)

theorem Issued.unique {issued : List Bytes} {identifier : UInt32} {body body' : Bytes} (hlen : issued.length < 2 ^ 32)
    (h : Issued issued identifier body) (h' : Issued issued identifier body') : body = body' := by
  obtain ⟨n, hn, rfl⟩ := h
  obtain ⟨n', hn', he⟩ := h'
  obtain ⟨hlt, -⟩ := List.getElem?_eq_some_iff.mp hn
  obtain ⟨hlt', -⟩ := List.getElem?_eq_some_iff.mp hn'
  have hnat := congrArg UInt32.toNat he
  rw [UInt32.toNat_ofNat', UInt32.toNat_ofNat', Nat.mod_eq_of_lt (by omega), Nat.mod_eq_of_lt (by omega)] at hnat
  obtain rfl : n = n' := by omega
  exact Option.some.inj (hn.symm.trans hn')

theorem Issued.append {issued : List Bytes} {identifier : UInt32} {body : Bytes} (h : Issued issued identifier body)
    (b : Bytes) : Issued (issued ++ [b]) identifier body := by
  obtain ⟨n, hn, he⟩ := h
  obtain ⟨hlt, -⟩ := List.getElem?_eq_some_iff.mp hn
  exact ⟨n, by rw [List.getElem?_append_left hlt]; exact hn, he⟩

theorem Issued.new (issued : List Bytes) (b : Bytes) :
    Issued (issued ++ [b]) (UInt32.ofNat (issued ++ [b]).length) b :=
  ⟨issued.length, by simp, by simp⟩

/-! ## The invariant -/

/-- Every request on a stream is an issued one, and every answer the CRC lets through is
    the peer's answer to an issued one. -/
def Sound (issued : List Bytes) (peer : Address) (e : Exchange) : Prop :=
  (∀ req ∈ e.owed, Issued issued req.identifier req.body) ∧
    ∀ f ∈ e.fifo, f.crcOk = true → ∃ req, Issued issued req.identifier req.body ∧ f = answerFrame answer peer req

def TaggedPc (pools : Nat → PoolObj) (issued : List Bytes) : Pc → Prop
  | .idle => True
  | .required _ _ _ => True
  | .sending c => Issued issued c.identifier c.reqBody
  | .receiving c => Issued issued c.identifier c.reqBody
  | .failed c => Issued issued c.identifier c.reqBody
  | .releasing c returnCode => returnCode = 0 → c.resBuf = answer (pools c.pool).address c.reqBody

structure Tagged (s : St) : Prop where
  holding : Holding s
  counter : s.counter = UInt32.ofNat s.issued.length
  bounded : s.issued.length < 2 ^ 32
  streams : Streams (Sound answer s.issued) s.heap
  workers : ∀ w, TaggedPc answer s.pools s.issued (s.workers w)
  returned : ∀ r ∈ s.returned, r.returnCode = 0 → r.resBuf = answer r.provider r.reqBody

variable {answer} {s t : St} {pools : Nat → PoolObj} {issued : List Bytes} {peer : Address} {e : Exchange}
  {h : Heap Exchange}

theorem Tagged.worker (hi : Tagged answer s) {w : Nat} {pc : Pc} (hw : s.workers w = pc) :
    TaggedPc answer s.pools s.issued pc := hw ▸ hi.workers w

theorem sound_empty (peer : Address) : Sound answer issued peer default :=
  ⟨fun _ h => absurd h List.not_mem_nil, fun _ h => absurd h List.not_mem_nil⟩

theorem Sound.append (hs : Sound answer issued peer e) (b : Bytes) : Sound answer (issued ++ [b]) peer e :=
  ⟨fun req hr => (hs.1 req hr).append b, fun f hf hc => by
    obtain ⟨req, hi, he⟩ := hs.2 f hf hc
    exact ⟨req, hi.append b, he⟩⟩

theorem Sound.send (hs : Sound answer issued peer e) {req : Request} (hi : Issued issued req.identifier req.body) :
    Sound answer issued peer (e.send req) := by
  unfold Exchange.send
  split
  · exact hs
  · refine ⟨fun r hr => ?_, hs.2⟩
    cases List.mem_append.mp hr with
    | inl hr => exact hs.1 r hr
    | inr hr => rw [List.mem_singleton.mp hr]; exact hi

theorem Sound.respond (hs : Sound answer issued peer e) {k : Nat} {f : Response}
    (hf : f.crcOk = false ∨ (e.owed[k]?).map (answerFrame answer peer) = some f) :
    Sound answer issued peer (e.respond k f) := by
  refine ⟨fun r hr => hs.1 r (List.mem_of_mem_eraseIdx hr), fun g hg hc => ?_⟩
  cases List.mem_append.mp hg with
  | inl hg => exact hs.2 g hg hc
  | inr hg =>
    obtain rfl := List.mem_singleton.mp hg
    cases hf with
    | inl hf => rw [hc] at hf; cases hf
    | inr hf =>
      obtain ⟨req, hk, he⟩ := Option.map_eq_some_iff.mp hf
      exact ⟨req, hs.1 req (List.mem_of_getElem? hk), he.symm⟩

theorem streams_onSock {P : Address → Exchange → Prop} (hs : Streams P h) (conn : Nat)
    {f : Sock Exchange → Sock Exchange} (hf : ∀ s, P s.peer s.stream → P (f s).peer (f s).stream) :
    Streams P (onSock h conn f) := by
  unfold onSock
  split
  · exact hs
  · exact hs.setSock _ (hf _ (hs _))

theorem TaggedPc.append {pc : Pc} (hp : TaggedPc answer pools issued pc) (b : Bytes) :
    TaggedPc answer pools (issued ++ [b]) pc := by
  cases pc with
  | idle => trivial
  | required => trivial
  | sending => exact Issued.append hp b
  | receiving => exact Issued.append hp b
  | failed => exact Issued.append hp b
  | releasing => exact hp

theorem tagged_attemptFailed {c : Call} (hi : Issued issued c.identifier c.reqBody) :
    TaggedPc answer pools issued (attemptFailed c) := by
  unfold attemptFailed
  split
  · exact hi
  · intro h0; cases h0

/-- A worker that does not move keeps its tag: the pool of its call keeps its address. -/
theorem Tagged.still (hi : Tagged answer s) {a : Label} (hs : step s a = some t) (w : Nat) :
    TaggedPc answer t.pools s.issued (s.workers w) := by
  have hw := hi.workers w
  have haddr : ∀ p c, (s.workers w).holds = some (p, c) → (t.pools p).address = (s.pools p).address :=
    fun p c hh => step_address hi.holding hh hs
  cases hpc : s.workers w with
  | releasing c returnCode =>
    rw [hpc] at hw haddr
    intro h0
    rw [haddr c.pool c.conn rfl]
    exact hw h0
  | _ => rw [hpc] at hw; exact hw

/-- A step in which only worker `w` moves, to `pc`. -/
theorem Tagged.move (hi : Tagged answer s) {a : Label} (hs : step s a = some t) {w : Nat} {pc : Pc}
    (hworkers : t.workers = Function.update s.workers w pc) (hpc : TaggedPc answer t.pools s.issued pc) :
    ∀ w', TaggedPc answer t.pools s.issued (t.workers w') := by
  intro w'
  rw [hworkers]
  by_cases e : w' = w
  · subst e; rw [Function.update_self]; exact hpc
  · rw [Function.update_of_ne e]; exact hi.still hs w'

theorem returned_append {returned : List Return} (hr : ∀ r ∈ returned, r.returnCode = 0 → r.resBuf = answer r.provider
    r.reqBody) {x : Return} (hx : x.returnCode = 0 → x.resBuf = answer x.provider x.reqBody) :
    ∀ r ∈ returned ++ [x], r.returnCode = 0 → r.resBuf = answer r.provider r.reqBody := by
  intro r hmem
  cases List.mem_append.mp hmem with
  | inl hmem => exact hr r hmem
  | inr hmem => rw [List.mem_singleton.mp hmem]; exact hx

/-! ## One step -/

/-- The step that matters: the answer a call takes off its stream is its own. -/
theorem taken_answer (hlen : issued.length < 2 ^ 32) {c : Call} {f : Response}
    (hi : Issued issued c.identifier c.reqBody)
    (hf : f.crcOk = true → ∃ req, Issued issued req.identifier req.body ∧ f = answerFrame answer peer req)
    (hs : succeeds c.identifier f.inbound = true) : f.inbound.outBuf = answer peer c.reqBody := by
  have hc : f.crcOk = true := by
    cases hc : f.crcOk with
    | true => rfl
    | false => simp [succeeds, Response.inbound, hc] at hs
  obtain ⟨req, hreq, rfl⟩ := hf hc
  have hid : req.identifier = c.identifier := by
    simp only [succeeds, Response.inbound, answerFrame, if_true, Bool.and_eq_true, decide_eq_true_eq,
      Option.some.injEq, Prod.mk.injEq] at hs
    exact hs.2.1
  rw [hid] at hreq
  exact congrArg (answer peer) (hreq.unique hlen hi)

theorem tagged_receive {w : Nat} {o : Receiving} (hi : Tagged answer s) (hok : Provider answer s (.receive w o))
    (hs : step s (.receive w o) = some t) : Tagged answer t := by
  have hold := holding_step hi.holding hs
  obtain ⟨c, m, heap, pc, hw, hr, rfl, rfl⟩ := step_receive hs
  have hcall : Issued s.issued c.identifier c.reqBody := hi.worker hw
  -- in each outcome: the streams stay sound, and what is taken is the call's own answer
  suffices hstep : Streams (Sound answer s.issued) heap ∧
      (succeeds c.identifier m = true → m.outBuf = answer (s.pools c.pool).address c.reqBody) by
    refine ⟨hold, hi.counter, hi.bounded, hstep.1, hi.move hs rfl ?_, hi.returned⟩
    split
    · rename_i hsucc
      exact fun _ => hstep.2 hsucc
    · exact tagged_attemptFailed hcall
  have hpeer : ∀ fd, (s.heap.conns c.conn).sockFd = some fd → (s.heap.socks fd).peer = (s.pools c.pool).address :=
    fun fd hfd => hi.holding.peer (by rw [hw]; rfl) hfd
  rcases receiveOn_cases hr with ⟨peer, owed, f, fifo, tornOut, rfl, hsock, rfl, rfl⟩ | ⟨f, sock, rfl, -, -, rfl, rfl⟩ |
    ⟨part, lost, rfl, rfl, rfl⟩
  · obtain ⟨fd, hfd, hsk⟩ := Option.map_eq_some_iff.mp hsock
    have hsound := hi.streams fd
    have hp := hpeer fd hfd
    rw [hsk] at hsound hp
    rw [← show peer = _ from hp]
    refine ⟨?_, taken_answer hi.bounded hcall (hsound.2 f List.mem_cons_self)⟩
    have he : onSock s.heap c.conn (fun s => { s with stream := { s.stream with fifo := fifo } }) =
        setSock s.heap fd ⟨true, true, peer, ⟨owed, fifo, false, tornOut⟩⟩ := by
      simp only [onSock, hfd, hsk]
    rw [he]
    exact hi.streams.setSock fd ⟨hsound.1, fun g hg => hsound.2 g (List.mem_cons_of_mem f hg)⟩
  · exact ⟨hi.streams, taken_answer hi.bounded hcall fun hc => by rw [show f.crcOk = false from hok] at hc; cases hc⟩
  · exact ⟨streams_onSock hi.streams c.conn fun _ hs => hs, fun hsucc => by simp [succeeds] at hsucc⟩

theorem tagged_step {a : Label} (hi : Tagged answer s) (hok : Provider answer s a) (hs : step s a = some t) :
    Tagged answer t := by
  have hold := holding_step hi.holding hs
  have hstill := hi.still hs
  cases a with
  | addPool =>
    obtain ⟨-, pool, heap, he, rfl⟩ := step_addPool hs
    have hheap : heap = (poolInitLoop _ s.heap _ _).2 := (congrArg Prod.snd he).symm
    exact ⟨hold, hi.counter, hi.bounded, hheap ▸ hi.streams.poolInitLoop sound_empty _ _ _, hstill, hi.returned⟩
  | require w p reqBody r now =>
    have hnew := hi.streams.connectNew sound_empty (s.pools p) r now
    obtain ⟨-, -, ⟨conn, rest, -, rfl⟩ | ⟨heap, hh, rfl⟩ | ⟨-, -, rfl⟩⟩ := step_require hs
    · exact ⟨hold, hi.counter, hi.bounded, hi.streams, hi.move hs rfl trivial, hi.returned⟩
    · refine ⟨hold, hi.counter, hi.bounded, ?_, hstill, returned_append hi.returned fun h0 => by cases h0⟩
      cases hh with
      | inl hh => exact hh ▸ hi.streams
      | inr hh => exact hh ▸ hnew
    · exact ⟨hold, hi.counter, hi.bounded, hnew, hi.move hs rfl trivial, hi.returned⟩
  | identify w =>
    obtain ⟨p, conn, reqBody, hw, rfl⟩ := step_identify hs
    have hcounter : s.counter + 1 = UInt32.ofNat (s.issued ++ [reqBody]).length := by
      rw [hi.counter, List.length_append, List.length_singleton, UInt32.ofNat_add]; rfl
    refine ⟨hold, hcounter, by rw [List.length_append]; exact hok, fun fd => (hi.streams fd).append reqBody,
      fun w' => ?_, hi.returned⟩
    by_cases e : w' = w
    · subst e
      simp only [Function.update_self, TaggedPc, hcounter]
      exact Issued.new s.issued reqBody
    · simp only [Function.update_of_ne e]
      exact (hi.workers w').append reqBody
  | send w o =>
    obtain ⟨c, ret, heap, pc, hw, he, rfl, rfl⟩ := step_send hs
    have hcall : Issued s.issued c.identifier c.reqBody := hi.worker hw
    have hheap : Streams (Sound answer s.issued) heap := by
      rcases sendMessage_cases he with ⟨-, -, -, rfl⟩ | ⟨wrote, lost, -, -, -, rfl⟩
      · exact streams_onSock hi.streams c.conn fun _ hs => Sound.send hs hcall
      · exact streams_onSock hi.streams c.conn fun _ hs => hs
    refine ⟨hold, hi.counter, hi.bounded, hheap, hi.move hs rfl ?_, hi.returned⟩
    split
    · exact hcall
    · exact tagged_attemptFailed hcall
  | receive w o => exact tagged_receive hi hok hs
  | reconnect w r now =>
    obtain ⟨c, hw, rfl⟩ := step_reconnect hs
    have hcall : Issued s.issued c.identifier c.reqBody := hi.worker hw
    exact ⟨hold, hi.counter, hi.bounded, hi.streams.connReconnect sound_empty c.conn r now, hi.move hs rfl hcall,
      hi.returned⟩
  | release w now =>
    obtain ⟨c, returnCode, hw, rfl⟩ := step_release hs
    exact ⟨hold, hi.counter, hi.bounded, hi.streams, hi.move hs rfl trivial, returned_append hi.returned (hi.worker hw)⟩
  | respond fd k f =>
    obtain ⟨-, -, rfl⟩ := step_respond hs
    exact ⟨hold, hi.counter, hi.bounded, hi.streams.setSock fd ((hi.streams fd).respond hok), hstill, hi.returned⟩

/-! ## Every run -/

theorem tagged_init : Tagged answer St.init :=
  ⟨holding_init, rfl, by decide, fun _ => sound_empty _, fun _ => trivial, fun _ h => absurd h List.not_mem_nil⟩

theorem no_cross_talk {s : St} (h : Reach step (Provider answer) St.init s) :
    ∀ r ∈ s.returned, r.returnCode = 0 → r.resBuf = answer r.provider r.reqBody :=
  (h.inv tagged_init fun _ _ _ hi hok hs => tagged_step hi hok hs).returned

/-! ## A late answer -/

instance (s : St) : (a : Label) → Decidable (Provider answer s a)
  | .addPool .. => isTrue trivial
  | .require .. => isTrue trivial
  | .identify _ => inferInstanceAs (Decidable (_ < _))
  | .send .. => isTrue trivial
  | .receive _ .message => isTrue trivial
  | .receive _ (.garbage f) => inferInstanceAs (Decidable (f.crcOk = false))
  | .receive _ (.failed ..) => isTrue trivial
  | .reconnect .. => isTrue trivial
  | .release .. => isTrue trivial
  | .respond .. => inferInstanceAs (Decidable (_ ∨ _))

def sampleAnswer (_ : Address) (body : Bytes) : Bytes := 7 :: body

/-- Worker 0 gives up after two timeouts. Worker 1 then gets the late answer of worker 0's
    call, turns it down, and is answered on a new socket. -/
def lateAnswer : List Label :=
  [.addPool 0 (.lit "h") 80 1 1 1 1 60 ⟨0, 0⟩ [.accepted],
    .require 0 0 [1] .noSocket ⟨0, 0⟩, .identify 0, .send 0 .sent, .receive 0 (.failed false false),
    .reconnect 0 .accepted ⟨1, 0⟩, .send 0 .sent, .receive 0 (.failed false false), .release 0 ⟨2, 0⟩,
    .require 1 0 [2] .noSocket ⟨2, 0⟩, .identify 1, .send 1 .sent, .respond 1 0 ⟨true, 1, 0x90, [7, 1]⟩,
    .receive 1 .message, .reconnect 1 .accepted ⟨3, 0⟩, .send 1 .sent, .respond 2 0 ⟨true, 2, 0x90, [7, 2]⟩,
    .receive 1 .message, .release 1 ⟨3, 0⟩]

theorem no_cross_talk_sample :
    ∃ s, (Reach step (Provider sampleAnswer) St.init s ∧
        decide (s.returned.map (fun r => (r.reqBody, r.returnCode, r.resBuf)) = [([1], -1, []), ([2], 0, [7, 2])]) = true) ∧
      ∀ r ∈ s.returned, r.returnCode = 0 → r.resBuf = sampleAnswer r.provider r.reqBody := by
  have hrun : ((exec step (Provider sampleAnswer) St.init lateAnswer).any fun s => decide (s.returned.map (fun r =>
      (r.reqBody, r.returnCode, r.resBuf)) = [([1], -1, []), ([2], 0, [7, 2])])) = true := by decide +kernel
  obtain ⟨s, hs, hret⟩ := reach_of_exec_any hrun
  exact ⟨s, ⟨hs, hret⟩, no_cross_talk hs⟩

end Ddm.Invoke
