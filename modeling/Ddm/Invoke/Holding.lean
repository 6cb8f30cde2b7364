/-
  Ddm.Invoke.Holding — whatever the environment does, a worker in a call holds one
  connection of its pool, no two workers hold the same, and a pool's connections and
  their sockets go to the pool's address.

  Proved: `holding_step`, and that a pool in use keeps its address (`step_address`).
-/

import Ddm.Invoke.Model

namespace Ddm.Invoke

open Ddm.Lib Ddm.Pool

/-- The pool and the connection a worker has. -/
def Pc.holds : Pc → Option (Nat × Nat)
  | .idle => none
  | .required pool conn _ => some (pool, conn)
  | .sending c => some (c.pool, c.conn)
  | .receiving c => some (c.pool, c.conn)
  | .failed c => some (c.pool, c.conn)
  | .releasing c _ => some (c.pool, c.conn)

structure Holding (s : St) : Prop where
  lists : Lists s.pools s.heap.nextConn (Pc.holds ∘ s.workers)
  fds : Fds s.heap
  uninited : ∀ p, (s.pools p).inited = false → (s.pools p).members = []
  address : ∀ p, ∀ c ∈ (s.pools p).members, (s.heap.conns c).address = (s.pools p).address

variable {s t : St} {w conn : Nat} {h : Heap Exchange} {f : Sock Exchange → Sock Exchange}

/-! ## Streams -/

@[simp] theorem onSock_conns (h : Heap Exchange) (conn : Nat) (f : Sock Exchange → Sock Exchange) :
    (onSock h conn f).conns = h.conns := by
  unfold onSock; split <;> rfl

@[simp] theorem onSock_nextConn (h : Heap Exchange) (conn : Nat) (f : Sock Exchange → Sock Exchange) :
    (onSock h conn f).nextConn = h.nextConn := by
  unfold onSock; split <;> rfl

theorem fds_setSock (hf : Fds h) (fd : Nat) {sk : Sock Exchange} (hp : sk.peer = (h.socks fd).peer) :
    Fds (setSock h fd sk) := by
  refine ⟨hf.below, hf.exclusive, fun c fd' hs => ?_⟩
  by_cases e : fd' = fd
  · subst e
    simp only [setSock, Function.update_self]
    exact hp.trans (hf.peer c fd' hs)
  · simp only [setSock, Function.update_of_ne e]
    exact hf.peer c fd' hs

theorem fds_onSock (hf : Fds h) (conn : Nat) (hp : ∀ sk, (f sk).peer = sk.peer) : Fds (onSock h conn f) := by
  unfold onSock
  split
  · exact hf
  · exact fds_setSock hf _ (hp _)

/-! ## Workers -/

theorem attemptFailed_holds (c : Call) : (attemptFailed c).holds = some (c.pool, c.conn) := by
  unfold attemptFailed; split <;> rfl

theorem holds_update {workers : Nat → Pc} {pc : Pc} (hw : pc.holds = (workers w).holds) :
    Pc.holds ∘ Function.update workers w pc = Pc.holds ∘ workers := by
  rw [Function.comp_update, hw]
  exact Function.update_eq_self w _

/-- A step that moves no connection between lists and allocates at most new objects. -/
theorem Holding.frame (hi : Holding s) (hp : t.pools = s.pools) (hn : s.heap.nextConn ≤ t.heap.nextConn)
    (hf : Fds t.heap) (ha : ∀ c < s.heap.nextConn, (t.heap.conns c).address = (s.heap.conns c).address)
    (hh : Pc.holds ∘ t.workers = Pc.holds ∘ s.workers) : Holding t := by
  refine ⟨by rw [hp, hh]; exact hi.lists.mono hn, hf, fun p => by rw [hp]; exact hi.uninited p, fun p c hc => ?_⟩
  rw [hp] at hc ⊢
  exact (ha c (hi.lists.below p c hc)).trans (hi.address p c hc)

/-- A step that changes one pool, from now on inited. -/
theorem Holding.update (hi : Holding s) {p : Nat} {pool : PoolObj} (hp : t.pools = Function.update s.pools p pool)
    (hl : Lists (Function.update s.pools p pool) t.heap.nextConn (Pc.holds ∘ t.workers)) (hf : Fds t.heap)
    (hin : pool.inited = true) (ha : ∀ c < s.heap.nextConn, (t.heap.conns c).address = (s.heap.conns c).address)
    (hnew : ∀ c ∈ pool.members, (t.heap.conns c).address = pool.address) : Holding t := by
  refine ⟨hp ▸ hl, hf, fun q hq => ?_, fun q c hc => ?_⟩
  · rw [hp] at hq ⊢
    by_cases e : q = p
    · subst e; rw [Function.update_self, hin] at hq; cases hq
    · rw [Function.update_of_ne e] at hq ⊢; exact hi.uninited q hq
  · rw [hp] at hc ⊢
    by_cases e : q = p
    · subst e; rw [Function.update_self] at hc ⊢; exact hnew c hc
    · rw [Function.update_of_ne e] at hc ⊢
      exact (ha c (hi.lists.below q c hc)).trans (hi.address q c hc)

theorem Holding.used (hi : Holding s) {p c : Nat} (hw : (s.workers w).holds = some (p, c)) :
    c ∈ (s.pools p).members := List.mem_append_right _ (hi.lists.held w p c hw)

theorem Holding.inited (hi : Holding s) {p c : Nat} (hc : c ∈ (s.pools p).members) : (s.pools p).inited = true := by
  cases hin : (s.pools p).inited with
  | true => rfl
  | false => rw [hi.uninited p hin] at hc; cases hc

/-- The peer of a held connection's socket is where its pool connects to. -/
theorem Holding.peer (hi : Holding s) {p c fd : Nat} (hw : (s.workers w).holds = some (p, c))
    (hfd : (s.heap.conns c).sockFd = some fd) : (s.heap.socks fd).peer = (s.pools p).address :=
  (hi.fds.peer c fd hfd).trans (hi.address p c (hi.used hw))

/-! ## One step -/

theorem holding_require {p : Nat} {reqBody : Bytes} {r : Connect} {now : Timeval} (hi : Holding s)
    (hs : step s (.require w p reqBody r now) = some t) : Holding t := by
  obtain ⟨-, hin, ht⟩ := step_require hs
  have hold : ∀ c < s.heap.nextConn, ((connectNew s.heap (s.pools p) r now).conns c).address =
      (s.heap.conns c).address := fun c hc =>
    congrArg ConnObj.address (connectNew_other hi.fds (s.pools p) r now hc).1
  have hnext := connectNew_nextConn s.heap (s.pools p) r now
  rcases ht with ⟨conn, rest, hu, rfl⟩ | ⟨heap, hh, rfl⟩ | ⟨hu, hr, rfl⟩
  · refine hi.update rfl ?_ hi.fds hin (fun _ _ => rfl) fun c hc => hi.address p c ?_
    · rw [Function.comp_update]; exact hi.lists.take_idle hu
    · simp only [PoolObj.members, hu, List.mem_append, List.mem_cons, List.not_mem_nil, or_false] at hc ⊢
      tauto
  · cases hh with
    | inl hh => exact hi.frame rfl (hh ▸ Nat.le_refl _) (hh ▸ hi.fds) (fun _ _ => hh ▸ rfl) rfl
    | inr hh =>
      subst hh
      exact hi.frame rfl (by rw [hnext]; exact Nat.le_succ _) (hi.fds.connectNew (s.pools p) r now) hold rfl
  · refine hi.update rfl ?_ (hi.fds.connectNew (s.pools p) r now) hin hold fun c hc => ?_
    · rw [Function.comp_update, hnext]; exact hi.lists.take_new
    · simp only [PoolObj.members, ← List.append_assoc] at hc
      cases List.mem_append.mp hc with
      | inl hc => exact (hold c (hi.lists.below p c hc)).trans (hi.address p c hc)
      | inr hc => rw [List.mem_singleton.mp hc]; exact connectNew_address s.heap (s.pools p) r now

theorem holding_step {a : Label} (hi : Holding s) (hs : step s a = some t) : Holding t := by
  cases a with
  | addPool p host port timeoutsecs initConnNum minConnNum maxConnNum maxIdleSecs now results =>
    obtain ⟨hin, pool, heap, he, rfl⟩ := step_addPool hs
    obtain ⟨l, hp, hle, hf, hnd, hl, hold⟩ := poolInitLoop_spec now results ⟨[], [], false, snprintf hostNameLen host, port,
      timeoutsecs, initConnNum, minConnNum, maxConnNum, maxIdleSecs⟩ s.heap hi.fds
    simp only [poolInit, hp, Prod.mk.injEq, List.nil_append] at he
    obtain ⟨rfl, rfl⟩ := he
    refine hi.update rfl ?_ hf rfl (fun c hc => congrArg ConnObj.address (hold c hc).1) fun c hc => ?_
    · exact hi.lists.add_pool (hi.uninited p hin) rfl hle hnd fun c hc => ⟨(hl c hc).1, (hl c hc).2.1⟩
    · exact (hl c (by simpa only [PoolObj.members, List.append_nil] using hc)).2.2.2
  | require w p reqBody r now => exact holding_require hi hs
  | identify w =>
    obtain ⟨p, conn, reqBody, hw, rfl⟩ := step_identify hs
    exact hi.frame rfl (Nat.le_refl _) hi.fds (fun _ _ => rfl) (holds_update (by rw [hw]; rfl))
  | send w o =>
    obtain ⟨c, ret, heap, pc, hw, he, rfl, rfl⟩ := step_send hs
    have hheap : heap.nextConn = s.heap.nextConn ∧ heap.conns = s.heap.conns ∧ Fds heap := by
      rcases sendMessage_cases he with ⟨-, -, -, rfl⟩ | ⟨wrote, lost, -, -, -, rfl⟩
      · exact ⟨onSock_nextConn .., onSock_conns .., fds_onSock hi.fds _ fun _ => rfl⟩
      · exact ⟨onSock_nextConn .., onSock_conns .., fds_onSock hi.fds _ fun _ => rfl⟩
    refine hi.frame rfl (Nat.le_of_eq hheap.1.symm) hheap.2.2 (fun _ _ => by rw [hheap.2.1]) (holds_update ?_)
    rw [hw]
    split
    · rfl
    · exact attemptFailed_holds c
  | receive w o =>
    obtain ⟨c, m, heap, pc, hw, he, rfl, rfl⟩ := step_receive hs
    have hheap : heap.nextConn = s.heap.nextConn ∧ heap.conns = s.heap.conns ∧ Fds heap := by
      rcases receiveOn_cases he with ⟨peer, owed, f, fifo, tornOut, -, -, -, rfl⟩ | ⟨f, sock, -, -, -, -, rfl⟩ |
        ⟨part, lost, -, -, rfl⟩
      · exact ⟨onSock_nextConn .., onSock_conns .., fds_onSock hi.fds _ fun _ => rfl⟩
      · exact ⟨rfl, rfl, hi.fds⟩
      · exact ⟨onSock_nextConn .., onSock_conns .., fds_onSock hi.fds _ fun _ => rfl⟩
    refine hi.frame rfl (Nat.le_of_eq hheap.1.symm) hheap.2.2 (fun _ _ => by rw [hheap.2.1]) (holds_update ?_)
    rw [hw]
    split
    · rfl
    · exact attemptFailed_holds _
  | reconnect w r now =>
    obtain ⟨c, hw, rfl⟩ := step_reconnect hs
    have ha := (connReconnect_spec s.heap c.conn r now).1
    refine hi.frame rfl (Nat.le_of_eq ha.nextConn.symm) (hi.fds.attempt ha) (fun c' _ => ?_)
      (holds_update (by rw [hw]; rfl))
    by_cases e : c' = c.conn
    · subst e; exact ha.address
    · exact congrArg ConnObj.address (ha.conns c' e)
  | release w now =>
    obtain ⟨c, returnCode, hw, rfl⟩ := step_release hs
    have hh : (Pc.holds ∘ s.workers) w = some (c.pool, c.conn) := by rw [Function.comp_apply, hw]; rfl
    have haddr : ∀ c', ((poolReleaseConnection (s.pools c.pool) s.heap c.conn true now).2.conns c').address =
        (s.heap.conns c').address := fun c' => by
      by_cases e : c' = c.conn
      · subst e; simp only [poolReleaseConnection, setConn, Function.update_self]; rfl
      · simp only [poolReleaseConnection, setConn, Function.update_of_ne e]
    refine hi.update rfl ?_ (hi.fds.setConn rfl rfl) (hi.inited (hi.used hh)) (fun c' _ => haddr c') fun c' hc => ?_
    · rw [Function.comp_update]; exact hi.lists.give_back hh
    · refine (haddr c').trans (hi.address c.pool c' ?_)
      simp only [poolReleaseConnection, PoolObj.members, List.mem_append, List.mem_singleton] at hc ⊢
      rcases hc with (hc | rfl) | hc
      · exact Or.inl hc
      · exact List.mem_append.mp (hi.used hh)
      · exact Or.inr (List.mem_of_mem_erase hc)
  | respond fd k f =>
    obtain ⟨-, -, rfl⟩ := step_respond hs
    exact hi.frame rfl (Nat.le_refl _) (fds_setSock hi.fds fd rfl) (fun _ _ => rfl) rfl

/-- A pool somebody holds a connection of keeps its address. -/
theorem step_address {a : Label} (hi : Holding s) {w p c : Nat} (hh : (s.workers w).holds = some (p, c))
    (hs : step s a = some t) : (t.pools p).address = (s.pools p).address := by
  have hupd : ∀ q (pool : PoolObj), (q = p → pool.address = (s.pools p).address) →
      (Function.update s.pools q pool p).address = (s.pools p).address := fun q pool ha => by
    by_cases e : p = q
    · subst e; rw [Function.update_self]; exact ha rfl
    · rw [Function.update_of_ne e]
  cases a with
  | addPool q =>
    obtain ⟨hin, pool, heap, -, rfl⟩ := step_addPool hs
    refine hupd q pool fun e => ?_
    rw [e, hi.inited (hi.used hh)] at hin
    cases hin
  | require w' q reqBody r now =>
    obtain ⟨-, -, ⟨conn, rest, -, rfl⟩ | ⟨heap, -, rfl⟩ | ⟨-, -, rfl⟩⟩ := step_require hs
    · exact hupd q _ fun e => e ▸ rfl
    · rfl
    · exact hupd q _ fun e => e ▸ rfl
  | identify w' => obtain ⟨_, _, _, -, rfl⟩ := step_identify hs; rfl
  | send w' o => obtain ⟨_, _, _, _, -, -, rfl, -⟩ := step_send hs; rfl
  | receive w' o => obtain ⟨_, _, _, _, -, -, rfl, -⟩ := step_receive hs; rfl
  | reconnect w' r now => obtain ⟨_, -, rfl⟩ := step_reconnect hs; rfl
  | release w' now =>
    obtain ⟨c', _, -, rfl⟩ := step_release hs
    exact hupd c'.pool _ fun e => e ▸ rfl
  | respond fd k f => obtain ⟨-, -, rfl⟩ := step_respond hs; rfl

theorem holding_init : Holding St.init := by
  refine ⟨⟨fun _ _ h => absurd h List.not_mem_nil, fun _ => List.nodup_nil, fun _ _ _ h => absurd h List.not_mem_nil,
    fun _ _ _ h => ?_, fun _ _ _ _ _ h => ?_⟩, ⟨fun _ _ h => ?_, fun _ _ _ h => ?_, fun _ _ h => ?_⟩, fun _ _ => rfl,
    fun _ _ h => absurd h List.not_mem_nil⟩
  all_goals cases h

end Ddm.Invoke
