/-
  Ddm.Invoke.CleanPool — what `pool_require_connection` takes from the idle list.

  `invoke_service` reconnects after a failed attempt, as `conn_pool.c` asks of a worker
  ("if the connection execute failed (timeout or crc error), reconnect it directly"),
  but not after its last one: then it releases the connection as normal, whatever is
  left on it. The same goes for a connection whose reconnect failed.

  Proved: in every run in which no call's last attempt ends on such a connection
  (`EndsClean`), every idle connection is connected and has nothing pending
  (`pooled_clean`). A single call that times out twice breaks it (`timed_out_pooled`).
-/

import Ddm.Invoke.Holding

namespace Ddm.Invoke

open Ddm.Lib Ddm.Lib.Machine Ddm.Pool Ddm.Wire

/-- The call whose last attempt a worker is in. -/
def Pc.lastAttempt : Pc → Option Call
  | .sending c => if c.retry = 0 then some c else none
  | .receiving c => if c.retry = 0 then some c else none
  | _ => none

/-- A call's last attempt fails only with its connection untouched: nothing was written
    to it and it is still up, or an answer was read whole. -/
def EndsClean (s : St) : Label → Prop
  | .send w (.failed wrote lost) =>
    (s.workers w).lastAttempt.all (fun c => !wrote && !lost && s.heap.usable c.conn) = true
  | .receive w (.failed _ _) => (s.workers w).lastAttempt = none
  | _ => True

/-- The connection `pool_require_connection` would take from the idle list is connected,
    and no earlier exchange is pending on it. -/
def TakesClean (s : St) : Prop := ∀ p conn rest, (s.pools p).unusedConnList = conn :: rest → Clean s.heap conn

/-! ## The invariant -/

/-- One request is out, and its answer has not been read. -/
def Pending (h : Heap Exchange) (conn : Nat) : Prop :=
  (h.conns conn).connected = true ∧ ∃ owed fifo,
    h.sock conn = some ⟨true, true, (h.conns conn).address, ⟨owed, fifo, false, false⟩⟩ ∧
      owed.length + fifo.length = 1

/-- The connection of a worker. After a failed attempt anything may be left on it. -/
def Phase (h : Heap Exchange) : Pc → Prop
  | .idle => True
  | .required _ conn _ => Clean h conn
  | .sending c => Clean h c.conn ∨ h.usable c.conn = false
  | .receiving c => Pending h c.conn
  | .failed _ => True
  | .releasing c _ => Clean h c.conn

structure Tidy (s : St) : Prop where
  holding : Holding s
  unused : ∀ p, ∀ c ∈ (s.pools p).unusedConnList, Clean s.heap c
  workers : ∀ w, Phase s.heap (s.workers w)

variable {s t : St} {h h' : Heap Exchange} {w conn : Nat} {f : Sock Exchange → Sock Exchange}

theorem Tidy.worker (hi : Tidy s) {pc : Pc} (hw : s.workers w = pc) : Phase s.heap pc := hw ▸ hi.workers w

/-! ## Frames -/

theorem phase_congr {pc : Pc} (hsame : ∀ p c, pc.holds = some (p, c) → h'.conns c = h.conns c ∧ h'.sock c = h.sock c)
    (hp : Phase h pc) : Phase h' pc := by
  have husable : ∀ c, h'.sock c = h.sock c → h'.usable c = h.usable c := fun c hs => by
    unfold Heap.usable; rw [hs]
  cases pc with
  | idle => trivial
  | required p c _ =>
    obtain ⟨hc, hs⟩ := hsame p c rfl
    exact (clean_congr hc hs).mpr hp
  | sending c =>
    obtain ⟨hc, hs⟩ := hsame c.pool c.conn rfl
    exact hp.imp (clean_congr hc hs).mpr fun hu => (husable c.conn hs).trans hu
  | receiving c =>
    obtain ⟨hc, hs⟩ := hsame c.pool c.conn rfl
    have hpend : Pending h c.conn := hp
    show Pending h' c.conn
    unfold Pending at hpend ⊢
    rw [hc, hs]
    exact hpend
  | failed => trivial
  | releasing c _ =>
    obtain ⟨hc, hs⟩ := hsame c.pool c.conn rfl
    exact (clean_congr hc hs).mpr hp

theorem Holding.apart (hi : Holding s) {p p' c c' w' : Nat} (hw : (s.workers w).holds = some (p, c))
    (hw' : (s.workers w').holds = some (p', c')) (hne : w' ≠ w) : c' ≠ c := fun e =>
  hne (hi.lists.exclusive w' w p' p c (e ▸ hw') hw)

theorem Holding.not_unused (hi : Holding s) {p c : Nat} (hw : (s.workers w).holds = some (p, c)) (q : Nat) :
    c ∉ (s.pools q).unusedConnList := by
  intro hu
  have hused := hi.lists.held w p c hw
  obtain rfl := hi.lists.disjoint q p c (List.mem_append_left _ hu) (hi.used hw)
  exact (List.nodup_append.mp (hi.lists.nodup q)).2.2 c hu c hused rfl

/-- A step of worker `w` that touches its own connection only. -/
theorem Tidy.move (hi : Tidy s) (hold : Holding t) {p c : Nat} (hw : (s.workers w).holds = some (p, c))
    (hother : ∀ c', c' ≠ c → t.heap.conns c' = s.heap.conns c' ∧ t.heap.sock c' = s.heap.sock c')
    (hp : t.pools = s.pools) {pc : Pc} (hworkers : t.workers = Function.update s.workers w pc)
    (hpc : Phase t.heap pc) : Tidy t := by
  refine ⟨hold, fun q c' hc => ?_, fun w' => ?_⟩
  · rw [hp] at hc
    have hne : c' ≠ c := fun e => hi.holding.not_unused hw q (e ▸ hc)
    exact (clean_congr (hother c' hne).1 (hother c' hne).2).mpr (hi.unused q c' hc)
  · rw [hworkers]
    by_cases e : w' = w
    · subst e; rw [Function.update_self]; exact hpc
    · rw [Function.update_of_ne e]
      exact phase_congr (fun p' c' hw' => hother c' (hi.holding.apart hw hw' e)) (hi.workers w')

theorem Tidy.workers_old (hi : Tidy s) (hsame : ∀ c < s.heap.nextConn, h'.conns c = s.heap.conns c ∧
    h'.sock c = s.heap.sock c) (w : Nat) : Phase h' (s.workers w) :=
  phase_congr (fun p c hw => hsame c (hi.holding.lists.below p c (hi.holding.used hw))) (hi.workers w)

theorem Tidy.unused_old (hi : Tidy s) (hsame : ∀ c < s.heap.nextConn, h'.conns c = s.heap.conns c ∧
    h'.sock c = s.heap.sock c) {p c : Nat} (hc : c ∈ (s.pools p).unusedConnList) : Clean h' c := by
  obtain ⟨h1, h2⟩ := hsame c (hi.holding.lists.below p c (List.mem_append_left _ hc))
  exact (clean_congr h1 h2).mpr (hi.unused p c hc)

/-! ## Streams -/

theorem sock_setSock (h : Heap Exchange) (fd : Nat) (sk : Sock Exchange) (c : Nat) :
    (setSock h fd sk).sock c = if (h.conns c).sockFd = some fd then some sk else h.sock c := by
  unfold Heap.sock
  cases hs : (h.conns c).sockFd with
  | none => simp only [setSock, hs]; rfl
  | some fd' =>
    by_cases e : fd' = fd
    · subst e; simp [setSock, hs]
    · simp [setSock, hs, e]

theorem onSock_other (hf : Fds h) {c : Nat} (hc : c ≠ conn) :
    (onSock h conn f).conns c = h.conns c ∧ (onSock h conn f).sock c = h.sock c := by
  refine ⟨by rw [onSock_conns], ?_⟩
  cases hs : (h.conns conn).sockFd with
  | none => simp only [onSock, hs]
  | some fd =>
    have he : onSock h conn f = setSock h fd (f (h.socks fd)) := by simp only [onSock, hs]
    rw [he, sock_setSock, if_neg fun h1 => hc (hf.exclusive c conn fd h1 hs)]

theorem onSock_self (h : Heap Exchange) (conn : Nat) (f : Sock Exchange → Sock Exchange) :
    (onSock h conn f).sock conn = (h.sock conn).map f := by
  cases hs : (h.conns conn).sockFd with
  | none => simp only [onSock, hs, Heap.sock]; rfl
  | some fd =>
    have he : onSock h conn f = setSock h fd (f (h.socks fd)) := by simp only [onSock, hs]
    rw [he, sock_setSock, if_pos hs, Heap.sock, hs]
    rfl

/-- What becomes of a connection whose socket is `sk`. -/
theorem onSock_clean {sk : Sock Exchange} (hc : (h.conns conn).connected = true) (hs : h.sock conn = some sk)
    (hf : f sk = ⟨true, true, (h.conns conn).address, default⟩) : Clean (onSock h conn f) conn := by
  refine ⟨by rw [onSock_conns]; exact hc, ?_⟩
  rw [onSock_self, hs, Option.map_some, hf, onSock_conns]

/-! ## One step -/

theorem attemptFailed_tidy {c : Call} (hp : c.retry = 0 → Clean h c.conn) : Phase h (attemptFailed c) := by
  unfold attemptFailed
  split
  · trivial
  · exact hp (by omega)

theorem tidy_send {o : Sending} (hi : Tidy s) (hok : EndsClean s (.send w o)) (hs : step s (.send w o) = some t) :
    Tidy t := by
  have hold := holding_step hi.holding hs
  obtain ⟨c, ret, heap, pc, hw, he, rfl, rfl⟩ := step_send hs
  have hh : (s.workers w).holds = some (c.pool, c.conn) := by rw [hw]; rfl
  have hphase : Clean s.heap c.conn ∨ s.heap.usable c.conn = false := hi.worker hw
  -- a usable connection is a clean one
  have hclean : s.heap.usable c.conn = true → Clean s.heap c.conn := fun hu =>
    hphase.resolve_right (by rw [hu]; exact Bool.noConfusion)
  rcases sendMessage_cases he with ⟨rfl, hu, rfl, rfl⟩ | ⟨wrote, lost, rfl, -, rfl, rfl⟩
  · obtain ⟨hc, hsk⟩ := hclean hu
    refine hi.move hold hh (fun c' hne => onSock_other hi.holding.fds hne) rfl rfl ?_
    rw [if_pos rfl]
    refine ⟨by rw [onSock_conns]; exact hc, [⟨c.identifier, c.reqBody⟩], [], ?_, rfl⟩
    rw [onSock_self, hsk, onSock_conns]
    rfl
  · refine hi.move hold hh (fun c' hne => onSock_other hi.holding.fds hne) rfl rfl ?_
    rw [if_neg (by decide)]
    refine attemptFailed_tidy fun hr => ?_
    simp only [EndsClean, hw, Pc.lastAttempt, if_pos hr, Option.all_some, Bool.and_eq_true, Bool.not_eq_true'] at hok
    obtain ⟨⟨rfl, rfl⟩, hu⟩ := hok
    obtain ⟨hc, hsk⟩ := hclean hu
    exact onSock_clean hc hsk rfl

theorem tidy_receive {o : Receiving} (hi : Tidy s) (hok : EndsClean s (.receive w o))
    (hs : step s (.receive w o) = some t) : Tidy t := by
  have hold := holding_step hi.holding hs
  obtain ⟨c, m, heap, pc, hw, he, rfl, rfl⟩ := step_receive hs
  have hh : (s.workers w).holds = some (c.pool, c.conn) := by rw [hw]; rfl
  obtain ⟨hc, owed, fifo, hsk, hone⟩ : Pending s.heap c.conn := hi.worker hw
  rcases receiveOn_cases he with ⟨peer, owed', f, fifo', tornOut, rfl, hsk', rfl, rfl⟩ | ⟨f, sk, rfl, hsk', ht, -, -⟩ |
    ⟨part, lost, rfl, rfl, rfl⟩
  · -- the one answer is taken, and nothing is left
    rw [hsk, Option.some.injEq, Sock.mk.injEq, Exchange.mk.injEq] at hsk'
    obtain ⟨-, -, -, rfl, rfl, -, -⟩ := hsk'
    rw [List.length_cons] at hone
    obtain rfl : owed = [] := List.length_eq_zero_iff.mp (by omega)
    obtain rfl : fifo' = [] := List.length_eq_zero_iff.mp (by omega)
    refine hi.move hold hh (fun c' hne => onSock_other hi.holding.fds hne) rfl rfl ?_
    have hclean : Clean (onSock s.heap c.conn fun s => { s with stream := { s.stream with fifo := [] } }) c.conn :=
      onSock_clean hc hsk rfl
    split
    · exact hclean
    · exact attemptFailed_tidy fun _ => hclean
  · rw [hsk] at hsk'
    obtain rfl := Option.some.inj hsk'
    cases ht
  · refine hi.move hold hh (fun c' hne => onSock_other hi.holding.fds hne) rfl rfl ?_
    rw [if_neg (by simp [succeeds])]
    refine attemptFailed_tidy fun hr => ?_
    simp only [EndsClean, hw, Pc.lastAttempt, if_pos hr] at hok
    cases hok

/-- An answer comes in on a connection that is waiting for it, or on one given up. -/
theorem tidy_respond {fd k : Nat} {r : Response} (hi : Tidy s) (hs : step s (.respond fd k r) = some t) : Tidy t := by
  have hold := holding_step hi.holding hs
  obtain ⟨-, hk, rfl⟩ := step_respond hs
  have hclean : ∀ c, Clean s.heap c → Clean (setSock s.heap fd { s.heap.socks fd with
      stream := (s.heap.socks fd).stream.respond k r }) c := by
    intro c ⟨hc, hsk⟩
    refine ⟨hc, ?_⟩
    rw [sock_setSock]
    split
    · rename_i hfd
      -- nothing is owed on a clean connection
      rw [Heap.sock, hfd, Option.map_some, Option.some.injEq] at hsk
      rw [hsk] at hk
      cases hk
    · exact hsk
  refine ⟨hold, fun p c hc => hclean c (hi.unused p c hc), fun w => ?_⟩
  have hphase := hi.workers w
  cases hw : s.workers w with
  | idle => trivial
  | required p c b => rw [hw] at hphase; exact hclean c hphase
  | sending c =>
    rw [hw] at hphase
    refine hphase.imp (hclean c.conn) fun hu => ?_
    rw [Heap.usable] at hu ⊢
    rw [sock_setSock]
    split
    · rename_i hfd; rw [Heap.sock, hfd] at hu; exact hu
    · exact hu
  | receiving c =>
    rw [hw] at hphase
    obtain ⟨hc, owed, fifo, hsk, hone⟩ := hphase
    by_cases hfd : (s.heap.conns c.conn).sockFd = some fd
    · rw [Heap.sock, hfd, Option.map_some, Option.some.injEq] at hsk
      rw [hsk] at hk
      have hk' : k < owed.length := hk
      refine ⟨hc, owed.eraseIdx k, fifo ++ [r], ?_, ?_⟩
      · rw [sock_setSock, if_pos hfd, hsk]; rfl
      · rw [List.length_eraseIdx_of_lt hk', List.length_append, List.length_singleton]; omega
    · exact ⟨hc, owed, fifo, by rw [sock_setSock, if_neg hfd]; exact hsk, hone⟩
  | failed => trivial
  | releasing c code => rw [hw] at hphase; exact hclean c.conn hphase

theorem tidy_step {a : Label} (hi : Tidy s) (hok : EndsClean s a) (hs : step s a = some t) : Tidy t := by
  have hold := holding_step hi.holding hs
  cases a with
  | addPool p host port timeoutsecs initConnNum minConnNum maxConnNum maxIdleSecs now results =>
    obtain ⟨hin, pool, heap, he, rfl⟩ := step_addPool hs
    obtain ⟨l, hp, -, -, -, hl, hsame⟩ := poolInitLoop_spec now results ⟨[], [], false, snprintf hostNameLen host, port,
      timeoutsecs, initConnNum, minConnNum, maxConnNum, maxIdleSecs⟩ s.heap hi.holding.fds
    simp only [poolInit, hp, Prod.mk.injEq, List.nil_append] at he
    obtain ⟨rfl, rfl⟩ := he
    refine ⟨hold, fun q c hc => ?_, hi.workers_old hsame⟩
    by_cases e : q = p
    · subst e
      simp only [Function.update_self] at hc
      exact (hl c hc).2.2.1
    · simp only [Function.update_of_ne e] at hc
      exact hi.unused_old hsame hc
  | require w p reqBody r now =>
    have hsame : ∀ c < s.heap.nextConn, (connectNew s.heap (s.pools p) r now).conns c = s.heap.conns c ∧
        (connectNew s.heap (s.pools p) r now).sock c = s.heap.sock c := fun c hc =>
      connectNew_other hi.holding.fds (s.pools p) r now hc
    obtain ⟨hw, -, ⟨conn, rest, hu, rfl⟩ | ⟨heap, hh, rfl⟩ | ⟨hu, hr, rfl⟩⟩ := step_require hs
    · refine ⟨hold, fun q c hc => ?_, fun w' => ?_⟩
      · by_cases e : q = p
        · subst e
          simp only [Function.update_self] at hc
          exact hi.unused q c (hu ▸ List.mem_cons_of_mem conn hc)
        · simp only [Function.update_of_ne e] at hc
          exact hi.unused q c hc
      · by_cases e : w' = w
        · subst e
          simp only [Function.update_self]
          exact hi.unused p conn (hu ▸ List.mem_cons_self)
        · simp only [Function.update_of_ne e]
          exact hi.workers w'
    · cases hh with
      | inl hh => exact ⟨hold, hh ▸ hi.unused, hh ▸ hi.workers⟩
      | inr hh => exact ⟨hold, fun q c hc => hh ▸ hi.unused_old hsame hc, hh ▸ hi.workers_old hsame⟩
    · refine ⟨hold, fun q c hc => ?_, fun w' => ?_⟩
      · by_cases e : q = p
        · subst e
          simp only [Function.update_self] at hc
          exact hi.unused_old hsame hc
        · simp only [Function.update_of_ne e] at hc
          exact hi.unused_old hsame hc
      · by_cases e : w' = w
        · subst e
          simp only [Function.update_self]
          exact hr ▸ connectNew_clean s.heap (s.pools p) now
        · simp only [Function.update_of_ne e]
          exact hi.workers_old hsame w'
  | identify w =>
    obtain ⟨p, conn, reqBody, hw, rfl⟩ := step_identify hs
    exact hi.move hold (by rw [hw]; rfl) (fun _ _ => ⟨rfl, rfl⟩) rfl rfl (Or.inl (hi.worker hw))
  | send w o => exact tidy_send hi hok hs
  | receive w o => exact tidy_receive hi hok hs
  | reconnect w r now =>
    obtain ⟨c, hw, rfl⟩ := step_reconnect hs
    refine hi.move hold (by rw [hw]; rfl) (fun c' hne => reconnect_other hi.holding.fds r now hne) rfl rfl ?_
    by_cases hr : r = .accepted
    · subst hr; exact Or.inl (connConnect_accepted (connDisconnect s.heap c.conn).2 c.conn now)
    · exact Or.inr (connConnect_failed (connDisconnect s.heap c.conn).2 c.conn now hr)
  | release w now =>
    obtain ⟨c, returnCode, hw, rfl⟩ := step_release hs
    have hh : (s.workers w).holds = some (c.pool, c.conn) := by rw [hw]; rfl
    obtain ⟨hc, hsk⟩ : Clean s.heap c.conn := hi.worker hw
    have hother : ∀ c', c' ≠ c.conn →
        (poolReleaseConnection (s.pools c.pool) s.heap c.conn true now).2.conns c' = s.heap.conns c' ∧
        (poolReleaseConnection (s.pools c.pool) s.heap c.conn true now).2.sock c' = s.heap.sock c' := fun c' hne => by
      simp only [poolReleaseConnection, setConn, Heap.sock, Function.update_of_ne hne, and_self]
    have hown : Clean (poolReleaseConnection (s.pools c.pool) s.heap c.conn true now).2 c.conn := by
      refine ⟨?_, ?_⟩
      · simp only [poolReleaseConnection, setConn, Function.update_self]; exact hc
      · simp only [poolReleaseConnection, setConn, Heap.sock, Function.update_self]; exact hsk
    have hold' : ∀ q c', c' ∈ (s.pools q).unusedConnList →
        Clean (poolReleaseConnection (s.pools c.pool) s.heap c.conn true now).2 c' := fun q c' hc' => by
      obtain ⟨h1, h2⟩ := hother c' fun e => hi.holding.not_unused hh q (e ▸ hc')
      exact (clean_congr h1 h2).mpr (hi.unused q c' hc')
    refine ⟨hold, fun q c' hc' => ?_, fun w' => ?_⟩
    · by_cases e : q = c.pool
      · subst e
        simp only [Function.update_self] at hc'
        cases List.mem_append.mp hc' with
        | inl hc' => exact hold' c.pool c' hc'
        | inr hc' => rw [List.mem_singleton.mp hc']; exact hown
      · simp only [Function.update_of_ne e] at hc'
        exact hold' q c' hc'
    · by_cases e : w' = w
      · subst e; simp only [Function.update_self]; trivial
      · simp only [Function.update_of_ne e]
        exact phase_congr (fun p' c' hw' => hother c' (hi.holding.apart hh hw' e)) (hi.workers w')
  | respond fd k r => exact tidy_respond hi hs

/-! ## Every run -/

theorem tidy_init : Tidy St.init :=
  ⟨holding_init, fun _ _ h => absurd h List.not_mem_nil, fun _ => trivial⟩

/-- Nothing else is left out: a step against `EndsClean` has its worker release a
    connection that is not clean. -/
theorem dirty_end {a : Label} (hi : Tidy s) (hbad : ¬EndsClean s a) (hs : step s a = some t) :
    ∃ w c returnCode, t.workers w = .releasing c returnCode ∧ ¬Clean t.heap c.conn := by
  cases a with
  | send w o =>
    cases o with
    | sent => exact absurd trivial hbad
    | failed wrote lost =>
      obtain ⟨c, ret, heap, pc, hw, he, rfl, rfl⟩ := step_send hs
      have hr : c.retry = 0 := by
        by_contra hr
        exact hbad (by simp [EndsClean, hw, Pc.lastAttempt, hr])
      simp only [EndsClean, hw, Pc.lastAttempt, if_pos hr, Option.all_some, Bool.and_eq_true,
        Bool.not_eq_true'] at hbad
      rcases sendMessage_cases he with ⟨ho, -⟩ | ⟨wrote', lost', ho, -, rfl, rfl⟩
      · cases ho
      · obtain ⟨rfl, rfl⟩ := Sending.failed.inj ho
        refine ⟨w, c, -1, by simp [attemptFailed, hr], fun hclean => hbad ?_⟩
        obtain ⟨sk, hsk, hf⟩ := Option.map_eq_some_iff.mp ((onSock_self s.heap c.conn _).symm.trans hclean.2)
        simp only [Sock.mk.injEq, Bool.and_eq_true, Bool.not_eq_true'] at hf
        obtain ⟨hopen, ⟨hconn, hlost⟩, -, hstream⟩ := hf
        have htorn : (sk.stream.tornOut || wrote) = false := congrArg Exchange.tornOut hstream
        exact ⟨⟨(Bool.or_eq_false_iff.mp htorn).2, hlost⟩, by simp [Heap.usable, hsk, hopen, hconn]⟩
  | receive w o =>
    cases o with
    | message => exact absurd trivial hbad
    | garbage => exact absurd trivial hbad
    | failed part lost =>
      obtain ⟨c, m, heap, pc, hw, he, rfl, rfl⟩ := step_receive hs
      have hr : c.retry = 0 := by
        by_contra hr
        exact hbad (by simp [EndsClean, hw, Pc.lastAttempt, hr])
      obtain ⟨-, owed, fifo, hsk, hone⟩ : Pending s.heap c.conn := hi.worker hw
      rcases receiveOn_cases he with ⟨_, _, _, _, _, ho, -⟩ | ⟨_, _, ho, -⟩ | ⟨part', lost', ho, rfl, rfl⟩
      · cases ho
      · cases ho
      · refine ⟨w, { c with resBuf := [] }, -1, by simp [succeeds, attemptFailed, hr], fun hclean => ?_⟩
        have hsock := hclean.2
        simp only [onSock_self, hsk, Option.map_some, Option.some.injEq, Sock.mk.injEq] at hsock
        have howed : owed = [] := congrArg Exchange.owed hsock.2.2.2
        have hfifo : fifo = [] := congrArg Exchange.fifo hsock.2.2.2
        rw [howed, hfifo] at hone
        cases hone
  | _ => exact absurd trivial hbad

theorem pooled_clean {s : St} (h : Reach step EndsClean St.init s) : TakesClean s := fun p conn _ hu =>
  (h.inv tidy_init fun _ _ _ hi hok hs => tidy_step hi hok hs).unused p conn (hu ▸ List.mem_cons_self)

/-! ## A call that times out twice -/

instance (s : St) : (a : Label) → Decidable (EndsClean s a)
  | .send w (.failed wrote lost) =>
    inferInstanceAs (Decidable ((s.workers w).lastAttempt.all (fun c => !wrote && !lost && s.heap.usable c.conn) = true))
  | .receive w (.failed ..) => inferInstanceAs (Decidable ((s.workers w).lastAttempt = none))
  | .addPool .. | .require .. | .identify _ | .send _ .sent | .receive _ .message | .receive _ (.garbage _)
  | .reconnect .. | .release .. | .respond .. => isTrue trivial

/-- The first attempt times out; the second is answered. -/
def timeoutThenAnswer : List Label :=
  [.addPool 0 (.lit "h") 80 1 1 1 1 60 ⟨0, 0⟩ [.accepted], .require 0 0 [1] .noSocket ⟨0, 0⟩, .identify 0, .send 0 .sent,
    .receive 0 (.failed false false), .reconnect 0 .accepted ⟨1, 0⟩, .send 0 .sent, .respond 1 0 ⟨true, 1, 0x90, [7]⟩,
    .receive 0 .message, .release 0 ⟨1, 0⟩]

theorem pooled_clean_sample :
    ∃ s, Reach step EndsClean St.init s ∧ decide ((s.pools 0).unusedConnList = [0]) = true ∧ TakesClean s := by
  have hrun : ((exec step EndsClean St.init timeoutThenAnswer).any fun s =>
      decide ((s.pools 0).unusedConnList = [0])) = true := by decide +kernel
  obtain ⟨s, hs, hu⟩ := reach_of_exec_any hrun
  exact ⟨s, hs, hu, pooled_clean hs⟩

/-- Both attempts time out; the second request may still be answered. -/
def twoTimeouts : List Label :=
  [.addPool 0 (.lit "h") 80 1 1 1 1 60 ⟨0, 0⟩ [.accepted], .require 0 0 [1] .noSocket ⟨0, 0⟩, .identify 0, .send 0 .sent,
    .receive 0 (.failed false false), .reconnect 0 .accepted ⟨1, 0⟩, .send 0 .sent, .receive 0 (.failed false false),
    .release 0 ⟨2, 0⟩]

theorem timed_out_pooled : ¬∀ s, Reach step (fun _ _ => True) St.init s → TakesClean s := by
  intro hall
  have hrun : ((exec step (fun _ _ => True) St.init twoTimeouts).any fun s => decide ((s.pools 0).unusedConnList = [0] ∧
      (s.heap.sock 0).map (·.stream.owed) = some [⟨1, [1]⟩])) = true := by decide +kernel
  obtain ⟨s, hs, hp⟩ := reach_of_exec_any hrun
  obtain ⟨hu, howed⟩ := of_decide_eq_true hp
  rw [(hall s hs 0 0 [] hu).2] at howed
  cases howed

end Ddm.Invoke
