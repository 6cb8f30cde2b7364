/-
  Ddm.Pool.ConnPool — `conn_pool.c`: connections, their sockets, and the two lists of a
  pool.

  Connection objects and sockets live in a heap: an object is the index `malloc` gave
  it, a socket the descriptor `socket()` gave it, and neither is used again. What travels
  on a socket is left open (`κ`, empty on a new socket). The outcome of `socket()` and
  `connect()` is a parameter of each attempt, as is the clock.

  Proved: what a connection attempt leaves of the heap (`connConnect_spec`,
  `connReconnect_spec`), what taking a connection out of a pool can do
  (`require_cases`), and that a new socket is the only source of a new stream
  (`Streams`).
-/

import Mathlib.Logic.Function.Basic
import Mathlib.Data.List.Nodup
import Ddm.Lib.Bytes

namespace Ddm.Pool

open Ddm.Lib

abbrev hostNameLen : Nat := 100

instance (priority := high) : NeZero hostNameLen := ⟨by decide⟩

structure Timeval where
  tvSec : Int
  tvUsec : Int
  deriving DecidableEq

/-- Where a provider listens. -/
structure Address where
  host : CharBuf hostNameLen
  port : Int
  deriving DecidableEq

structure ConnObj where
  /-- `none` is -1. -/
  sockFd : Option Nat
  host : CharBuf hostNameLen
  port : Int
  timeoutSecs : Int
  lastUsedTime : Timeval
  lastCheckTime : Timeval
  connected : Bool
  errorOccured : Bool
  deriving DecidableEq

structure PoolObj where
  unusedConnList : List Nat
  usedConnList : List Nat
  inited : Bool
  host : CharBuf hostNameLen
  port : Int
  timeoutSecs : Int
  initConnNum : Int
  minConnNum : Int
  maxConnNum : Int
  maxIdleSecs : Int
  deriving DecidableEq

def ConnObj.address (c : ConnObj) : Address := ⟨c.host, c.port⟩
def PoolObj.address (pool : PoolObj) : Address := ⟨pool.host, pool.port⟩

structure Sock (κ : Type) where
  isOpen : Bool
  connected : Bool
  peer : Address
  stream : κ
  deriving DecidableEq

structure Heap (κ : Type) where
  conns : Nat → ConnObj
  nextConn : Nat
  socks : Nat → Sock κ
  nextSock : Nat

/-- What `socket()` and `connect()` answer. -/
inductive Connect where
  | noSocket
  | refused
  | accepted
  deriving DecidableEq

variable {κ : Type} [Inhabited κ]

/-! ## Connections -/

/-- The times are not set before a connect succeeds. -/
def connInit (host : CStr) (port timeoutsecs : Int) : ConnObj :=
  ⟨none, snprintf hostNameLen host, port, timeoutsecs, ⟨0, 0⟩, ⟨0, 0⟩, false, false⟩

def setConn (h : Heap κ) (conn : Nat) (c : ConnObj) : Heap κ := { h with conns := Function.update h.conns conn c }

def setSock (h : Heap κ) (fd : Nat) (s : Sock κ) : Heap κ := { h with socks := Function.update h.socks fd s }

/-- `malloc` and `conn_init`. -/
def allocConn (h : Heap κ) (c : ConnObj) : Heap κ := { setConn h h.nextConn c with nextConn := h.nextConn + 1 }

def newSock (h : Heap κ) (connected : Bool) (peer : Address) : Heap κ :=
  { setSock h h.nextSock ⟨true, connected, peer, default⟩ with nextSock := h.nextSock + 1 }

/-- A refused connection keeps its socket. -/
def connConnect (h : Heap κ) (conn : Nat) (r : Connect) (now : Timeval) : Int × Heap κ :=
  let c := h.conns conn
  match r with
  | .noSocket => (-1, setConn h conn { c with sockFd := none })
  | .refused => (-1, setConn (newSock h false c.address) conn { c with sockFd := some h.nextSock })
  | .accepted => (0, setConn (newSock h true c.address) conn { c with
      sockFd := some h.nextSock, connected := true, errorOccured := false, lastUsedTime := now, lastCheckTime := now })

def connDisconnect (h : Heap κ) (conn : Nat) : Int × Heap κ :=
  let c := h.conns conn
  let h := setConn h conn { c with connected := false, errorOccured := false }
  match c.sockFd with
  | none => (-1, h)
  | some fd =>
    if (h.socks fd).isOpen then (0, setSock h fd { h.socks fd with isOpen := false, connected := false }) else (-1, h)

def connReconnect (h : Heap κ) (conn : Nat) (r : Connect) (now : Timeval) : Int × Heap κ :=
  connConnect (connDisconnect h conn).2 conn r now

/-- In milliseconds, as an `unsigned int`. -/
def getTimeDifference (beginTime endTime : Timeval) : Nat :=
  ((endTime.tvSec * 1000 + endTime.tvUsec.tdiv 1000 - (beginTime.tvSec * 1000 + beginTime.tvUsec.tdiv 1000)) %
    2 ^ 32).toNat

/-- The comparison is unsigned. -/
def connIsIdleTimeout (c : ConnObj) (maxIdleSeconds : Int) (now : Timeval) : Bool :=
  getTimeDifference c.lastUsedTime now > ((maxIdleSeconds * 1000) % 2 ^ 32).toNat

/-! ## Pools -/

/-- The loop of `pool_init`: one attempt for each of `results`. -/
def poolInitLoop (pool : PoolObj) (h : Heap κ) (now : Timeval) : List Connect → PoolObj × Heap κ
  | [] => (pool, h)
  | r :: results =>
    let conn := h.nextConn
    let (ret, h) := connConnect (allocConn h (connInit pool.host.str pool.port pool.timeoutSecs)) conn r now
    let pool := if ret = 0 then { pool with unusedConnList := pool.unusedConnList ++ [conn] } else pool
    poolInitLoop pool h now results

/-- `results` are as many as `initConnNum`. -/
def poolInit (h : Heap κ) (host : CStr) (port timeoutsecs initConnNum minConnNum maxConnNum maxIdleSecs : Int)
    (now : Timeval) (results : List Connect) : PoolObj × Heap κ :=
  let (pool, h) := poolInitLoop ⟨[], [], false, snprintf hostNameLen host, port, timeoutsecs, initConnNum, minConnNum,
    maxConnNum, maxIdleSecs⟩ h now results
  ({ pool with inited := true }, h)

/-- The first idle connection, else a new one if the pool may grow. -/
def poolRequireConnection (pool : PoolObj) (h : Heap κ) (r : Connect) (now : Timeval) :
    Option Nat × PoolObj × Heap κ :=
  match pool.unusedConnList with
  | conn :: rest => (some conn, { pool with unusedConnList := rest, usedConnList := pool.usedConnList ++ [conn] }, h)
  | [] =>
    if (pool.usedConnList.length : Int) < pool.maxConnNum then
      let conn := h.nextConn
      let (ret, h) := connConnect (allocConn h (connInit pool.host.str pool.port pool.timeoutSecs)) conn r now
      if ret = 0 then (some conn, { pool with usedConnList := pool.usedConnList ++ [conn] }, h) else (none, pool, h)
    else (none, pool, h)

def poolReleaseConnection (pool : PoolObj) (h : Heap κ) (conn : Nat) (releaseAsNormal : Bool) (now : Timeval) :
    PoolObj × Heap κ :=
  let c := h.conns conn
  ({ pool with usedConnList := pool.usedConnList.erase conn, unusedConnList := pool.unusedConnList ++ [conn] },
    setConn h conn (if releaseAsNormal then { c with lastUsedTime := now } else { c with errorOccured := true }))

/-- Close and free every idle connection, unless one is in use. -/
def poolDestroy (pool : PoolObj) (h : Heap κ) : Int × PoolObj × Heap κ :=
  if pool.usedConnList.length > 0 then (-1, pool, h)
  else (0, { pool with unusedConnList := [] }, pool.unusedConnList.foldl (fun h conn => (connDisconnect h conn).2) h)

/-- Close and free the first connection that has been idle too long, if none is in use
    and there are more than the pool has to keep. `now c` is the clock when `c` is
    looked at. -/
def poolCheck (pool : PoolObj) (h : Heap κ) (now : Nat → Timeval) : PoolObj × Heap κ :=
  if pool.usedConnList.length = 0 ∧ (pool.unusedConnList.length : Int) - pool.minConnNum > 0 then
    match pool.unusedConnList.find? fun c => connIsIdleTimeout (h.conns c) (pool.maxIdleSecs * 2) (now c) with
    | some c => ({ pool with unusedConnList := pool.unusedConnList.erase c }, (connDisconnect h c).2)
    | none => (pool, h)
  else (pool, h)

/-! ## What an attempt leaves -/

/-- The socket of an object, if it has one. -/
def Heap.sock (h : Heap κ) (conn : Nat) : Option (Sock κ) := (h.conns conn).sockFd.map h.socks

/-- An attempt for `conn` from `h` to `h'`: other objects and the peers of the sockets
    there were are as before, and what `conn` has now is a socket of its own, to its own
    address. -/
structure Attempt (h h' : Heap κ) (conn : Nat) : Prop where
  nextConn : h'.nextConn = h.nextConn
  conns : ∀ c, c ≠ conn → h'.conns c = h.conns c
  nextSock : h.nextSock ≤ h'.nextSock
  peers : ∀ fd < h.nextSock, (h'.socks fd).peer = (h.socks fd).peer
  fresh : ∀ fd, (h'.conns conn).sockFd = some fd → h.nextSock ≤ fd ∧ fd < h'.nextSock
  address : (h'.conns conn).address = (h.conns conn).address
  peer : ∀ fd, (h'.conns conn).sockFd = some fd → (h'.socks fd).peer = (h'.conns conn).address

theorem connConnect_spec (h : Heap κ) (conn : Nat) (r : Connect) (now : Timeval) :
    Attempt h (connConnect h conn r now).2 conn ∧
      (∀ fd < h.nextSock, (connConnect h conn r now).2.socks fd = h.socks fd) ∧
      ((connConnect h conn r now).1 = 0 ↔ r = .accepted) := by
  have hold : ∀ fd < h.nextSock, (connConnect h conn r now).2.socks fd = h.socks fd := by
    intro fd hfd
    cases r with
    | noSocket => rfl
    | refused => exact Function.update_of_ne (Nat.ne_of_lt hfd) ..
    | accepted => exact Function.update_of_ne (Nat.ne_of_lt hfd) ..
  refine ⟨⟨?_, ?_, ?_, fun fd hfd => congrArg Sock.peer (hold fd hfd), ?_, ?_, ?_⟩, hold, ?_⟩
  · cases r <;> rfl
  · cases r <;> exact fun c hne => Function.update_of_ne hne ..
  · cases r with
    | noSocket => exact Nat.le_refl _
    | refused => exact Nat.le_succ _
    | accepted => exact Nat.le_succ _
  · intro fd hf
    cases r with
    | noSocket => simp [connConnect, setConn] at hf
    | refused =>
      simp only [connConnect, setConn, newSock, setSock, Function.update_self, Option.some.injEq] at hf ⊢
      omega
    | accepted =>
      simp only [connConnect, setConn, newSock, setSock, Function.update_self, Option.some.injEq] at hf ⊢
      omega
  · cases r <;> simp [connConnect, setConn, newSock, setSock, ConnObj.address]
  · intro fd hf
    cases r with
    | noSocket => simp [connConnect, setConn] at hf
    | refused =>
      simp only [connConnect, setConn, newSock, setSock, Function.update_self, Option.some.injEq] at hf ⊢
      subst hf
      rw [Function.update_self]; rfl
    | accepted =>
      simp only [connConnect, setConn, newSock, setSock, Function.update_self, Option.some.injEq] at hf ⊢
      subst hf
      rw [Function.update_self]; rfl
  · cases r <;> simp [connConnect]

/-- Connected, on an open socket on which nothing is pending. -/
def Clean (h : Heap κ) (conn : Nat) : Prop :=
  (h.conns conn).connected = true ∧ h.sock conn = some ⟨true, true, (h.conns conn).address, default⟩

/-- The connection can be written to and read from. -/
def Heap.usable (h : Heap κ) (conn : Nat) : Bool := (h.sock conn).any fun s => s.isOpen && s.connected

theorem connConnect_accepted (h : Heap κ) (conn : Nat) (now : Timeval) :
    Clean (connConnect h conn .accepted now).2 conn := by
  constructor
  · simp [connConnect, setConn]
  · simp [connConnect, setConn, newSock, setSock, Heap.sock, ConnObj.address]

/-- After a failed attempt the object has no socket, or one that is not connected. -/
theorem connConnect_failed (h : Heap κ) (conn : Nat) {r : Connect} (now : Timeval) (hr : r ≠ .accepted) :
    (connConnect h conn r now).2.usable conn = false := by
  cases r with
  | noSocket => simp [connConnect, setConn, Heap.sock, Heap.usable]
  | refused => simp [connConnect, setConn, newSock, setSock, Heap.sock, Heap.usable]
  | accepted => exact absurd rfl hr

omit [Inhabited κ] in
/-- Closing touches the connection's flags and its socket. -/
theorem connDisconnect_frame (h : Heap κ) (conn : Nat) :
    (connDisconnect h conn).2.nextConn = h.nextConn ∧ (connDisconnect h conn).2.nextSock = h.nextSock ∧
      (∀ c, c ≠ conn → (connDisconnect h conn).2.conns c = h.conns c) ∧
      ((connDisconnect h conn).2.conns conn).address = (h.conns conn).address ∧
      (∀ fd, ((connDisconnect h conn).2.socks fd).peer = (h.socks fd).peer) ∧
      ∀ fd, (h.conns conn).sockFd ≠ some fd → (connDisconnect h conn).2.socks fd = h.socks fd := by
  have hflags : ∀ h' : Heap κ, h' = setConn h conn { h.conns conn with connected := false, errorOccured := false } →
      h'.nextConn = h.nextConn ∧ h'.nextSock = h.nextSock ∧ (∀ c, c ≠ conn → h'.conns c = h.conns c) ∧
        (h'.conns conn).address = (h.conns conn).address ∧ (∀ fd, (h'.socks fd).peer = (h.socks fd).peer) ∧
        ∀ fd, (h.conns conn).sockFd ≠ some fd → h'.socks fd = h.socks fd := by
    intro h' h
    subst h
    refine ⟨rfl, rfl, fun c hne => Function.update_of_ne hne .., ?_, fun _ => rfl, fun fd _ => rfl⟩
    simp only [setConn, Function.update_self]; rfl
  cases hs : (h.conns conn).sockFd with
  | none => exact hs ▸ hflags _ (by simp only [connDisconnect, hs])
  | some fd₀ =>
    by_cases ho : (h.socks fd₀).isOpen = true
    · have he : (connDisconnect h conn).2 = setSock (setConn h conn { h.conns conn with
          connected := false, errorOccured := false }) fd₀ { h.socks fd₀ with isOpen := false, connected := false } := by
        simp only [connDisconnect, hs]
        rw [if_pos (by exact ho)]
        rfl
      obtain ⟨h1, h2, h3, h4, -, -⟩ := hflags _ rfl
      rw [he]
      refine ⟨h1, h2, h3, h4, fun fd => ?_, fun fd hne => ?_⟩
      · by_cases hfd : fd = fd₀
        · subst hfd; simp only [setSock, Function.update_self]
        · simp only [setSock, Function.update_of_ne hfd]; rfl
      · have hfd : fd ≠ fd₀ := fun e => hne (by rw [e])
        exact Function.update_of_ne hfd ..
    · rw [← hs]
      refine hflags _ ?_
      simp only [connDisconnect, hs]
      rw [if_neg (by exact ho)]

/-- Reconnecting closes the old socket and touches no other. -/
theorem connReconnect_spec (h : Heap κ) (conn : Nat) (r : Connect) (now : Timeval) :
    Attempt h (connReconnect h conn r now).2 conn ∧
      (∀ fd < h.nextSock, (h.conns conn).sockFd ≠ some fd → (connReconnect h conn r now).2.socks fd = h.socks fd) ∧
      ((connReconnect h conn r now).1 = 0 ↔ r = .accepted) := by
  obtain ⟨hc, hs, hconns, haddr, hpeers, hsocks⟩ := connDisconnect_frame h conn
  obtain ⟨ha, hold, hret⟩ := connConnect_spec (connDisconnect h conn).2 conn r now
  have hattempt : Attempt h (connReconnect h conn r now).2 conn :=
    ⟨ha.nextConn.trans hc, fun c hne => (ha.conns c hne).trans (hconns c hne), hs ▸ ha.nextSock,
      fun fd hfd => (ha.peers fd (by omega)).trans (hpeers fd), fun fd hf => hs ▸ ha.fresh fd hf,
      ha.address.trans haddr, ha.peer⟩
  refine ⟨hattempt, fun fd hfd hne => ?_, hret⟩
  exact (hold fd (by omega)).trans (hsocks fd hne)

/-! ## Streams -/

/-- `P` holds of every socket's peer and what travels on it. -/
def Streams (P : Address → κ → Prop) (h : Heap κ) : Prop := ∀ fd, P (h.socks fd).peer (h.socks fd).stream

variable {P : Address → κ → Prop} {h : Heap κ}

omit [Inhabited κ] in
theorem Streams.setSock (hs : Streams P h) (fd : Nat) {s : Sock κ} (hp : P s.peer s.stream) :
    Streams P (setSock h fd s) := by
  intro fd'
  by_cases e : fd' = fd
  · subst e; simpa only [Pool.setSock, Function.update_self] using hp
  · simpa only [Pool.setSock, Function.update_of_ne e] using hs fd'

theorem Streams.connConnect (hs : Streams P h) (h0 : ∀ a, P a default) (conn : Nat) (r : Connect) (now : Timeval) :
    Streams P (connConnect h conn r now).2 := by
  cases r with
  | noSocket => exact hs
  | refused => exact hs.setSock h.nextSock (h0 _)
  | accepted => exact hs.setSock h.nextSock (h0 _)

omit [Inhabited κ] in
theorem Streams.connDisconnect (hs : Streams P h) (conn : Nat) : Streams P (connDisconnect h conn).2 := by
  unfold Pool.connDisconnect
  simp only
  split
  · exact hs
  · rename_i fd _
    split
    · exact Streams.setSock (h := setConn h conn _) hs fd (hs fd)
    · exact hs

theorem Streams.connReconnect (hs : Streams P h) (h0 : ∀ a, P a default) (conn : Nat) (r : Connect) (now : Timeval) :
    Streams P (connReconnect h conn r now).2 :=
  (hs.connDisconnect conn).connConnect h0 conn r now

theorem Streams.poolInitLoop (hs : Streams P h) (h0 : ∀ a, P a default) (pool : PoolObj) (now : Timeval)
    (results : List Connect) : Streams P (poolInitLoop pool h now results).2 := by
  induction results generalizing pool h with
  | nil => exact hs
  | cons r results ih => exact ih (Streams.connConnect (h := allocConn h _) hs h0 h.nextConn r now) _

/-! ## The lists -/

/-- Taking a connection: an idle one, a new one, or none. -/
theorem require_cases (pool : PoolObj) (h : Heap κ) (r : Connect) (now : Timeval) :
    (∃ conn rest, pool.unusedConnList = conn :: rest ∧ poolRequireConnection pool h r now =
      (some conn, { pool with unusedConnList := rest, usedConnList := pool.usedConnList ++ [conn] }, h)) ∨
    (∃ h', (h' = h ∨ h' = (connConnect (allocConn h (connInit pool.host.str pool.port pool.timeoutSecs)) h.nextConn
        r now).2) ∧ poolRequireConnection pool h r now = (none, pool, h')) ∨
    pool.unusedConnList = [] ∧ r = .accepted ∧ poolRequireConnection pool h r now =
      (some h.nextConn, { pool with usedConnList := pool.usedConnList ++ [h.nextConn] },
        (connConnect (allocConn h (connInit pool.host.str pool.port pool.timeoutSecs)) h.nextConn r now).2) := by
  unfold poolRequireConnection
  cases hu : pool.unusedConnList with
  | cons conn rest => exact Or.inl ⟨conn, rest, rfl, rfl⟩
  | nil =>
    right
    simp only
    split
    · have hret := (connConnect_spec (allocConn h (connInit pool.host.str pool.port pool.timeoutSecs)) h.nextConn r
        now).2.2
      split
      · rename_i h0
        exact Or.inr ⟨trivial, hret.mp h0, rfl⟩
      · exact Or.inl ⟨_, Or.inr rfl, rfl⟩
    · exact Or.inl ⟨h, Or.inl rfl, rfl⟩

end Ddm.Pool
