/-
  Ddm.Pool.IdleOrder — the idle list of a pool is ordered by age.

  One pool over runs of `pool_init`, `pool_require_connection`, `conn_reconnect` by a
  holder, `pool_release_connection` as normal and `pool_check`; each reading of the clock
  comes with the call that makes it, and the clock never goes back. `pool_check` reads it
  anew for every connection it looks at.

  Proved: the list is sorted by `last_used_time`, so the connection handed out is the one
  idle the longest, and the check retires the head exactly when the whole pool is idle,
  larger than it has to be, and the head idle for too long (`idle_list_by_age`). It can
  retire another one only when the clock moves on between its looks
  (`late_tick_retires_another`).
-/

import Ddm.Pool.Runs

namespace Ddm.Pool.IdleOrder

open Ddm.Lib
open Machine (Reach exec)

variable {κ : Type} [Inhabited κ]

/-! ## Time -/

def usecs (t : Timeval) : Int := t.tvSec * 1000000 + t.tvUsec

/-- The whole milliseconds of `get_time_difference`. -/
def millis (t : Timeval) : Int := t.tvSec * 1000 + t.tvUsec.tdiv 1000

/-- What `gettimeofday` gives. -/
def Normal (t : Timeval) : Prop := 0 ≤ t.tvUsec ∧ t.tvUsec < 1000000

instance : DecidablePred Normal := fun t => inferInstanceAs (Decidable (0 ≤ t.tvUsec ∧ t.tvUsec < 1000000))

/-- The clock is read again and again, and never goes back. -/
def Ticking : Timeval → List Timeval → Prop
  | _, [] => True
  | clock, t :: ts => Normal t ∧ usecs clock ≤ usecs t ∧ Ticking t ts

def decidableTicking : (clock : Timeval) → (ts : List Timeval) → Decidable (Ticking clock ts)
  | _, [] => isTrue trivial
  | clock, t :: ts =>
    have := decidableTicking t ts
    inferInstanceAs (Decidable (Normal t ∧ usecs clock ≤ usecs t ∧ Ticking t ts))

instance (clock : Timeval) (ts : List Timeval) : Decidable (Ticking clock ts) := decidableTicking clock ts

theorem millis_mono {t t' : Timeval} (h : Normal t) (h' : Normal t') (hle : usecs t ≤ usecs t') :
    millis t ≤ millis t' := by
  obtain ⟨h0, h1⟩ := h
  obtain ⟨h0', h1'⟩ := h'
  unfold usecs at hle
  unfold millis
  rw [Int.tdiv_eq_ediv_of_nonneg h0, Int.tdiv_eq_ediv_of_nonneg h0']
  omega

theorem Ticking.le {clock : Timeval} {ts : List Timeval} (h : Ticking clock ts) :
    ∀ t ∈ ts, Normal t ∧ usecs clock ≤ usecs t := by
  induction ts generalizing clock with
  | nil => intro t ht; cases ht
  | cons x ts ih =>
    intro t ht
    obtain ⟨hx, hle, hrest⟩ := h
    rcases List.mem_cons.mp ht with rfl | ht
    · exact ⟨hx, hle⟩
    · obtain ⟨hn, hxt⟩ := ih hrest t ht
      exact ⟨hn, by omega⟩

/-! ## The machine -/

/-- The loop of `pool_init` with the clock of each attempt. -/
def poolInitLoopAt (pool : PoolObj) (h : Heap κ) : List (Connect × Timeval) → PoolObj × Heap κ
  | [] => (pool, h)
  | (r, now) :: attempts =>
    let conn := h.nextConn
    let (ret, h) := connConnect (allocConn h (connInit pool.host.str pool.port pool.timeoutSecs)) conn r now
    let pool := if ret = 0 then { pool with unusedConnList := pool.unusedConnList ++ [conn] } else pool
    poolInitLoopAt pool h attempts

def poolInitAt (h : Heap κ) (host : CStr) (port timeoutsecs initConnNum minConnNum maxConnNum maxIdleSecs : Int)
    (attempts : List (Connect × Timeval)) : PoolObj × Heap κ :=
  let (pool, h) := poolInitLoopAt ⟨[], [], false, snprintf hostNameLen host, port, timeoutsecs, initConnNum, minConnNum,
    maxConnNum, maxIdleSecs⟩ h attempts
  ({ pool with inited := true }, h)

theorem poolInitLoopAt_const (now : Timeval) (results : List Connect) : ∀ (pool : PoolObj) (h : Heap κ),
    poolInitLoopAt pool h (results.map fun r => (r, now)) = poolInitLoop pool h now results := by
  induction results with
  | nil => intro pool h; rfl
  | cons r results ih => intro pool h; exact ih _ _

/-- With one reading of the clock it is `pool_init` as `Ddm.Pool.ConnPool` has it. -/
theorem poolInitAt_const (h : Heap κ) (host : CStr) (port t i x y idle : Int) (now : Timeval) (results : List Connect) :
    poolInitAt h host port t i x y idle (results.map fun r => (r, now)) =
      poolInit h host port t i x y idle now results := by
  rw [poolInitAt, poolInitLoopAt_const]
  rfl

structure St (κ : Type) where
  pool : PoolObj
  heap : Heap κ
  /-- Set up. -/
  alive : Bool
  /-- The last reading. -/
  clock : Timeval

inductive Call where
  | init (host : CStr) (port timeoutsecs initConnNum minConnNum maxConnNum maxIdleSecs : Int)
      (attempts : List (Connect × Timeval))
  | require (r : Connect) (now : Timeval)
  | reconnect (conn : Nat) (r : Connect) (now : Timeval)
  | release (conn : Nat) (now : Timeval)
  /-- `now c` is the reading when `c` is looked at, `after` a later one. -/
  | check (now : Nat → Timeval) (after : Timeval)

/-- Connections in use are reconnected and given back by whoever holds them. -/
def step (s : St κ) : Call → Option (St κ)
  | .init host port t i x y idle attempts =>
    if s.alive = false ∧ attempts.length = i.toNat ∧ Ticking s.clock (attempts.map (·.2)) then
      let (pool, heap) := poolInitAt s.heap host port t i x y idle attempts
      some ⟨pool, heap, true, (attempts.map (·.2)).getLastD s.clock⟩
    else none
  | .require r now =>
    if s.alive = true ∧ Ticking s.clock [now] then
      let (_, pool, heap) := poolRequireConnection s.pool s.heap r now
      some ⟨pool, heap, true, now⟩
    else none
  | .reconnect conn r now =>
    if s.alive = true ∧ conn ∈ s.pool.usedConnList ∧ Ticking s.clock [now] then
      some ⟨s.pool, (connReconnect s.heap conn r now).2, true, now⟩
    else none
  | .release conn now =>
    if s.alive = true ∧ conn ∈ s.pool.usedConnList ∧ Ticking s.clock [now] then
      let (pool, heap) := poolReleaseConnection s.pool s.heap conn true now
      some ⟨pool, heap, true, now⟩
    else none
  | .check now after =>
    if s.alive = true ∧ Ticking s.clock (s.pool.unusedConnList.map now ++ [after]) then
      let (pool, heap) := poolCheck s.pool s.heap now
      some ⟨pool, heap, true, after⟩
    else none

/-- Before `pool_init`. -/
def start (h : Heap κ) (clock : Timeval) : St κ :=
  ⟨⟨[], [], false, snprintf hostNameLen (CStr.lit ""), 0, 0, 0, 0, 0, 0⟩, h, false, clock⟩

def lastUsed (h : Heap κ) (c : Nat) : Timeval := (h.conns c).lastUsedTime

/-! ## The order -/

/-- These connections are idle since the times they carry, the longest first. -/
structure Ordered (h : Heap κ) (clock : Timeval) (us : List Nat) : Prop where
  nodup : us.Nodup
  bound : ∀ c ∈ us, c < h.nextConn
  sorted : us.Pairwise fun c c' => usecs (lastUsed h c) ≤ usecs (lastUsed h c')
  past : ∀ c ∈ us, Normal (lastUsed h c) ∧ usecs (lastUsed h c) ≤ usecs clock

variable {h h' : Heap κ} {clock now : Timeval} {us : List Nat} {conn : Nat}

omit [Inhabited κ] in
theorem Ordered.nil (h : Heap κ) (clock : Timeval) : Ordered h clock [] :=
  ⟨List.nodup_nil, fun _ hc => absurd hc List.not_mem_nil, List.Pairwise.nil, fun _ hc => absurd hc List.not_mem_nil⟩

omit [Inhabited κ] in
/-- Time passes, and other connections change. -/
theorem Ordered.frame (ho : Ordered h clock us) (hn : h.nextConn ≤ h'.nextConn)
    (hc : ∀ c ∈ us, lastUsed h' c = lastUsed h c) (ht : usecs clock ≤ usecs now) : Ordered h' now us := by
  refine ⟨ho.nodup, fun c hm => Nat.lt_of_lt_of_le (ho.bound c hm) hn, ?_, fun c hm => ?_⟩
  · refine ho.sorted.imp_of_mem fun {c c'} hm hm' hle => ?_
    rw [hc c hm, hc c' hm']
    exact hle
  · rw [hc c hm]
    exact ⟨(ho.past c hm).1, Int.le_trans (ho.past c hm).2 ht⟩

omit [Inhabited κ] in
/-- The one stamped last goes to the end. -/
theorem Ordered.append (ho : Ordered h clock us) (hnew : conn ∉ us) (hb : conn < h.nextConn)
    (hn : Normal (lastUsed h conn)) (heq : usecs (lastUsed h conn) = usecs clock) : Ordered h clock (us ++ [conn]) := by
  refine ⟨?_, fun c hm => ?_, ?_, fun c hm => ?_⟩
  · exact List.concat_eq_append ▸ ho.nodup.concat hnew
  · rcases List.mem_append.mp hm with hm | hm
    · exact ho.bound c hm
    · rw [List.mem_singleton.mp hm]
      exact hb
  · refine List.pairwise_append.mpr ⟨ho.sorted, List.pairwise_singleton _ _, fun a ha b hb' => ?_⟩
    rw [List.mem_singleton.mp hb', heq]
    exact (ho.past a ha).2
  · rcases List.mem_append.mp hm with hm | hm
    · exact ho.past c hm
    · rw [List.mem_singleton.mp hm]
      exact ⟨hn, Int.le_of_eq heq⟩

omit [Inhabited κ] in
theorem Ordered.sublist {us' : List Nat} (ho : Ordered h clock us) (hs : us'.Sublist us) : Ordered h clock us' :=
  ⟨ho.nodup.sublist hs, fun c hc => ho.bound c (hs.subset hc), ho.sorted.sublist hs,
    fun c hc => ho.past c (hs.subset hc)⟩

/-- The invariant: the idle ones in order, and those in use apart from them. -/
structure Aged (s : St κ) : Prop where
  idle : Ordered s.heap s.clock s.pool.unusedConnList
  usedNodup : s.pool.usedConnList.Nodup
  usedBound : ∀ c ∈ s.pool.usedConnList, c < s.heap.nextConn
  apart : ∀ c ∈ s.pool.usedConnList, c ∉ s.pool.unusedConnList

omit [Inhabited κ] in
theorem aged_of_used_nil {s : St κ} (ho : Ordered s.heap s.clock s.pool.unusedConnList)
    (hu : s.pool.usedConnList = []) : Aged s :=
  ⟨ho, by rw [hu]; exact List.nodup_nil, fun c hc => absurd (hu ▸ hc) List.not_mem_nil,
    fun c hc => absurd (hu ▸ hc) List.not_mem_nil⟩

/-- A connect stamps the connection when it succeeds, and no other. -/
theorem connConnect_lastUsed (h : Heap κ) (conn : Nat) (r : Connect) (now : Timeval) :
    (∀ c, c ≠ conn → lastUsed (connConnect h conn r now).2 c = lastUsed h c) ∧
      ((connConnect h conn r now).1 = 0 → lastUsed (connConnect h conn r now).2 conn = now) := by
  obtain ⟨ha, -, hret⟩ := connConnect_spec h conn r now
  refine ⟨fun c hne => by rw [lastUsed, ha.conns c hne, lastUsed], fun h0 => ?_⟩
  obtain rfl := hret.mp h0
  simp [lastUsed, connConnect, setConn]

/-- A new connection changes none of the old ones. -/
theorem connectNew_lastUsed (h : Heap κ) (c₀ : ConnObj) (r : Connect) (now : Timeval) {c : Nat} (hc : c < h.nextConn) :
    lastUsed (connConnect (allocConn h c₀) h.nextConn r now).2 c = lastUsed h c := by
  rw [(connConnect_lastUsed _ _ r now).1 c (Nat.ne_of_lt hc)]
  show (Function.update h.conns h.nextConn c₀ c).lastUsedTime = _
  rw [Function.update_of_ne (Nat.ne_of_lt hc)]
  rfl

theorem connectNew_nextConn (h : Heap κ) (c₀ : ConnObj) (r : Connect) (now : Timeval) :
    (connConnect (allocConn h c₀) h.nextConn r now).2.nextConn = h.nextConn + 1 :=
  (connConnect_spec (allocConn h c₀) h.nextConn r now).1.nextConn

/-! ## One call -/

/-- The connections `pool_init` makes are in the order of their attempts. -/
theorem poolInitLoopAt_ordered (attempts : List (Connect × Timeval)) :
    ∀ {pool : PoolObj} {h : Heap κ} {clock : Timeval},
    Ordered h clock pool.unusedConnList → Ticking clock (attempts.map (·.2)) →
    Ordered (poolInitLoopAt pool h attempts).2 ((attempts.map (·.2)).getLastD clock)
        (poolInitLoopAt pool h attempts).1.unusedConnList ∧
      (poolInitLoopAt pool h attempts).1.usedConnList = pool.usedConnList := by
  induction attempts with
  | nil => intro pool h clock ho _; exact ⟨ho, rfl⟩
  | cons a attempts ih =>
    intro pool h clock ho ht
    obtain ⟨r, now⟩ := a
    obtain ⟨hn, hle, hrest⟩ := ht
    have hlast : (((r, now) :: attempts).map (·.2)).getLastD clock = (attempts.map (·.2)).getLastD now := by
      cases attempts with
      | nil => rfl
      | cons b attempts => rfl
    set c₀ := connInit pool.host.str pool.port pool.timeoutSecs with hc₀
    have hold : Ordered (connConnect (allocConn h c₀) h.nextConn r now).2 now pool.unusedConnList := by
      refine ho.frame ?_ (fun c hc => connectNew_lastUsed h c₀ r now (ho.bound c hc)) hle
      rw [connectNew_nextConn]
      exact Nat.le_succ _
    rw [hlast, poolInitLoopAt]
    simp only [← hc₀]
    split
    · rename_i h0
      have hstamp := (connConnect_lastUsed (allocConn h c₀) h.nextConn r now).2 h0
      refine ih ?_ hrest
      refine hold.append (fun hm => Nat.lt_irrefl _ (ho.bound _ hm)) ?_ (by rw [hstamp]; exact hn) (by rw [hstamp])
      rw [connectNew_nextConn]
      exact Nat.lt_succ_self _
    · exact ih hold hrest

theorem aged_require {s : St κ} (ha : Aged s) (r : Connect) {now : Timeval} (hle : usecs s.clock ≤ usecs now) :
    Aged ⟨(poolRequireConnection s.pool s.heap r now).2.1, (poolRequireConnection s.pool s.heap r now).2.2, true,
      now⟩ := by
  have hnew : ∀ c ∈ s.pool.unusedConnList, lastUsed (connConnect (allocConn s.heap (connInit s.pool.host.str s.pool.port
      s.pool.timeoutSecs)) s.heap.nextConn r now).2 c = lastUsed s.heap c := fun c hc =>
    connectNew_lastUsed s.heap _ r now (ha.idle.bound c hc)
  rcases require_cases s.pool s.heap r now with ⟨conn, rest, hu, he⟩ | ⟨h', hh', he⟩ | ⟨hu, -, he⟩
  · -- the head moves over
    rw [he]
    have hidle := ha.idle
    rw [hu] at hidle
    have hnotrest : conn ∉ rest := (List.nodup_cons.mp hidle.nodup).1
    have hout : conn ∉ s.pool.usedConnList := fun hm => ha.apart conn hm (by rw [hu]; exact List.mem_cons_self)
    refine ⟨(hidle.sublist (List.sublist_cons_self _ _)).frame (Nat.le_refl _) (fun _ _ => rfl) hle, ?_, ?_, ?_⟩
    · exact List.concat_eq_append ▸ ha.usedNodup.concat hout
    · intro c hc
      rcases List.mem_append.mp hc with hc | hc
      · exact ha.usedBound c hc
      · rw [List.mem_singleton.mp hc]
        exact hidle.bound conn List.mem_cons_self
    · intro c hc hm
      rcases List.mem_append.mp hc with hc | hc
      · exact ha.apart c hc (by rw [hu]; exact List.mem_cons_of_mem _ hm)
      · rw [List.mem_singleton.mp hc] at hm
        exact hnotrest hm
  · rw [he]
    rcases hh' with rfl | rfl
    · exact ⟨ha.idle.frame (Nat.le_refl _) (fun _ _ => rfl) hle, ha.usedNodup, ha.usedBound, ha.apart⟩
    · have hgrow : s.heap.nextConn ≤ (connConnect (allocConn s.heap (connInit s.pool.host.str s.pool.port
          s.pool.timeoutSecs)) s.heap.nextConn r now).2.nextConn := by
        rw [connectNew_nextConn]
        exact Nat.le_succ _
      exact ⟨ha.idle.frame hgrow hnew hle, ha.usedNodup, fun c hc => Nat.lt_of_lt_of_le (ha.usedBound c hc) hgrow,
        ha.apart⟩
  · rw [he]
    have hnext := connectNew_nextConn s.heap (connInit s.pool.host.str s.pool.port s.pool.timeoutSecs) r now
    have hfresh : s.heap.nextConn ∉ s.pool.usedConnList := fun hm => Nat.lt_irrefl _ (ha.usedBound _ hm)
    refine ⟨ha.idle.frame (by rw [hnext]; exact Nat.le_succ _) hnew hle, ?_, ?_, ?_⟩
    · exact List.concat_eq_append ▸ ha.usedNodup.concat hfresh
    · intro c hc
      simp only [hnext]
      rcases List.mem_append.mp hc with hc | hc
      · exact Nat.lt_succ_of_lt (ha.usedBound c hc)
      · rw [List.mem_singleton.mp hc]
        exact Nat.lt_succ_self _
    · intro c _ hm
      simp only [hu] at hm
      cases hm

theorem aged_reconnect {s : St κ} (ha : Aged s) {conn : Nat} (hc : conn ∈ s.pool.usedConnList) (r : Connect)
    {now : Timeval} (hle : usecs s.clock ≤ usecs now) :
    Aged ⟨s.pool, (connReconnect s.heap conn r now).2, true, now⟩ := by
  obtain ⟨hat, -, -⟩ := connReconnect_spec s.heap conn r now
  have hnext := hat.nextConn
  refine ⟨ha.idle.frame (Nat.le_of_eq hnext.symm) (fun c hm => ?_) hle, ha.usedNodup, fun c hm => ?_, ha.apart⟩
  · have hne : c ≠ conn := fun e => ha.apart conn hc (e ▸ hm)
    rw [lastUsed, hat.conns c hne, lastUsed]
  · rw [hnext]
    exact ha.usedBound c hm

omit [Inhabited κ] in
theorem aged_release {s : St κ} (ha : Aged s) {conn : Nat} (hc : conn ∈ s.pool.usedConnList) {now : Timeval}
    (hn : Normal now) (hle : usecs s.clock ≤ usecs now) :
    Aged ⟨(poolReleaseConnection s.pool s.heap conn true now).1, (poolReleaseConnection s.pool s.heap conn true now).2,
      true, now⟩ := by
  have hstamp : lastUsed (poolReleaseConnection s.pool s.heap conn true now).2 conn = now := by
    simp [lastUsed, poolReleaseConnection, setConn]
  have hout := ha.apart conn hc
  have hold : Ordered (poolReleaseConnection s.pool s.heap conn true now).2 now s.pool.unusedConnList := by
    refine ha.idle.frame (Nat.le_refl _) (fun c hm => ?_) hle
    have hne : c ≠ conn := fun e => hout (e ▸ hm)
    show (Function.update s.heap.conns conn _ c).lastUsedTime = _
    rw [Function.update_of_ne hne]
    rfl
  refine ⟨hold.append hout (ha.usedBound conn hc) (by rw [hstamp]; exact hn) (by rw [hstamp]),
    ha.usedNodup.erase _, fun c hm => ha.usedBound c (List.mem_of_mem_erase hm), fun c hm hu => ?_⟩
  obtain ⟨hne, hm⟩ := ha.usedNodup.mem_erase_iff.mp hm
  rcases List.mem_append.mp hu with hu | hu
  · exact ha.apart c hm hu
  · exact hne (List.mem_singleton.mp hu)

omit [Inhabited κ] in
/-- Closing a connection leaves the times alone. -/
theorem connDisconnect_lastUsed (h : Heap κ) (conn c : Nat) : lastUsed (connDisconnect h conn).2 c = lastUsed h c := by
  have hflags : lastUsed (setConn h conn { h.conns conn with connected := false, errorOccured := false }) c =
      lastUsed h c := by
    by_cases hne : c = conn
    · subst hne
      simp [lastUsed, setConn]
    · show (Function.update h.conns conn _ c).lastUsedTime = _
      rw [Function.update_of_ne hne]
      rfl
  unfold connDisconnect
  simp only
  split
  · exact hflags
  · split
    · exact hflags
    · exact hflags

omit [Inhabited κ] in
/-- What the check can do: nothing, or retire the first that is idle for too long. -/
theorem poolCheck_cases (pool : PoolObj) (h : Heap κ) (now : Nat → Timeval) :
    (poolCheck pool h now = (pool, h) ∧ ((pool.usedConnList = [] ∧ pool.minConnNum < pool.unusedConnList.length) →
      ∀ c ∈ pool.unusedConnList, connIsIdleTimeout (h.conns c) (pool.maxIdleSecs * 2) (now c) = false)) ∨
    ∃ before c rest, pool.usedConnList = [] ∧ pool.minConnNum < pool.unusedConnList.length ∧
      pool.unusedConnList = before ++ c :: rest ∧
      (∀ b ∈ before, connIsIdleTimeout (h.conns b) (pool.maxIdleSecs * 2) (now b) = false) ∧
      connIsIdleTimeout (h.conns c) (pool.maxIdleSecs * 2) (now c) = true ∧
      poolCheck pool h now =
        ({ pool with unusedConnList := pool.unusedConnList.erase c }, (connDisconnect h c).2) := by
  unfold poolCheck
  by_cases hg : pool.usedConnList.length = 0 ∧ (pool.unusedConnList.length : Int) - pool.minConnNum > 0
  · rw [if_pos hg]
    cases hf : pool.unusedConnList.find? fun c => connIsIdleTimeout (h.conns c) (pool.maxIdleSecs * 2) (now c) with
    | none =>
      refine Or.inl ⟨rfl, fun _ c hc => ?_⟩
      simpa using List.find?_eq_none.mp hf c hc
    | some c =>
      obtain ⟨hc, before, rest, hsplit, hb⟩ := List.find?_eq_some_iff_append.mp hf
      refine Or.inr ⟨before, c, rest, List.eq_nil_of_length_eq_zero hg.1, by omega, hsplit, fun b hm => ?_, hc, rfl⟩
      simpa using hb b hm
  · rw [if_neg hg]
    refine Or.inl ⟨rfl, fun hh => absurd ⟨?_, ?_⟩ hg⟩
    · rw [hh.1]
      rfl
    · omega

omit [Inhabited κ] in
theorem aged_check {s : St κ} (ha : Aged s) (now : Nat → Timeval) {after : Timeval}
    (hle : usecs s.clock ≤ usecs after) :
    Aged ⟨(poolCheck s.pool s.heap now).1, (poolCheck s.pool s.heap now).2, true, after⟩ := by
  rcases poolCheck_cases s.pool s.heap now with ⟨he, -⟩ | ⟨before, c, rest, -, -, -, -, -, he⟩
  · rw [he]
    exact ⟨ha.idle.frame (Nat.le_refl _) (fun _ _ => rfl) hle, ha.usedNodup, ha.usedBound, ha.apart⟩
  · rw [he]
    have hnext : (connDisconnect s.heap c).2.nextConn = s.heap.nextConn := (connDisconnect_frame s.heap c).1
    refine ⟨(ha.idle.sublist List.erase_sublist).frame (Nat.le_of_eq hnext.symm)
      (fun c' _ => connDisconnect_lastUsed s.heap c c') hle, ha.usedNodup, fun c' hm => ?_, fun c' hm hu => ?_⟩
    · simp only [hnext]
      exact ha.usedBound c' hm
    · exact ha.apart c' hm (List.mem_of_mem_erase hu)

/-! ## Whole runs -/

theorem Aged.step {s t : St κ} (ha : Aged s) {a : Call} (hst : IdleOrder.step s a = some t) : Aged t := by
  cases a with
  | init host port timeout i x y idle attempts =>
    simp only [IdleOrder.step] at hst
    split at hst
    · rename_i hg
      obtain rfl := Option.some.inj hst
      have hpool : (PoolObj.mk [] [] false (snprintf hostNameLen host) port timeout i x y idle).unusedConnList = [] :=
        rfl
      obtain ⟨ho, hu⟩ := poolInitLoopAt_ordered attempts (hpool ▸ Ordered.nil s.heap s.clock) hg.2.2
      exact aged_of_used_nil ho hu
    · cases hst
  | require r now =>
    simp only [IdleOrder.step] at hst
    split at hst
    · rename_i hg
      obtain rfl := Option.some.inj hst
      exact aged_require ha r hg.2.2.1
    · cases hst
  | reconnect conn r now =>
    simp only [IdleOrder.step] at hst
    split at hst
    · rename_i hg
      obtain rfl := Option.some.inj hst
      exact aged_reconnect ha hg.2.1 r hg.2.2.2.1
    · cases hst
  | release conn now =>
    simp only [IdleOrder.step] at hst
    split at hst
    · rename_i hg
      obtain rfl := Option.some.inj hst
      exact aged_release ha hg.2.1 hg.2.2.1 hg.2.2.2.1
    · cases hst
  | check now after =>
    simp only [IdleOrder.step] at hst
    split at hst
    · rename_i hg
      obtain rfl := Option.some.inj hst
      exact aged_check ha now (hg.2.le after (List.mem_append_right _ (List.mem_singleton_self _))).2
    · cases hst

theorem aged_of_reach {h₀ : Heap κ} {clock₀ : Timeval} {s : St κ}
    (h : Reach step (fun _ _ => True) (start h₀ clock₀) s) : Aged s := by
  refine h.inv (I := Aged) ?_ fun s a t ha _ hst => ha.step hst
  exact aged_of_used_nil (Ordered.nil h₀ clock₀) rfl

/-! ## The check -/

/-- How long the connection has been idle when it is looked at. -/
def idleMillis (h : Heap κ) (now : Nat → Timeval) (c : Nat) : Int := millis (now c) - millis (lastUsed h c)

/-- `max_idle_secs * 2000` as the `unsigned int` it is compared as. -/
def idleLimit (maxIdleSecs : Int) : Int := if 0 ≤ maxIdleSecs then maxIdleSecs * 2000 else 2 ^ 32 + maxIdleSecs * 2000

/-- What `pool_check` does to the idle list at these readings of the clock. -/
structure Retires (pool : PoolObj) (h : Heap κ) (now : Nat → Timeval) : Prop where
  head : ∀ c rest, pool.unusedConnList = c :: rest → ((poolCheck pool h now).1.unusedConnList = rest ↔
    pool.usedConnList = [] ∧ pool.minConnNum < pool.unusedConnList.length ∧
      idleLimit pool.maxIdleSecs < idleMillis h now c)
  others : (poolCheck pool h now).1.unusedConnList = pool.unusedConnList ∨
    pool.usedConnList = [] ∧ pool.minConnNum < pool.unusedConnList.length ∧ ∃ c ∈ pool.unusedConnList,
      (poolCheck pool h now).1.unusedConnList = pool.unusedConnList.erase c ∧
      idleLimit pool.maxIdleSecs < idleMillis h now c ∧
      ∀ first, pool.unusedConnList.head? = some first → first ≠ c →
        idleMillis h now first ≤ idleLimit pool.maxIdleSecs ∧ millis (now first) < millis (now c)

/-- The conditions on a check: later looks read later clocks, and no idle time wraps. -/
structure CheckAt (s : St κ) (now : Nat → Timeval) : Prop where
  ticking : Ticking s.clock (s.pool.unusedConnList.map now)
  short : ∀ c ∈ s.pool.unusedConnList, idleMillis s.heap now c < 2 ^ 32
  limit : -2 ^ 31 ≤ s.pool.maxIdleSecs * 2000 ∧ s.pool.maxIdleSecs * 2000 < 2 ^ 31

instance (s : St κ) (now : Nat → Timeval) : Decidable (CheckAt s now) :=
  decidable_of_iff (Ticking s.clock (s.pool.unusedConnList.map now) ∧
      (∀ c ∈ s.pool.unusedConnList, idleMillis s.heap now c < 2 ^ 32) ∧
      -2 ^ 31 ≤ s.pool.maxIdleSecs * 2000 ∧ s.pool.maxIdleSecs * 2000 < 2 ^ 31)
    ⟨fun h => ⟨h.1, h.2.1, h.2.2⟩, fun h => ⟨h.ticking, h.short, h.limit⟩⟩

theorem unsigned_limit {maxIdleSecs : Int} (hlow : -2 ^ 31 ≤ maxIdleSecs * 2000) (hhigh : maxIdleSecs * 2000 < 2 ^ 31) :
    ((maxIdleSecs * 2000 % 2 ^ 32).toNat : Int) = idleLimit maxIdleSecs := by
  rw [Int.toNat_of_nonneg (Int.emod_nonneg _ (by decide))]
  unfold idleLimit
  split
  · exact Int.emod_eq_of_lt (by omega) (by omega)
  · have hwrap : (2 ^ 32 + maxIdleSecs * 2000) % 2 ^ 32 = maxIdleSecs * 2000 % 2 ^ 32 := Int.add_emod_left ..
    rw [← hwrap]
    exact Int.emod_eq_of_lt (by omega) (by omega)

omit [Inhabited κ] in
/-- The code's comparison, for an idle connection. -/
theorem idleTimeout_iff {s : St κ} (ha : Aged s) {now : Nat → Timeval} (hc : CheckAt s now) {c : Nat}
    (hm : c ∈ s.pool.unusedConnList) :
    connIsIdleTimeout (s.heap.conns c) (s.pool.maxIdleSecs * 2) (now c) = true ↔
      idleLimit s.pool.maxIdleSecs < idleMillis s.heap now c := by
  obtain ⟨hn, hle⟩ := hc.ticking.le (now c) (List.mem_map.mpr ⟨c, hm, rfl⟩)
  obtain ⟨hn', hle'⟩ := ha.idle.past c hm
  have hmono := millis_mono hn' hn (hle'.trans hle)
  have hshort := hc.short c hm
  obtain ⟨hlow, hhigh⟩ := hc.limit
  have hdiff : (getTimeDifference (s.heap.conns c).lastUsedTime (now c) : Int) = idleMillis s.heap now c := by
    have he : getTimeDifference (s.heap.conns c).lastUsedTime (now c) = (idleMillis s.heap now c % 2 ^ 32).toNat := rfl
    have h0 : 0 ≤ idleMillis s.heap now c := Int.sub_nonneg_of_le hmono
    rw [he, Int.emod_eq_of_lt h0 hshort, Int.toNat_of_nonneg h0]
  have hlimit : (((s.pool.maxIdleSecs * 2 * 1000) % 2 ^ 32).toNat : Int) = idleLimit s.pool.maxIdleSecs := by
    rw [Int.mul_assoc]
    exact unsigned_limit hlow hhigh
  rw [connIsIdleTimeout, decide_eq_true_eq, ← hdiff, ← hlimit]
  exact Int.ofNat_lt.symm

/-- The check as `poolCheck_cases` has it, when it retires the connection `c`. -/
structure Retired (s : St κ) (now : Nat → Timeval) (before : List Nat) (c : Nat) (rest : List Nat) : Prop where
  used : s.pool.usedConnList = []
  many : s.pool.minConnNum < s.pool.unusedConnList.length
  split : s.pool.unusedConnList = before ++ c :: rest
  stay : ∀ b ∈ before, connIsIdleTimeout (s.heap.conns b) (s.pool.maxIdleSecs * 2) (now b) = false
  out : connIsIdleTimeout (s.heap.conns c) (s.pool.maxIdleSecs * 2) (now c) = true
  list : (poolCheck s.pool s.heap now).1.unusedConnList = s.pool.unusedConnList.erase c

section Check

variable {s : St κ} {now : Nat → Timeval} {before rest : List Nat} {b c : Nat}

omit [Inhabited κ] in
theorem Retired.mem (hr : Retired s now before c rest) : c ∈ s.pool.unusedConnList := by
  rw [hr.split]
  simp

omit [Inhabited κ] in
theorem retires_none (ha : Aged s) (hc : CheckAt s now) (he : poolCheck s.pool s.heap now = (s.pool, s.heap))
    (hnone : (s.pool.usedConnList = [] ∧ s.pool.minConnNum < s.pool.unusedConnList.length) →
      ∀ c ∈ s.pool.unusedConnList, connIsIdleTimeout (s.heap.conns c) (s.pool.maxIdleSecs * 2) (now c) = false) :
    Retires s.pool s.heap now := by
  refine ⟨fun c rest hl => ?_, Or.inl (by rw [he])⟩
  refine iff_of_false (fun hrest => ?_) fun hh => ?_
  · -- the list is not its own tail
    have hlen := congrArg List.length (hl.symm.trans ((congrArg (fun x => x.1.unusedConnList) he).symm.trans hrest))
    rw [List.length_cons] at hlen
    omega
  · have hm : c ∈ s.pool.unusedConnList := by rw [hl]; exact List.mem_cons_self
    have htrue := (idleTimeout_iff ha hc hm).mpr hh.2.2
    rw [hnone ⟨hh.1, hh.2.1⟩ c hm] at htrue
    cases htrue

omit [Inhabited κ] in
theorem retires_head (ha : Aged s) (hc : CheckAt s now) (hr : Retired s now [] c rest) :
    Retires s.pool s.heap now := by
  have hlim := (idleTimeout_iff ha hc hr.mem).mp hr.out
  have hsplit : s.pool.unusedConnList = c :: rest := hr.split
  refine ⟨fun c' rest' hl => ?_, Or.inr ⟨hr.used, hr.many, c, hr.mem, hr.list, hlim, fun first hf hne => ?_⟩⟩
  · obtain ⟨rfl, rfl⟩ := List.cons.inj (hsplit.symm.trans hl)
    refine iff_of_true ?_ ⟨hr.used, hr.many, hlim⟩
    rw [hr.list, hsplit, List.erase_cons_head]
  · rw [hsplit] at hf
    exact absurd (Option.some.inj hf).symm hne

omit [Inhabited κ] in
/-- The head has been idle at least as long, so it stays only for an earlier reading. -/
theorem retires_later (ha : Aged s) (hc : CheckAt s now) (hr : Retired s now (b :: before) c rest) :
    Retires s.pool s.heap now := by
  have hlim := (idleTimeout_iff ha hc hr.mem).mp hr.out
  have hb : b ∈ s.pool.unusedConnList := by
    rw [hr.split]
    simp
  have hstays : ¬idleLimit s.pool.maxIdleSecs < idleMillis s.heap now b := fun h => by
    have htrue := (idleTimeout_iff ha hc hb).mpr h
    rw [hr.stay b List.mem_cons_self] at htrue
    cases htrue
  have hne : b ≠ c := fun e => hstays (e ▸ hlim)
  have hold : millis (lastUsed s.heap b) ≤ millis (lastUsed s.heap c) := by
    have hsorted := ha.idle.sorted
    rw [hr.split, List.cons_append, List.pairwise_cons] at hsorted
    exact millis_mono (ha.idle.past b hb).1 (ha.idle.past c hr.mem).1 (hsorted.1 c (by simp))
  have hlater : millis (now b) < millis (now c) := by
    unfold idleMillis at hstays hlim
    omega
  refine ⟨fun c' rest' hl => ?_, Or.inr ⟨hr.used, hr.many, c, hr.mem, hr.list, hlim, fun first hf _ => ?_⟩⟩
  · obtain ⟨rfl, rfl⟩ := List.cons.inj (hl.symm.trans (hr.split.trans (List.cons_append ..)))
    refine iff_of_false (fun hrest => ?_) fun hh => hstays hh.2.2
    -- the head is still there
    have hin : c' ∈ (poolCheck s.pool s.heap now).1.unusedConnList := by
      rw [hr.list]
      exact (List.mem_erase_of_ne hne).mpr hb
    have hnd := ha.idle.nodup
    rw [hrest] at hin
    rw [hl] at hnd
    exact (List.nodup_cons.mp hnd).1 hin
  · rw [hr.split] at hf
    obtain rfl := Option.some.inj hf
    exact ⟨Int.not_lt.mp hstays, hlater⟩

omit [Inhabited κ] in
theorem retires (ha : Aged s) (hc : CheckAt s now) : Retires s.pool s.heap now := by
  rcases poolCheck_cases s.pool s.heap now with ⟨he, hnone⟩ | ⟨before, c, rest, hu, hmin, hsplit, hbefore, hout, he⟩
  · exact retires_none ha hc he hnone
  · have hr : Retired s now before c rest := ⟨hu, hmin, hsplit, hbefore, hout, by rw [he]⟩
    cases before with
    | nil => exact retires_head ha hc hr
    | cons b before => exact retires_later ha hc hr

end Check

theorem idle_list_by_age {h₀ : Heap κ} {clock₀ : Timeval} {s : St κ}
    (h : Reach step (fun _ _ => True) (start h₀ clock₀) s) :
    (s.pool.unusedConnList.Pairwise fun c c' => usecs (lastUsed s.heap c) ≤ usecs (lastUsed s.heap c')) ∧
      (∀ c rest r now, s.pool.unusedConnList = c :: rest → (poolRequireConnection s.pool s.heap r now).1 = some c ∧
        ∀ c' ∈ s.pool.unusedConnList, usecs (lastUsed s.heap c) ≤ usecs (lastUsed s.heap c')) ∧
      ∀ now, CheckAt s now → Retires s.pool s.heap now := by
  have ha := aged_of_reach h
  refine ⟨ha.idle.sorted, fun c rest r now hl => ⟨?_, fun c' hc' => ?_⟩, fun now hc => retires ha hc⟩
  · rw [poolRequireConnection, hl]
  · have hsorted := ha.idle.sorted
    rw [hl, List.pairwise_cons] at hsorted
    rw [hl] at hc'
    rcases List.mem_cons.mp hc' with rfl | hc'
    · exact Int.le_refl _
    · exact hsorted.1 c' hc'

/-- Two connections made in the same millisecond. -/
def sampleCalls (maxIdleSecs : Int) : List Call :=
  [.init (CStr.lit "10.0.0.1") 80 3 2 1 6 maxIdleSecs [(.accepted, ⟨100, 0⟩), (.accepted, ⟨100, 0⟩)]]

theorem idle_list_by_age_sample : ∃ s : St Unit, s.pool.unusedConnList = [1, 0] ∧
    s.pool.unusedConnList.Pairwise fun c c' => usecs (lastUsed s.heap c) ≤ usecs (lastUsed s.heap c') := by
  have hrun : (exec step (fun _ _ => True) (start Linked.freshHeap ⟨0, 0⟩) (sampleCalls 60 ++
      [.require .refused ⟨101, 0⟩, .reconnect 0 .accepted ⟨101, 5⟩, .release 0 ⟨102, 0⟩,
        .check (fun _ => ⟨103, 0⟩) ⟨103, 0⟩])).any
      (fun s : St Unit => decide (s.pool.unusedConnList = [1, 0])) = true := by
    decide +kernel
  obtain ⟨s, hreach, hs⟩ := Machine.reach_of_exec_any hrun
  exact ⟨s, of_decide_eq_true hs, (idle_list_by_age hreach).1⟩

/-- The second connection is looked at a millisecond after the first, when the limit of
    both has run out: it is retired, and not the head. And a negative setting is compared
    as unsigned: nothing is retired. -/
theorem late_tick_retires_another :
    (∃ s : St Unit, Reach step (fun _ _ => True) (start Linked.freshHeap ⟨0, 0⟩) s ∧
      ∃ now, CheckAt s now ∧ (poolCheck s.pool s.heap now).1.unusedConnList ≠ s.pool.unusedConnList ∧
        (poolCheck s.pool s.heap now).1.unusedConnList ≠ s.pool.unusedConnList.tail) ∧
    ∃ s : St Unit, Reach step (fun _ _ => True) (start Linked.freshHeap ⟨0, 0⟩) s ∧
      ∃ now, CheckAt s now ∧ s.pool.usedConnList = [] ∧ s.pool.minConnNum < s.pool.unusedConnList.length ∧
        (∀ c ∈ s.pool.unusedConnList, s.pool.maxIdleSecs * 2000 < idleMillis s.heap now c) ∧
        (poolCheck s.pool s.heap now).1.unusedConnList = s.pool.unusedConnList := by
  constructor
  · let now : Nat → Timeval := fun c => if c = 0 then ⟨220, 0⟩ else ⟨220, 1000⟩
    have hrun : (exec step (fun _ _ => True) (start Linked.freshHeap ⟨0, 0⟩) (sampleCalls 60)).any
        (fun s : St Unit => decide (CheckAt s now ∧
          (poolCheck s.pool s.heap now).1.unusedConnList ≠ s.pool.unusedConnList ∧
          (poolCheck s.pool s.heap now).1.unusedConnList ≠ s.pool.unusedConnList.tail)) = true := by
      decide +kernel
    obtain ⟨s, hreach, hs⟩ := Machine.reach_of_exec_any hrun
    exact ⟨s, hreach, now, of_decide_eq_true hs⟩
  · let now : Nat → Timeval := fun _ => ⟨100, 5000⟩
    have hrun : (exec step (fun _ _ => True) (start Linked.freshHeap ⟨0, 0⟩) (sampleCalls (-1))).any
        (fun s : St Unit => decide (CheckAt s now ∧ s.pool.usedConnList = [] ∧
          s.pool.minConnNum < s.pool.unusedConnList.length ∧
          (∀ c ∈ s.pool.unusedConnList, s.pool.maxIdleSecs * 2000 < idleMillis s.heap now c) ∧
          (poolCheck s.pool s.heap now).1.unusedConnList = s.pool.unusedConnList)) = true := by
      decide +kernel
    obtain ⟨s, hreach, hs⟩ := Machine.reach_of_exec_any hrun
    exact ⟨s, hreach, now, of_decide_eq_true hs⟩

end Ddm.Pool.IdleOrder
