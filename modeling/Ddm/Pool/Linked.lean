/-
  Ddm.Pool.Linked — a pool as it is in memory: the heads of its two lists, and one link
  in every connection object.

  The functions are those of `conn_pool.c` with the list macros written out, so each may
  have no result (a walk that does not end, a null pointer followed). A walk may take as
  many steps as there are objects. `Mem` also records the descriptors given to `close`.

  Proved: from a state in which the heads lead to the lists `us` and `ds`, with no
  object twice (`Rep`), every function has a result, again such a state, and it is what
  the function of `Ddm.Pool.ConnPool` computes on the lists.
-/

import Mathlib.Data.List.Perm.Subperm
import Ddm.Lib.LinkedList
import Ddm.Pool.Ownership

namespace Ddm.Pool.Linked

open Ddm.Lib
open LinkedList (Chain)

structure LinkedPool where
  unusedConnList : Option Nat
  usedConnList : Option Nat
  inited : Bool
  host : CharBuf hostNameLen
  port : Int
  timeoutSecs : Int
  initConnNum : Int
  minConnNum : Int
  maxConnNum : Int
  maxIdleSecs : Int
  deriving DecidableEq

structure Mem (κ : Type) where
  heap : Heap κ
  /-- `conn->next` -/
  next : Nat → Option Nat
  /-- What was given to `close`, the latest first. -/
  closed : List Nat

variable {κ : Type} [Inhabited κ]

/-! ## The functions -/

/-- The longest walk there can be. -/
def Mem.steps (m : Mem κ) : Nat := m.heap.nextConn

def poolGetIdleConnNum (pool : LinkedPool) (m : Mem κ) : Option Nat :=
  LinkedList.count m.next m.steps pool.unusedConnList

def poolGetUsedConnNum (pool : LinkedPool) (m : Mem κ) : Option Nat :=
  LinkedList.count m.next m.steps pool.usedConnList

def connDisconnect (m : Mem κ) (conn : Nat) : Mem κ :=
  { m with heap := (Pool.connDisconnect m.heap conn).2, closed := (m.heap.conns conn).sockFd.toList ++ m.closed }

def connReconnect (m : Mem κ) (conn : Nat) (r : Connect) (now : Timeval) : Mem κ :=
  let m := connDisconnect m conn
  { m with heap := (connConnect m.heap conn r now).2 }

def unusedDelete (pool : LinkedPool) (m : Mem κ) (conn : Nat) : Option (LinkedPool × Mem κ) :=
  (LinkedList.delete m.steps m.next pool.unusedConnList conn).map fun (next, head) =>
    ({ pool with unusedConnList := head }, { m with next := next })

def unusedAppend (pool : LinkedPool) (m : Mem κ) (conn : Nat) : Option (LinkedPool × Mem κ) :=
  (LinkedList.append m.steps m.next pool.unusedConnList conn).map fun (next, head) =>
    ({ pool with unusedConnList := head }, { m with next := next })

def usedDelete (pool : LinkedPool) (m : Mem κ) (conn : Nat) : Option (LinkedPool × Mem κ) :=
  (LinkedList.delete m.steps m.next pool.usedConnList conn).map fun (next, head) =>
    ({ pool with usedConnList := head }, { m with next := next })

def usedAppend (pool : LinkedPool) (m : Mem κ) (conn : Nat) : Option (LinkedPool × Mem κ) :=
  (LinkedList.append m.steps m.next pool.usedConnList conn).map fun (next, head) =>
    ({ pool with usedConnList := head }, { m with next := next })

/-- `malloc`, `conn_init` and `conn_connect`. -/
def newConn (pool : LinkedPool) (m : Mem κ) (r : Connect) (now : Timeval) : Int × Mem κ :=
  let (ret, heap) := connConnect (allocConn m.heap (connInit pool.host.str pool.port pool.timeoutSecs))
    m.heap.nextConn r now
  (ret, { m with heap := heap })

def poolInitLoop (pool : LinkedPool) (m : Mem κ) (now : Timeval) : List Connect → Option (LinkedPool × Mem κ)
  | [] => some (pool, m)
  | r :: results =>
    let conn := m.heap.nextConn
    let (ret, m) := newConn pool m r now
    if ret = 0 then (unusedAppend pool m conn).bind fun (pool, m) => poolInitLoop pool m now results
    else poolInitLoop pool m now results

def poolInit (m : Mem κ) (host : CStr) (port timeoutsecs initConnNum minConnNum maxConnNum maxIdleSecs : Int)
    (now : Timeval) (results : List Connect) : Option (LinkedPool × Mem κ) :=
  (poolInitLoop ⟨none, none, false, snprintf hostNameLen host, port, timeoutsecs, initConnNum, minConnNum, maxConnNum,
    maxIdleSecs⟩ m now results).map fun (pool, m) => ({ pool with inited := true }, m)

def poolRequireConnection (pool : LinkedPool) (m : Mem κ) (r : Connect) (now : Timeval) :
    Option (Option Nat × LinkedPool × Mem κ) := do
  let count ← poolGetIdleConnNum pool m
  if count > 0 then
    let conn ← pool.unusedConnList
    let (pool, m) ← unusedDelete pool m conn
    let (pool, m) ← usedAppend pool m conn
    return (some conn, pool, m)
  else
    let used ← poolGetUsedConnNum pool m
    if ((used + count : Nat) : Int) < pool.maxConnNum then
      let conn := m.heap.nextConn
      let (ret, m) := newConn pool m r now
      if ret = 0 then
        let (pool, m) ← usedAppend pool m conn
        return (some conn, pool, m)
      else return (none, pool, m)
    else return (none, pool, m)

def poolReleaseConnection (pool : LinkedPool) (m : Mem κ) (conn : Nat) (releaseAsNormal : Bool) (now : Timeval) :
    Option (LinkedPool × Mem κ) := do
  let (pool, m) ← usedDelete pool m conn
  let (pool, m) ← unusedAppend pool m conn
  let c := m.heap.conns conn
  let c := if releaseAsNormal then { c with lastUsedTime := now } else { c with errorOccured := true }
  return (pool, { m with heap := setConn m.heap conn c })

/-- LL_FOREACH_SAFE: the next one is read before the body runs. -/
def poolDestroyLoop (pool : LinkedPool) (m : Mem κ) : Nat → Option Nat → Option (LinkedPool × Mem κ)
  | _, none => some (pool, m)
  | 0, some _ => none
  | fuel + 1, some elt =>
    let tmp := m.next elt
    (unusedDelete pool m elt).bind fun (pool, m) => poolDestroyLoop pool (connDisconnect m elt) fuel tmp

def poolDestroy (pool : LinkedPool) (m : Mem κ) : Option (Int × LinkedPool × Mem κ) := do
  let count ← poolGetUsedConnNum pool m
  if count > 0 then return (-1, pool, m)
  else
    let (pool, m) ← poolDestroyLoop pool m m.steps pool.unusedConnList
    return (0, pool, m)

def poolCheckLoop (pool : LinkedPool) (m : Mem κ) (now : Nat → Timeval) : Nat → Option Nat → Option (LinkedPool × Mem κ)
  | _, none => some (pool, m)
  | 0, some _ => none
  | fuel + 1, some elt =>
    if connIsIdleTimeout (m.heap.conns elt) (pool.maxIdleSecs * 2) (now elt) then
      (unusedDelete pool m elt).map fun (pool, m) => (pool, connDisconnect m elt)
    else poolCheckLoop pool m now fuel (m.next elt)

def poolCheck (pool : LinkedPool) (m : Mem κ) (now : Nat → Timeval) : Option (LinkedPool × Mem κ) := do
  let usedConnNum ← poolGetUsedConnNum pool m
  if usedConnNum = 0 then
    let idleConnNum ← poolGetIdleConnNum pool m
    let canCloseNum := (idleConnNum : Int) - pool.minConnNum
    if canCloseNum > 0 then poolCheckLoop pool m now m.steps pool.unusedConnList
    else return (pool, m)
  else return (pool, m)

/-! ## Pools and their lists -/

/-- The pool as `Ddm.Pool.ConnPool` has it. -/
def LinkedPool.listed (pool : LinkedPool) (us ds : List Nat) : PoolObj :=
  ⟨us, ds, pool.inited, pool.host, pool.port, pool.timeoutSecs, pool.initConnNum, pool.minConnNum, pool.maxConnNum,
    pool.maxIdleSecs⟩

/-- The heads lead to `us` and `ds`. -/
structure Rep (pool : LinkedPool) (m : Mem κ) (us ds : List Nat) : Prop where
  unused : Chain m.next pool.unusedConnList us
  used : Chain m.next pool.usedConnList ds
  nodup : (us ++ ds).Nodup
  below : ∀ c ∈ us ++ ds, c < m.heap.nextConn

variable {pool : LinkedPool} {m : Mem κ} {us ds : List Nat} {conn : Nat}

omit [Inhabited κ] in
theorem Rep.steps (hr : Rep pool m us ds) : us.length + ds.length ≤ m.steps := by
  have hsub : us ++ ds ⊆ List.range m.heap.nextConn := fun c hc => List.mem_range.mpr (hr.below c hc)
  have := (hr.nodup.subperm hsub).length_le
  rwa [List.length_append, List.length_range] at this

omit [Inhabited κ] in
theorem Rep.disjoint (hr : Rep pool m us ds) {c : Nat} (hu : c ∈ us) (hd : c ∈ ds) : False :=
  (List.nodup_append.mp hr.nodup).2.2 c hu c hd rfl

omit [Inhabited κ] in
theorem Rep.idle (hr : Rep pool m us ds) : poolGetIdleConnNum pool m = some us.length :=
  hr.unused.count (Nat.le_trans (Nat.le_add_right ..) hr.steps)

omit [Inhabited κ] in
theorem Rep.inUse (hr : Rep pool m us ds) : poolGetUsedConnNum pool m = some ds.length :=
  hr.used.count (Nat.le_trans (Nat.le_add_left ..) hr.steps)

omit [Inhabited κ] in
/-- The first idle connection is the head. -/
theorem Rep.first {rest : List Nat} (hr : Rep pool m (conn :: rest) ds) :
    pool.unusedConnList = some conn ∧ Chain m.next (m.next conn) rest := by
  have h := hr.unused
  generalize pool.unusedConnList = head at h
  cases h with
  | cons h => exact ⟨rfl, h⟩

omit [Inhabited κ] in
theorem Rep.noneIdle (hr : Rep pool m [] ds) : pool.unusedConnList = none := by
  have h := hr.unused
  generalize pool.unusedConnList = head at h
  cases h
  rfl

omit [Inhabited κ] in
/-- No list is touched where links and heads stay as they are. -/
theorem Rep.frame {m' : Mem κ} (hr : Rep pool m us ds) (hn : m'.next = m.next)
    (hb : m.heap.nextConn ≤ m'.heap.nextConn) : Rep pool m' us ds :=
  ⟨hn ▸ hr.unused, hn ▸ hr.used, hr.nodup, fun c hc => Nat.lt_of_lt_of_le (hr.below c hc) hb⟩

/-! ## The macros on one of the lists -/

omit [Inhabited κ] in
theorem Rep.unusedDelete (hr : Rep pool m us ds) (conn : Nat) (hne : us ≠ []) :
    ∃ head next, unusedDelete pool m conn = some ({ pool with unusedConnList := head }, { m with next := next }) ∧
      Rep { pool with unusedConnList := head } { m with next := next } (us.erase conn) ds := by
  have hf : us.length ≤ m.steps := Nat.le_trans (Nat.le_add_right ..) hr.steps
  obtain ⟨next, head, hd, hc, hframe⟩ := hr.unused.delete conn hne hf
  refine ⟨head, next, by rw [Linked.unusedDelete, hd]; rfl, hc, hr.used.congr fun c hc => ?_, ?_, fun c hc => ?_⟩
  · exact hframe c fun hu => hr.disjoint hu hc
  · exact hr.nodup.sublist (List.erase_sublist.append_right ds)
  · exact hr.below c ((List.erase_sublist.append_right ds).subset hc)

omit [Inhabited κ] in
theorem Rep.usedDelete (hr : Rep pool m us ds) (conn : Nat) (hne : ds ≠ []) :
    ∃ head next, usedDelete pool m conn = some ({ pool with usedConnList := head }, { m with next := next }) ∧
      Rep { pool with usedConnList := head } { m with next := next } us (ds.erase conn) := by
  have hf : ds.length ≤ m.steps := Nat.le_trans (Nat.le_add_left ..) hr.steps
  obtain ⟨next, head, hd, hc, hframe⟩ := hr.used.delete conn hne hf
  refine ⟨head, next, by rw [Linked.usedDelete, hd]; rfl, hr.unused.congr fun c hc => ?_, hc, ?_, fun c hc => ?_⟩
  · exact hframe c fun hd => hr.disjoint hc hd
  · exact hr.nodup.sublist (List.erase_sublist.append_left us)
  · exact hr.below c ((List.erase_sublist.append_left us).subset hc)

omit [Inhabited κ] in
theorem Rep.unusedAppend (hr : Rep pool m us ds) (hnew : conn ∉ us ++ ds) (hb : conn < m.heap.nextConn) :
    ∃ head next, unusedAppend pool m conn = some ({ pool with unusedConnList := head }, { m with next := next }) ∧
      Rep { pool with unusedConnList := head } { m with next := next } (us ++ [conn]) ds := by
  have hf : us.length ≤ m.steps := Nat.le_trans (Nat.le_add_right ..) hr.steps
  have hadd : conn ∉ us := fun h => hnew (List.mem_append_left ds h)
  obtain ⟨next, head, ha, hc, hframe⟩ := hr.unused.append hadd hf
  have hperm : (us ++ [conn] ++ ds).Perm (conn :: (us ++ ds)) := by
    rw [List.append_assoc]; exact List.perm_middle
  refine ⟨head, next, by rw [Linked.unusedAppend, ha]; rfl, hc, hr.used.congr fun c hc => ?_, ?_, fun c hc => ?_⟩
  · exact hframe c (fun hu => hr.disjoint hu hc) (ne_of_mem_of_not_mem (List.mem_append_right us hc) hnew)
  · exact hperm.nodup_iff.mpr (List.nodup_cons.mpr ⟨hnew, hr.nodup⟩)
  · cases hperm.mem_iff.mp hc with
    | head => exact hb
    | tail _ hc => exact hr.below c hc

omit [Inhabited κ] in
theorem Rep.usedAppend (hr : Rep pool m us ds) (hnew : conn ∉ us ++ ds) (hb : conn < m.heap.nextConn) :
    ∃ head next, usedAppend pool m conn = some ({ pool with usedConnList := head }, { m with next := next }) ∧
      Rep { pool with usedConnList := head } { m with next := next } us (ds ++ [conn]) := by
  have hf : ds.length ≤ m.steps := Nat.le_trans (Nat.le_add_left ..) hr.steps
  have hadd : conn ∉ ds := fun h => hnew (List.mem_append_right us h)
  obtain ⟨next, head, ha, hc, hframe⟩ := hr.used.append hadd hf
  have hperm : (us ++ (ds ++ [conn])).Perm (conn :: (us ++ ds)) := by
    rw [← List.append_assoc]; exact List.perm_append_singleton conn (us ++ ds)
  refine ⟨head, next, by rw [Linked.usedAppend, ha]; rfl, hr.unused.congr fun c hc => ?_, hc, ?_, fun c hc => ?_⟩
  · exact hframe c (fun hd => hr.disjoint hc hd) (ne_of_mem_of_not_mem (List.mem_append_left ds hc) hnew)
  · exact hperm.nodup_iff.mpr (List.nodup_cons.mpr ⟨hnew, hr.nodup⟩)
  · cases hperm.mem_iff.mp hc with
    | head => exact hb
    | tail _ hc => exact hr.below c hc

/-! ## The functions on the lists -/

/-- A new object is in no list. -/
theorem Rep.newConn (hr : Rep pool m us ds) (r : Connect) (now : Timeval) :
    Rep pool (newConn pool m r now).2 us ds ∧ m.heap.nextConn ∉ us ++ ds ∧
      (Linked.newConn pool m r now).2.heap.nextConn = m.heap.nextConn + 1 := by
  have hnext : (Linked.newConn pool m r now).2.heap.nextConn = m.heap.nextConn + 1 :=
    connectNew_nextConn m.heap (pool.listed us ds) r now
  exact ⟨hr.frame rfl (by rw [hnext]; exact Nat.le_succ _), fun h => Nat.lt_irrefl _ (hr.below _ h), hnext⟩

theorem poolInitLoop_listed (now : Timeval) (results : List Connect) (hr : Rep pool m us ds) :
    ∃ pool' m' us', poolInitLoop pool m now results = some (pool', m') ∧ Rep pool' m' us' ds ∧
      Pool.poolInitLoop (pool.listed us ds) m.heap now results = (pool'.listed us' ds, m'.heap) ∧
      m'.closed = m.closed ∧ pool'.listed = pool.listed ∧ us'.length ≤ us.length + results.length := by
  induction results generalizing pool m us with
  | nil => exact ⟨pool, m, us, rfl, hr, rfl, rfl, rfl, Nat.le_refl _⟩
  | cons r results ih =>
    obtain ⟨hr', hnew, hnext⟩ := hr.newConn r now
    by_cases hret : (newConn pool m r now).1 = 0
    · obtain ⟨head, next, ha, hr''⟩ := hr'.unusedAppend hnew (by rw [hnext]; exact Nat.lt_succ_self _)
      obtain ⟨pool', m', us', he, hrep, hp, hc, hs, hlen⟩ := ih hr''
      refine ⟨pool', m', us', ?_, hrep, ?_, hc, hs, ?_⟩
      · simp only [poolInitLoop, hret, if_true]
        rw [ha]
        exact he
      · rw [← hp]
        show Pool.poolInitLoop (if (newConn pool m r now).1 = 0 then _ else _) (newConn pool m r now).2.heap now
          results = _
        rw [if_pos hret]
        rfl
      · rw [List.length_append, List.length_singleton] at hlen
        rw [List.length_cons]
        omega
    · obtain ⟨pool', m', us', he, hrep, hp, hc, hs, hlen⟩ := ih hr'
      refine ⟨pool', m', us', ?_, hrep, ?_, hc, hs, by rw [List.length_cons]; omega⟩
      · simp only [poolInitLoop, hret, if_false]
        exact he
      · rw [← hp]
        show Pool.poolInitLoop (if (newConn pool m r now).1 = 0 then _ else _) (newConn pool m r now).2.heap now
          results = _
        rw [if_neg hret]

theorem poolInit_listed (m : Mem κ) (host : CStr) (port t i x y idle : Int) (now : Timeval) (results : List Connect) :
    ∃ pool' m' us', poolInit m host port t i x y idle now results = some (pool', m') ∧ Rep pool' m' us' [] ∧
      Pool.poolInit m.heap host port t i x y idle now results = (pool'.listed us' [], m'.heap) ∧
      m'.closed = m.closed ∧ pool'.initConnNum = i ∧ us'.length ≤ results.length := by
  have hr : Rep ⟨none, none, false, snprintf hostNameLen host, port, t, i, x, y, idle⟩ m [] [] :=
    ⟨.nil, .nil, List.nodup_nil, fun _ hc => absurd hc List.not_mem_nil⟩
  obtain ⟨pool', m', us', he, hrep, hp, hc, hs, hlen⟩ := poolInitLoop_listed now results hr
  refine ⟨{ pool' with inited := true }, m', us', by rw [poolInit, he]; rfl, ⟨hrep.unused, hrep.used, hrep.nodup,
    hrep.below⟩, ?_, hc, congrArg (fun f => (f [] []).initConnNum) hs, by simpa using hlen⟩
  have hp' := hp
  simp only [LinkedPool.listed] at hp'
  rw [Pool.poolInit, hp']
  rfl

theorem poolRequireConnection_listed (hr : Rep pool m us ds) (r : Connect) (now : Timeval) :
    ∃ conn pool' m' us' ds', poolRequireConnection pool m r now = some (conn, pool', m') ∧ Rep pool' m' us' ds' ∧
      Pool.poolRequireConnection (pool.listed us ds) m.heap r now = (conn, pool'.listed us' ds', m'.heap) ∧
      m'.closed = m.closed ∧ pool'.listed = pool.listed ∧
      ((∃ c, conn = some c ∧ us = c :: us' ∧ ds' = ds ++ [c] ∧ m'.heap = m.heap) ∨
        (¬(ds.length : Int) < pool.maxConnNum ∧ conn = none ∧ us' = us ∧ ds' = ds ∧ m'.heap = m.heap) ∨
        us = [] ∧ us' = [] ∧ (ds.length : Int) < pool.maxConnNum ∧
          m'.heap = connectNew m.heap (pool.listed us ds) r now ∧
          (r = .accepted ∧ conn = some m.heap.nextConn ∧ ds' = ds ++ [m.heap.nextConn] ∨
            r ≠ .accepted ∧ conn = none ∧ ds' = ds)) := by
  cases us with
  | cons conn rest =>
    have hhead := hr.first.1
    obtain ⟨head, next, hd, hr'⟩ := hr.unusedDelete conn (List.cons_ne_nil _ _)
    rw [List.erase_cons_head] at hr'
    have hnot : conn ∉ rest ++ ds := (List.nodup_cons.mp hr.nodup).1
    obtain ⟨head', next', ha, hr''⟩ := hr'.usedAppend hnot (hr.below conn List.mem_cons_self)
    refine ⟨some conn, _, _, rest, ds ++ [conn], ?_, hr'', rfl, rfl, rfl, Or.inl ⟨conn, rfl, rfl, rfl, rfl⟩⟩
    simp [poolRequireConnection, hr.idle, hhead, hd, ha]
  | nil =>
    by_cases hfull : (ds.length : Int) < pool.maxConnNum
    · obtain ⟨hr', hnew, hnext⟩ := hr.newConn r now
      have hstep : poolRequireConnection pool m r now = if (newConn pool m r now).1 = 0 then
          (usedAppend pool (newConn pool m r now).2 m.heap.nextConn).bind fun p => some (some m.heap.nextConn, p.1, p.2)
          else some (none, pool, (newConn pool m r now).2) := by
        simp [poolRequireConnection, hr.idle, hr.inUse, hfull]
      have hlist : Pool.poolRequireConnection (pool.listed [] ds) m.heap r now = if (newConn pool m r now).1 = 0 then
          (some m.heap.nextConn, pool.listed [] (ds ++ [m.heap.nextConn]), (newConn pool m r now).2.heap)
          else (none, pool.listed [] ds, (newConn pool m r now).2.heap) := by
        exact if_pos hfull
      have hacc : (newConn pool m r now).1 = 0 ↔ r = .accepted := (connConnect_spec (allocConn m.heap _) _ r now).2.2
      by_cases hret : (newConn pool m r now).1 = 0
      · obtain ⟨head, next, ha, hr''⟩ := hr'.usedAppend hnew (by rw [hnext]; exact Nat.lt_succ_self _)
        refine ⟨some m.heap.nextConn, _, _, [], ds ++ [m.heap.nextConn], ?_, hr'', ?_, rfl, rfl,
          Or.inr (Or.inr ⟨rfl, rfl, hfull, rfl, Or.inl ⟨hacc.mp hret, rfl, rfl⟩⟩)⟩
        · rw [hstep, if_pos hret, ha]; rfl
        · rw [hlist, if_pos hret]; rfl
      · refine ⟨none, pool, _, [], ds, ?_, hr', ?_, rfl, rfl,
          Or.inr (Or.inr ⟨rfl, rfl, hfull, rfl, Or.inr ⟨fun e => hret (hacc.mpr e), rfl, rfl⟩⟩)⟩
        · rw [hstep, if_neg hret]
        · rw [hlist, if_neg hret]
    · refine ⟨none, pool, m, [], ds, ?_, hr, ?_, rfl, rfl, Or.inr (Or.inl ⟨hfull, rfl, rfl, rfl, rfl⟩)⟩
      · simp [poolRequireConnection, hr.idle, hr.inUse, hfull]
      · exact if_neg hfull

omit [Inhabited κ] in
theorem poolReleaseConnection_listed (hr : Rep pool m us ds) (hd : conn ∈ ds) (n : Bool) (now : Timeval) :
    ∃ pool' m', poolReleaseConnection pool m conn n now = some (pool', m') ∧
      Rep pool' m' (us ++ [conn]) (ds.erase conn) ∧
      Pool.poolReleaseConnection (pool.listed us ds) m.heap conn n now =
        (pool'.listed (us ++ [conn]) (ds.erase conn), m'.heap) ∧ m'.closed = m.closed ∧ pool'.listed = pool.listed := by
  obtain ⟨head, next, hdel, hr'⟩ := hr.usedDelete conn (List.ne_nil_of_mem hd)
  have hnd := List.nodup_append.mp hr.nodup
  have hnot : conn ∉ us ++ ds.erase conn := fun h => by
    cases List.mem_append.mp h with
    | inl h => exact hr.disjoint h hd
    | inr h => exact (hnd.2.1.not_mem_erase) h
  obtain ⟨head', next', ha, hr''⟩ := hr'.unusedAppend hnot (hr.below conn (List.mem_append_right us hd))
  refine ⟨_, { m with next := next', heap := (Pool.poolReleaseConnection (pool.listed us ds) m.heap conn n now).2 }, ?_,
    hr''.frame rfl (Nat.le_refl _), rfl, rfl, rfl⟩
  simp [poolReleaseConnection, hdel, ha, Pool.poolReleaseConnection]

omit [Inhabited κ] in
theorem foldl_connDisconnect_heap (us : List Nat) (m : Mem κ) :
    (us.foldl connDisconnect m).heap = us.foldl (fun h conn => (Pool.connDisconnect h conn).2) m.heap := by
  induction us generalizing m with
  | nil => rfl
  | cons conn us ih => exact ih (connDisconnect m conn)

omit [Inhabited κ] in
/-- The walk deletes the first idle connection each time, so what it read before is
    the head after. -/
theorem poolDestroyLoop_listed {fuel : Nat} (hr : Rep pool m us ds) (hf : us.length ≤ fuel) :
    ∃ pool', poolDestroyLoop pool m fuel pool.unusedConnList = some (pool', us.foldl connDisconnect m) ∧
      Rep pool' (us.foldl connDisconnect m) [] ds ∧ pool'.listed = pool.listed := by
  induction us generalizing pool m fuel with
  | nil => exact ⟨pool, by rw [hr.noneIdle]; cases fuel <;> rfl, hr, rfl⟩
  | cons conn rest ih =>
    cases fuel with
    | zero => simp at hf
    | succ fuel =>
      obtain ⟨hhead, hrest⟩ := hr.first
      have hdel : unusedDelete pool m conn = some ({ pool with unusedConnList := m.next conn }, m) := by
        rw [unusedDelete, hhead, LinkedList.delete, if_pos rfl]
        rfl
      have hr' : Rep { pool with unusedConnList := m.next conn } m rest ds :=
        ⟨hrest, hr.used, (List.nodup_cons.mp hr.nodup).2, fun c hc => hr.below c (List.mem_cons_of_mem conn hc)⟩
      have hr'' : Rep { pool with unusedConnList := m.next conn } (connDisconnect m conn) rest ds :=
        hr'.frame rfl (Nat.le_of_eq (connDisconnect_frame m.heap conn).1.symm)
      obtain ⟨pool', he, hrep, hl⟩ := ih hr'' (Nat.le_of_succ_le_succ hf)
      refine ⟨pool', ?_, hrep, hl⟩
      rw [hhead]
      simp only [poolDestroyLoop]
      rw [hdel]
      exact he

omit [Inhabited κ] in
theorem poolDestroy_listed (hr : Rep pool m us ds) :
    ∃ ret pool' m' us', poolDestroy pool m = some (ret, pool', m') ∧ Rep pool' m' us' ds ∧
      Pool.poolDestroy (pool.listed us ds) m.heap = (ret, pool'.listed us' ds, m'.heap) ∧ pool'.listed = pool.listed ∧
      (ds ≠ [] ∧ ret = -1 ∧ us' = us ∧ m' = m ∨ ds = [] ∧ ret = 0 ∧ us' = [] ∧ m' = us.foldl connDisconnect m) := by
  by_cases hd : ds = []
  · subst hd
    have hf : us.length ≤ m.steps := Nat.le_trans (Nat.le_add_right ..) hr.steps
    obtain ⟨pool', he, hrep, hl⟩ := poolDestroyLoop_listed hr hf
    refine ⟨0, pool', _, [], ?_, hrep, ?_, hl, Or.inr ⟨rfl, rfl, rfl, rfl⟩⟩
    · simp [poolDestroy, hr.inUse, he]
    · rw [hl, foldl_connDisconnect_heap]; rfl
  · have hpos : ds.length > 0 := List.length_pos_iff.mpr hd
    refine ⟨-1, pool, m, us, ?_, hr, ?_, rfl, Or.inl ⟨hd, rfl, rfl, rfl⟩⟩
    · simp [poolDestroy, hr.inUse, hd]
    · exact if_pos hpos

omit [Inhabited κ] in
/-- The walk of a check stops at the first connection that has been idle too long. -/
theorem poolCheckLoop_listed {fuel : Nat} {head : Option Nat} {l : List Nat} (now : Nat → Timeval)
    (hr : Rep pool m us ds) (hne : us ≠ []) (hc : Chain m.next head l) (hf : l.length ≤ fuel) :
    match l.find? fun c => connIsIdleTimeout (m.heap.conns c) (pool.maxIdleSecs * 2) (now c) with
    | some c => ∃ pool' m', poolCheckLoop pool m now fuel head = some (pool', m') ∧ Rep pool' m' (us.erase c) ds ∧
        pool'.listed = pool.listed ∧ m'.heap = (connDisconnect m c).heap ∧
        m'.closed = (connDisconnect m c).closed
    | none => poolCheckLoop pool m now fuel head = some (pool, m) := by
  induction l generalizing head fuel with
  | nil => cases hc; cases fuel <;> rfl
  | cons c l ih =>
    cases fuel with
    | zero => simp at hf
    | succ fuel =>
      cases hc with
      | cons hc =>
        by_cases ht : connIsIdleTimeout (m.heap.conns c) (pool.maxIdleSecs * 2) (now c) = true
        · rw [List.find?_cons_of_pos (by exact ht)]
          obtain ⟨head, next, hd, hr'⟩ := hr.unusedDelete c hne
          refine ⟨{ pool with unusedConnList := head }, connDisconnect { m with next := next } c, ?_,
            hr'.frame rfl (Nat.le_of_eq (connDisconnect_frame m.heap c).1.symm), rfl, rfl, rfl⟩
          rw [poolCheckLoop, if_pos ht, hd]
          rfl
        · rw [List.find?_cons_of_neg (by exact ht), poolCheckLoop, if_neg ht]
          exact ih hc (Nat.le_of_succ_le_succ hf)

omit [Inhabited κ] in
theorem poolCheck_listed (hr : Rep pool m us ds) (now : Nat → Timeval) :
    ∃ pool' m' us', poolCheck pool m now = some (pool', m') ∧ Rep pool' m' us' ds ∧
      Pool.poolCheck (pool.listed us ds) m.heap now = (pool'.listed us' ds, m'.heap) ∧ pool'.listed = pool.listed ∧
      (us' = us ∧ m' = m ∨ ∃ c ∈ us, ds = [] ∧ pool.minConnNum < us.length ∧ us' = us.erase c ∧
        m'.heap = (connDisconnect m c).heap ∧ m'.closed = (connDisconnect m c).closed) := by
  by_cases hcan : ds.length = 0 ∧ (us.length : Int) - pool.minConnNum > 0
  · have hlist : Pool.poolCheck (pool.listed us ds) m.heap now =
        match us.find? fun c => connIsIdleTimeout (m.heap.conns c) (pool.maxIdleSecs * 2) (now c) with
        | some c => (pool.listed (us.erase c) ds, (connDisconnect m c).heap)
        | none => (pool.listed us ds, m.heap) := if_pos hcan
    have hstep : poolCheck pool m now = poolCheckLoop pool m now m.steps pool.unusedConnList := by
      simp only [poolCheck, hr.inUse, hr.idle, bind, Option.bind_some, if_pos hcan.1, if_pos hcan.2]
    by_cases hus : us = []
    · subst hus
      refine ⟨pool, m, [], ?_, hr, hlist, rfl, Or.inl ⟨rfl, rfl⟩⟩
      rw [hstep, hr.noneIdle]
      cases m.steps <;> rfl
    · have hf : us.length ≤ m.steps := Nat.le_trans (Nat.le_add_right ..) hr.steps
      have hloop := poolCheckLoop_listed now hr hus hr.unused hf
      rw [← hstep] at hloop
      cases hfind : us.find? fun c => connIsIdleTimeout (m.heap.conns c) (pool.maxIdleSecs * 2) (now c) with
      | none =>
        rw [hfind] at hloop hlist
        exact ⟨pool, m, us, hloop, hr, hlist, rfl, Or.inl ⟨rfl, rfl⟩⟩
      | some c =>
        rw [hfind] at hloop hlist
        obtain ⟨pool', m', he, hrep, hl, hh, hcl⟩ := hloop
        refine ⟨pool', m', us.erase c, he, hrep, ?_, hl, Or.inr ⟨c, List.mem_of_find?_eq_some hfind,
          List.eq_nil_of_length_eq_zero hcan.1, by omega, rfl, hh, hcl⟩⟩
        rw [hlist, hl, hh]
  · refine ⟨pool, m, us, ?_, hr, if_neg hcan, rfl, Or.inl ⟨rfl, rfl⟩⟩
    by_cases hd : ds.length = 0
    · have hi : ¬(us.length : Int) - pool.minConnNum > 0 := fun h => hcan ⟨hd, h⟩
      simp only [poolCheck, hr.inUse, hr.idle, bind, Option.bind_some, if_pos hd, if_neg hi]
      rfl
    · simp only [poolCheck, hr.inUse, bind, Option.bind_some, if_neg hd]
      rfl

end Ddm.Pool.Linked
