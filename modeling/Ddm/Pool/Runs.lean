/-
  Ddm.Pool.Runs — one pool over whole runs: callers take connections, reconnect and give
  back those they hold, the check closes idle ones, the pool is destroyed and set up
  again, in any order and with any outcome of each connect.

  A step is one call, each of which holds the pool's lock throughout (`conn_reconnect`
  does not, and touches nothing of the lists). A caller gives back what it holds, once.

  Proved (`pool_sound`): the two lists never share or repeat a connection, those in use
  are those held, each by one caller, the total stays below the larger of the initial
  and the maximal number, a failed request changes no list, and a check removes at most
  one idle connection and never one the pool has to keep.
-/

import Ddm.Lib.Machine
import Ddm.Pool.Linked

namespace Ddm.Pool.Linked

open Ddm.Lib
open LinkedList (Chain)
open Machine (Reach exec)

variable {κ : Type} [Inhabited κ]

structure St (κ : Type) where
  pool : LinkedPool
  mem : Mem κ
  /-- Set up and not destroyed. -/
  alive : Bool
  /-- Who holds what. -/
  holders : List (Nat × Nat)

inductive Label where
  | init (host : CStr) (port timeoutsecs initConnNum minConnNum maxConnNum maxIdleSecs : Int) (now : Timeval)
      (results : List Connect)
  | require (w : Nat) (r : Connect) (now : Timeval)
  | reconnect (w conn : Nat) (r : Connect) (now : Timeval)
  | release (w conn : Nat) (releaseAsNormal : Bool) (now : Timeval)
  | check (now : Nat → Timeval)
  | destroy

def step (s : St κ) : Label → Option (St κ)
  | .init host port t i x y idle now results =>
    if s.alive = false ∧ results.length = i.toNat then
      (poolInit s.mem host port t i x y idle now results).map fun (pool, mem) => ⟨pool, mem, true, []⟩
    else none
  | .require w r now =>
    if s.alive then (poolRequireConnection s.pool s.mem r now).map fun (conn, pool, mem) =>
      ⟨pool, mem, true, (conn.map fun c => (w, c)).toList ++ s.holders⟩
    else none
  | .reconnect w conn r now =>
    if s.alive ∧ (w, conn) ∈ s.holders then some { s with mem := connReconnect s.mem conn r now } else none
  | .release w conn n now =>
    if s.alive ∧ (w, conn) ∈ s.holders then (poolReleaseConnection s.pool s.mem conn n now).map fun (pool, mem) =>
      ⟨pool, mem, true, s.holders.erase (w, conn)⟩
    else none
  | .check now =>
    if s.alive then (poolCheck s.pool s.mem now).map fun (pool, mem) => { s with pool := pool, mem := mem } else none
  | .destroy =>
    if s.alive then (poolDestroy s.pool s.mem).map fun (ret, pool, mem) => ⟨pool, mem, ret != 0, s.holders⟩ else none

/-- A process that has allocated and opened nothing yet. -/
def freshHeap : Heap κ :=
  let c := connInit (CStr.lit "") 0 0
  ⟨fun _ => c, 0, fun _ => ⟨false, false, c.address, default⟩, 0⟩

/-- Before the first `pool_init`. -/
def boot (h : Heap κ) : St κ :=
  ⟨⟨none, none, false, snprintf hostNameLen (CStr.lit ""), 0, 0, 0, 0, 0, 0⟩, ⟨h, fun _ => none, []⟩, false, []⟩

/-! ## The invariant -/

structure Sound (s : St κ) (us ds : List Nat) : Prop where
  rep : Rep s.pool s.mem us ds
  held : ds.Perm (s.holders.map Prod.snd)
  total : s.alive = true → 0 ≤ s.pool.initConnNum →
    ((us.length + ds.length : Nat) : Int) ≤ max s.pool.initConnNum s.pool.maxConnNum
  dead : s.alive = false → us = [] ∧ ds = []

variable {s t : St κ} {us ds : List Nat} {a : Label}

omit [Inhabited κ] in
/-- The settings of a pool do not change. -/
theorem bound_congr {pool pool' : LinkedPool} (h : pool'.listed = pool.listed) :
    max pool'.initConnNum pool'.maxConnNum = max pool.initConnNum pool.maxConnNum :=
  congrArg (fun f => max (f [] []).initConnNum (f [] []).maxConnNum) h

omit [Inhabited κ] in
theorem init_congr {pool pool' : LinkedPool} (h : pool'.listed = pool.listed) : pool'.initConnNum = pool.initConnNum :=
  congrArg (fun f => (f [] []).initConnNum) h

omit [Inhabited κ] in
theorem Sound.reconnect (hs : Sound s us ds) (conn : Nat) (r : Connect) (now : Timeval) [Inhabited κ] :
    Sound { s with mem := connReconnect s.mem conn r now } us ds := by
  have hnext : (connReconnect s.mem conn r now).heap.nextConn = s.mem.heap.nextConn :=
    (connReconnect_spec s.mem.heap conn r now).1.nextConn
  exact ⟨hs.rep.frame rfl (Nat.le_of_eq hnext.symm), hs.held, hs.total, hs.dead⟩

theorem Sound.step (hs : Sound s us ds) (h : step s a = some t) :
    ∃ us' ds', Sound t us' ds' := by
  cases a with
  | init host port timeout i x y idle now results =>
    simp only [Linked.step] at h
    split at h
    · rename_i hg
      obtain ⟨pool', m', us', he, hrep, -, -, hi, hlen⟩ :=
        poolInit_listed s.mem host port timeout i x y idle now results
      rw [he] at h
      cases h
      refine ⟨us', [], hrep, List.Perm.refl _, fun _ hn => ?_, fun h => absurd h (by simp)⟩
      have := Int.le_max_left pool'.initConnNum pool'.maxConnNum
      rw [hi] at hn this ⊢
      rw [List.length_nil, Nat.add_zero]
      omega
    · cases h
  | require w r now =>
    simp only [Linked.step] at h
    split at h
    · rename_i ha
      obtain ⟨conn, pool', m', us', ds', he, hrep, -, -, hset, hcase⟩ := poolRequireConnection_listed hs.rep r now
      rw [he] at h
      cases h
      refine ⟨us', ds', hrep, ?_, fun _ hn => ?_, fun h => absurd h (by simp)⟩
      · rcases hcase with ⟨c, rfl, -, rfl, -⟩ | ⟨-, rfl, -, rfl, -⟩ | ⟨-, -, -, -, ⟨-, rfl, rfl⟩ | ⟨-, rfl, rfl⟩⟩
        · exact (List.perm_append_singleton c ds).trans (hs.held.cons c)
        · exact hs.held
        · exact (List.perm_append_singleton _ ds).trans (hs.held.cons _)
        · exact hs.held
      · show _ ≤ max pool'.initConnNum pool'.maxConnNum
        have hold := hs.total ha ((init_congr hset).symm ▸ hn)
        rw [bound_congr hset]
        rcases hcase with ⟨c, -, rfl, rfl, -⟩ | ⟨-, -, rfl, rfl, -⟩ | ⟨rfl, rfl, hlt, -, ⟨-, -, rfl⟩ | ⟨-, -, rfl⟩⟩
        · rw [List.length_append, List.length_singleton]
          rw [List.length_cons] at hold
          omega
        · exact hold
        · have := Int.le_max_right s.pool.initConnNum s.pool.maxConnNum
          rw [List.length_append, List.length_singleton, List.length_nil]
          omega
        · exact hold
    · cases h
  | reconnect w conn r now =>
    simp only [Linked.step] at h
    split at h
    · cases h
      exact ⟨us, ds, hs.reconnect conn r now⟩
    · cases h
  | release w conn n now =>
    simp only [Linked.step] at h
    split at h
    · rename_i hg
      have hd : conn ∈ ds := hs.held.mem_iff.mpr (List.mem_map_of_mem hg.2)
      obtain ⟨pool', m', he, hrep, -, -, hset⟩ := poolReleaseConnection_listed hs.rep hd n now
      rw [he] at h
      cases h
      refine ⟨us ++ [conn], ds.erase conn, hrep, ?_, fun _ hn => ?_, fun h => absurd h (by simp)⟩
      · have hp : (s.holders.map Prod.snd).Perm (conn :: (s.holders.erase (w, conn)).map Prod.snd) :=
          (List.perm_cons_erase hg.2).map Prod.snd
        exact (List.perm_cons_erase hd).symm.trans (hs.held.trans hp) |>.cons_inv
      · show _ ≤ max pool'.initConnNum pool'.maxConnNum
        have hold := hs.total hg.1 ((init_congr hset).symm ▸ hn)
        have := List.length_erase_of_mem hd
        have := List.length_pos_of_mem hd
        rw [bound_congr hset, List.length_append, List.length_singleton]
        omega
    · cases h
  | check now =>
    simp only [Linked.step] at h
    split at h
    · rename_i ha
      obtain ⟨pool', m', us', he, hrep, -, hset, hcase⟩ := poolCheck_listed hs.rep now
      rw [he] at h
      cases h
      refine ⟨us', ds, hrep, hs.held, fun _ hn => ?_, fun h => absurd ha (ne_true_of_eq_false h)⟩
      show _ ≤ max pool'.initConnNum pool'.maxConnNum
      have hold := hs.total ha ((init_congr hset).symm ▸ hn)
      rw [bound_congr hset]
      rcases hcase with ⟨rfl, -⟩ | ⟨c, hc, -, -, rfl, -⟩
      · exact hold
      · have := List.length_erase_of_mem hc
        omega
    · cases h
  | destroy =>
    simp only [Linked.step] at h
    split at h
    · rename_i ha
      obtain ⟨ret, pool', m', us', he, hrep, -, hset, hcase⟩ := poolDestroy_listed hs.rep
      rw [he] at h
      cases h
      refine ⟨us', ds, hrep, hs.held, fun hal hn => ?_, fun hal => ?_⟩
      · show _ ≤ max pool'.initConnNum pool'.maxConnNum
        rw [bound_congr hset]
        rcases hcase with ⟨-, -, rfl, -⟩ | ⟨-, rfl, -, -⟩
        · exact hs.total ha ((init_congr hset).symm ▸ hn)
        · simp at hal
      · rcases hcase with ⟨-, rfl, -, -⟩ | ⟨rfl, -, rfl, -⟩
        · simp at hal
        · exact ⟨rfl, rfl⟩
    · cases h

theorem sound_of_reach {ok : St κ → Label → Prop} {h₀ : Heap κ} (h : Reach step ok (boot h₀) s) :
    ∃ us ds, Sound s us ds := by
  refine h.inv (I := fun s => ∃ us ds, Sound s us ds)
    ⟨[], [], ⟨.nil, .nil, List.nodup_nil, fun _ hc => absurd hc List.not_mem_nil⟩, List.Perm.refl _,
    fun h => absurd h (by simp [boot]), fun _ => ⟨rfl, rfl⟩⟩ fun s a t hs _ hst => ?_
  obtain ⟨us, ds, hs⟩ := hs
  exact hs.step hst

/-! ## The pool over a run -/

theorem pool_sound {h₀ : Heap κ} (h : Reach step (fun _ _ => True) (boot h₀) s) (ha : s.alive = true)
    (h0 : 0 ≤ s.pool.initConnNum) :
    ∃ us ds, Chain s.mem.next s.pool.unusedConnList us ∧ Chain s.mem.next s.pool.usedConnList ds ∧
      us.Nodup ∧ ds.Nodup ∧ us.Disjoint ds ∧
      (∀ c, c ∈ ds ↔ ∃ w, (w, c) ∈ s.holders) ∧ (s.holders.map Prod.snd).Nodup ∧
      ((us.length + ds.length : Nat) : Int) ≤ max s.pool.initConnNum s.pool.maxConnNum ∧
      (∀ r now, ∃ conn pool m, poolRequireConnection s.pool s.mem r now = some (conn, pool, m) ∧
        (conn = none → Chain m.next pool.unusedConnList us ∧ Chain m.next pool.usedConnList ds)) ∧
      (∀ c ∈ ds, ∀ normal now, ∃ pool m, poolReleaseConnection s.pool s.mem c normal now = some (pool, m) ∧
        Chain m.next pool.unusedConnList (us ++ [c]) ∧ Chain m.next pool.usedConnList (ds.erase c)) ∧
      ∀ now, ∃ pool m us', poolCheck s.pool s.mem now = some (pool, m) ∧ Chain m.next pool.unusedConnList us' ∧
        Chain m.next pool.usedConnList ds ∧
        (us' = us ∨ ∃ c ∈ us, c ∉ ds ∧ us' = us.erase c ∧
          s.pool.minConnNum ≤ ((us'.length + ds.length : Nat) : Int)) := by
  obtain ⟨us, ds, hs⟩ := sound_of_reach h
  have hnd := List.nodup_append.mp hs.rep.nodup
  refine ⟨us, ds, hs.rep.unused, hs.rep.used, hnd.1, hnd.2.1, fun c hu hd => hs.rep.disjoint hu hd, fun c => ?_,
    hs.held.nodup_iff.mp hnd.2.1, hs.total ha h0, fun r now => ?_, fun c hc normal now => ?_, fun now => ?_⟩
  · rw [hs.held.mem_iff, List.mem_map]
    exact ⟨fun ⟨p, hp, he⟩ => ⟨p.1, he ▸ hp⟩, fun ⟨w, hw⟩ => ⟨(w, c), hw, rfl⟩⟩
  · obtain ⟨conn, pool', m', us', ds', he, hrep, -, -, -, hcase⟩ := poolRequireConnection_listed hs.rep r now
    refine ⟨conn, pool', m', he, fun hnone => ?_⟩
    rcases hcase with ⟨c, rfl, -⟩ | ⟨-, -, rfl, rfl, -⟩ | ⟨rfl, rfl, -, -, ⟨-, rfl, -⟩ | ⟨-, -, rfl⟩⟩
    · cases hnone
    · exact ⟨hrep.unused, hrep.used⟩
    · cases hnone
    · exact ⟨hrep.unused, hrep.used⟩
  · obtain ⟨pool', m', he, hrep, -⟩ := poolReleaseConnection_listed hs.rep hc normal now
    exact ⟨pool', m', he, hrep.unused, hrep.used⟩
  · obtain ⟨pool', m', us', he, hrep, -, -, hcase⟩ := poolCheck_listed hs.rep now
    refine ⟨pool', m', us', he, hrep.unused, hrep.used, ?_⟩
    rcases hcase with ⟨rfl, -⟩ | ⟨c, hc, rfl, hmin, rfl, -⟩
    · exact Or.inl rfl
    · have := List.length_erase_of_mem hc
      have := List.length_pos_of_mem hc
      refine Or.inr ⟨c, hc, List.not_mem_nil, rfl, ?_⟩
      rw [List.length_nil]
      omega

/-- Two connects at the start, one of them refused; a connection taken, one refused, one
    taken, a third over the limit; one given back, and the other reconnected in vain. -/
def sampleRun : List Label :=
  let now : Timeval := ⟨1, 0⟩
  [.init (CStr.lit "127.0.0.1") 1234 3 2 1 2 60 now [.accepted, .refused], .require 1 .accepted now,
    .require 2 .refused now, .require 2 .accepted now, .require 3 .accepted now, .release 2 3 true now,
    .reconnect 1 0 .noSocket now]

theorem pool_sound_sample : ∃ s : St Unit, s.holders = [(1, 0)] ∧
    ∃ us ds, Chain s.mem.next s.pool.unusedConnList us ∧ Chain s.mem.next s.pool.usedConnList ds ∧ us.Disjoint ds ∧
      0 ∈ ds := by
  have hrun : (exec step (fun _ _ => True) (boot freshHeap) sampleRun).any
      (fun s : St Unit => decide (s.alive = true ∧ 0 ≤ s.pool.initConnNum ∧ s.holders = [(1, 0)])) = true := by
    decide +kernel
  obtain ⟨s, hreach, hs⟩ := Machine.reach_of_exec_any hrun
  obtain ⟨ha, h0, hw⟩ := of_decide_eq_true hs
  obtain ⟨us, ds, hu, hd, -, -, hdis, hheld, -⟩ := pool_sound hreach ha h0
  exact ⟨s, hw, us, ds, hu, hd, hdis, (hheld 0).mpr ⟨1, by rw [hw]; exact List.mem_singleton_self _⟩⟩

end Ddm.Pool.Linked
