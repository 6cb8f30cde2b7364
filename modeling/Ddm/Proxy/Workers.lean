/-
  Ddm.Proxy.Workers — which worker thread of the proxy's server gets an accepted
  connection.

  `do_accept` runs in the main thread, once for each connection; `accept`'s result is the
  event. The workers take turns by a counter that goes back to 0 behind 0xFFFF. How often
  it did is counted beside it. The other ways in which the startup can fail end the
  process.

  Proved: every connection gets a worker there is, and any two workers get equally many, up
  to one and one more for each reset, if and only if there are workers
  (`workers_balanced_iff`). The startup turns away a negative number of threads only: with
  0 the first connection divides by it (`no_worker_divides_by_zero`).
-/

import Ddm.Lib.RoundRobin

namespace Ddm.Proxy.Workers

open Ddm.Lib

abbrev fdSetSize : Int := 1024

structure Server where
  globalWorkerNum : Int
  globalCycleCounter : Int
  /-- The workers of the connections so far, in order. -/
  given : List Int
  /-- Descriptors closed at once. -/
  closed : List Int
  /-- How often the counter was set back to 0. -/
  resets : Nat
  deriving DecidableEq

/-- `tcp_server_startup_with_multibase` -/
def startup (threadNum : Int) : Option Server := if threadNum < 0 then none else some ⟨threadNum, 0, [], [], 0⟩

/-- The index and the server after the call; a division by zero has no result. -/
def getNextWorkerIndex (s : Server) (threadNum : Int) : Option (Int × Server) :=
  if threadNum = 0 then none
  else
    let index := s.globalCycleCounter.tmod threadNum
    let counter := s.globalCycleCounter + 1
    if counter > 0xFFFF then some (index, { s with globalCycleCounter := 0, resets := s.resets + 1 })
    else some (index, { s with globalCycleCounter := counter })

def doAccept (s : Server) (fd : Int) : Option Server :=
  if fd < 0 then some s
  else if fd > fdSetSize then some { s with closed := s.closed ++ [fd] }
  else (getNextWorkerIndex s s.globalWorkerNum).map fun (workerIndex, s) => { s with given := s.given ++ [workerIndex] }

/-- The descriptors given to a worker. -/
def Accepted (fd : Int) : Prop := 0 ≤ fd ∧ fd ≤ fdSetSize

instance (fd : Int) : Decidable (Accepted fd) := inferInstanceAs (Decidable (_ ∧ _))

/-! ## A run -/

/-- The server with `n` workers after `k` connections. -/
structure Ran (n : Nat) (s : Server) (k : Nat) : Prop where
  workers : s.globalWorkerNum = n
  counter : s.globalCycleCounter = (k % 0x10000 : Nat)
  resets : s.resets = RoundRobin.wraps 0x10000 0 k
  length : s.given.length = k
  inside : ∀ i ∈ s.given, 0 ≤ i ∧ i < n
  hits : ∀ i : Nat, s.given.count (i : Int) = RoundRobin.hits 0x10000 n 0 k i

variable {n k : Nat} {s : Server}

theorem ran_startup {threadNum : Int} (h : startup threadNum = some s) : Ran threadNum.toNat s 0 := by
  unfold startup at h
  split at h
  · cases h
  · rw [← Option.some.inj h]
    refine ⟨?_, rfl, rfl, rfl, fun i hi => absurd hi List.not_mem_nil, fun i => rfl⟩
    show threadNum = _
    omega

/-- One call: the index by the counter, and the counter one further. -/
theorem getNextWorkerIndex_spec (hr : Ran n s k) (hn : 0 < n) : ∃ s',
    getNextWorkerIndex s n = some (((k % 0x10000 % n : Nat) : Int), s') ∧ s'.globalWorkerNum = n ∧ s'.given = s.given ∧
      s'.globalCycleCounter = ((k + 1) % 0x10000 : Nat) ∧ s'.resets = RoundRobin.wraps 0x10000 0 (k + 1) := by
  have hindex : s.globalCycleCounter.tmod n = ((k % 0x10000 % n : Nat) : Int) := by
    rw [hr.counter]
    rfl
  have hwraps : RoundRobin.wraps 0x10000 0 (k + 1) =
      RoundRobin.wraps 0x10000 0 k + if (0 + k) % 0x10000 = 0x10000 - 1 then 1 else 0 := Nat.count_succ ..
  have hcounter := hr.counter
  rw [getNextWorkerIndex, if_neg (by omega)]
  simp only
  rw [hindex, hwraps]
  split
  · refine ⟨_, rfl, hr.workers, rfl, ?_, ?_⟩
    · show (0 : Int) = _
      omega
    · show s.resets + 1 = _
      rw [hr.resets, if_pos (by omega)]
  · refine ⟨_, rfl, hr.workers, rfl, ?_, ?_⟩
    · show s.globalCycleCounter + 1 = _
      omega
    · show s.resets = _
      rw [hr.resets, if_neg (by omega), Nat.add_zero]

theorem doAccept_accepted (hr : Ran n s k) (hn : 0 < n) {fd : Int} (hfd : Accepted fd) :
    ∃ s', doAccept s fd = some s' ∧ Ran n s' (k + 1) := by
  obtain ⟨s', hcall, hw, hg, hc, hresets⟩ := getNextWorkerIndex_spec hr hn
  refine ⟨{ s' with given := s'.given ++ [((k % 0x10000 % n : Nat) : Int)] }, ?_, hw, hc, hresets, ?_, ?_, ?_⟩
  · rw [doAccept, if_neg (Int.not_lt.mpr hfd.1), if_neg (Int.not_lt.mpr hfd.2), hr.workers, hcall]
    rfl
  · rw [List.length_append, hg, hr.length, List.length_singleton]
  · intro i hi
    rcases List.mem_append.mp hi with hi | hi
    · exact hr.inside i (hg ▸ hi)
    · rw [List.mem_singleton.mp hi]
      have := Nat.mod_lt (k % 0x10000) hn
      omega
  · intro i
    have hhits : RoundRobin.hits 0x10000 n 0 (k + 1) i =
        RoundRobin.hits 0x10000 n 0 k i + if (0 + k) % 0x10000 % n = i then 1 else 0 := Nat.count_succ ..
    rw [List.count_append, hg, hr.hits, hhits, List.count_singleton, Nat.zero_add]
    simp only [beq_iff_eq, Int.natCast_inj]

theorem doAccept_other (hr : Ran n s k) {fd : Int} (hfd : ¬Accepted fd) :
    ∃ s', doAccept s fd = some s' ∧ Ran n s' k := by
  unfold doAccept
  split
  · exact ⟨s, rfl, hr⟩
  · split
    · exact ⟨_, rfl, hr.workers, hr.counter, hr.resets, hr.length, hr.inside, hr.hits⟩
    · exact absurd ⟨by omega, by omega⟩ hfd

theorem ran_run (events : List Int) : ∀ {s : Server} {k : Nat}, Ran n s k →
    (0 < n ∨ ∀ fd ∈ events, ¬Accepted fd) →
    ∃ s', events.foldlM doAccept s = some s' ∧ Ran n s' (k + events.countP (Accepted ·)) := by
  induction events with
  | nil => intro s k hr _; exact ⟨s, rfl, hr⟩
  | cons fd events ih =>
    intro s k hr hn
    have hrest : 0 < n ∨ ∀ fd ∈ events, ¬Accepted fd := hn.imp_right fun h fd hfd => h fd (List.mem_cons_of_mem _ hfd)
    rw [List.foldlM_cons, List.countP_cons]
    by_cases hfd : Accepted fd
    · have hpos : 0 < n := hn.elim id fun h => absurd hfd (h fd List.mem_cons_self)
      obtain ⟨t, hstep, ht⟩ := doAccept_accepted hr hpos hfd
      obtain ⟨s', hrun, hr'⟩ := ih ht hrest
      refine ⟨s', by rw [hstep]; exact hrun, ?_⟩
      rw [if_pos (decide_eq_true hfd), ← Nat.add_assoc, Nat.add_right_comm]
      exact hr'
    · obtain ⟨t, hstep, ht⟩ := doAccept_other hr hfd
      obtain ⟨s', hrun, hr'⟩ := ih ht hrest
      refine ⟨s', by rw [hstep]; exact hrun, ?_⟩
      rw [if_neg (by simpa using hfd)]
      exact hr'

/-- Without workers the first connection is divided by 0. -/
theorem no_worker (events : List Int) : ∀ {s : Server}, s.globalWorkerNum = 0 → (∃ fd ∈ events, Accepted fd) →
    events.foldlM doAccept s = none := by
  induction events with
  | nil => intro s _ ⟨fd, hfd, _⟩; cases hfd
  | cons fd events ih =>
    intro s hs ⟨fd', hmem, hfd'⟩
    rw [List.foldlM_cons]
    by_cases hfd : Accepted fd
    · have hnone : doAccept s fd = none := by
        rw [doAccept, if_neg (Int.not_lt.mpr hfd.1), if_neg (Int.not_lt.mpr hfd.2), hs]
        rfl
      rw [hnone]
      rfl
    · have hrest : ∃ fd ∈ events, Accepted fd := by
        rcases List.mem_cons.mp hmem with rfl | hmem
        · exact absurd hfd' hfd
        · exact ⟨fd', hmem, hfd'⟩
      unfold doAccept
      split
      · exact ih hs hrest
      · split
        · exact ih hs hrest
        · exact absurd ⟨by omega, by omega⟩ hfd

/-- Each accepted connection has a worker there is, and no worker is far ahead. -/
structure Balanced (threadNum : Int) (events : List Int) (s : Server) : Prop where
  length : s.given.length = events.countP (Accepted ·)
  inside : ∀ i ∈ s.given, 0 ≤ i ∧ i < threadNum
  fair : ∀ i i' : Int, 0 ≤ i → i < threadNum → 0 ≤ i' → i' < threadNum →
    s.given.count i ≤ s.given.count i' + (1 + s.resets)

theorem balanced_of_ran {threadNum : Int} (h0 : 0 ≤ threadNum) {events : List Int}
    (hr : Ran threadNum.toNat s (events.countP (Accepted ·))) : Balanced threadNum events s := by
  have hn : (threadNum.toNat : Int) = threadNum := Int.toNat_of_nonneg h0
  refine ⟨hr.length, fun i hi => hn ▸ hr.inside i hi, fun i i' hi hlt hi' hlt' => ?_⟩
  obtain ⟨i, rfl⟩ := Int.eq_ofNat_of_zero_le hi
  obtain ⟨i', rfl⟩ := Int.eq_ofNat_of_zero_le hi'
  rw [hr.hits, hr.hits, hr.resets]
  exact RoundRobin.hits_le (by decide) (by omega) (by omega) 0 _

theorem workers_balanced_iff {threadNum : Int} {s₀ : Server} (h : startup threadNum = some s₀) (events : List Int) :
    (∃ s, events.foldlM doAccept s₀ = some s ∧ Balanced threadNum events s) ↔
      0 < threadNum ∨ ∀ fd ∈ events, ¬Accepted fd := by
  have h0 : 0 ≤ threadNum := by
    unfold startup at h
    split at h
    · cases h
    · omega
  have hr := ran_startup h
  constructor
  · intro ⟨s, hrun, _⟩
    by_contra hnot
    push Not at hnot
    obtain ⟨hle, fd, hfd, hacc⟩ := hnot
    have hnum : s₀.globalWorkerNum = 0 := by
      rw [hr.workers]
      omega
    rw [no_worker events hnum ⟨fd, hfd, hacc⟩] at hrun
    cases hrun
  · intro hcond
    obtain ⟨s, hrun, hs⟩ := ran_run events hr (hcond.imp_left fun hpos => by omega)
    rw [Nat.zero_add] at hs
    exact ⟨s, hrun, balanced_of_ran h0 hs⟩

/-- Three workers; one call of `accept` fails and one descriptor is too high. -/
theorem workers_balanced_iff_sample :
    ∃ s, [5, -1, 6, 2000, 7, 8].foldlM doAccept ⟨3, 0, [], [], 0⟩ = some s ∧ Balanced 3 [5, -1, 6, 2000, 7, 8] s :=
  (@workers_balanced_iff 3 _ rfl _).mpr (Or.inl (by decide))

/-- No worker thread is a setting the startup takes. -/
theorem no_worker_divides_by_zero : ∃ s₀, startup 0 = some s₀ ∧ [5].foldlM doAccept s₀ = none :=
  ⟨⟨0, 0, [], [], 0⟩, rfl, no_worker [5] rfl ⟨5, by decide⟩⟩

end Ddm.Proxy.Workers
