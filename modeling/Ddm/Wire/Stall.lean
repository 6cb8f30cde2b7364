/-
  Ddm.Wire.Stall — `socket_receive` on endless scripts: every answer `select` and `recv`
  will ever give.

  A call returns when a finite part of the script is enough for it. `select` guards the
  first byte alone; after that a `recv` that says EINTR or EAGAIN is repeated, and the
  latter is also what it says each time the socket's receive timeout runs out.

  Proved: a call returns if and only if `select` is not interrupted forever and, once the
  socket is readable, a shutdown, an error or the bytes asked for come (`returns_iff`);
  so nothing but endless retries holds it (`comes_of_progress`).
-/

import Ddm.Wire.Socket

namespace Ddm.Wire

open Ddm.Lib

/-- The first answers of an endless script. -/
def firstAnswers {α : Type} (script : Nat → α) (n : Nat) : List α := (List.range n).map script

/-- Some finite number of answers brings the call to its end. -/
def Returns (selects : Nat → Select) (recvs : Nat → Recv) (bufLen : Nat) (timeoutSecs : Int) : Prop :=
  ∃ n m, (socketReceive ⟨firstAnswers selects n, firstAnswers recvs m⟩ bufLen timeoutSecs).isSome

/-- The peer shuts down or the socket fails. -/
def Ends (r : Recv) : Prop := r = .error ∨ r = .data []

/-- Among the first answers is an end, or the counts add up to what is asked for. -/
def Comes (recvs : Nat → Recv) (need : Nat) : Prop :=
  ∃ m, (∃ i < m, Ends (recvs i)) ∨ need ≤ (stream (firstAnswers recvs m)).length

/-- The answer that ends the `select` loop. -/
def Selected (selects : Nat → Select) (k : Nat) : Prop := selects k ≠ .eintr ∧ ∀ j < k, selects j = .eintr

theorem firstAnswers_succ {α : Type} (script : Nat → α) (n : Nat) :
    firstAnswers script (n + 1) = firstAnswers script n ++ [script n] := by
  simp only [firstAnswers, List.range_succ, List.map_append, List.map_cons, List.map_nil]

theorem mem_firstAnswers {α : Type} {script : Nat → α} {n : Nat} {x : α} :
    x ∈ firstAnswers script n ↔ ∃ i < n, script i = x := by
  simp only [firstAnswers, List.mem_map, List.mem_range]

/-! ## The two loops -/

/-- What a `recv` loop over these answers needs to end. -/
theorem recvLoop_isSome : ∀ {recvs : List Recv} {need : Nat} (outBuf : Bytes), 0 < need →
    ((recvLoop need outBuf recvs).isSome ↔ (∃ r ∈ recvs, Ends r) ∨ need ≤ (stream recvs).length) := by
  intro recvs
  induction recvs with
  | nil =>
    intro need outBuf h0
    refine iff_of_false (by simp [recvLoop]) ?_
    simp [stream]
    omega
  | cons r recvs ih =>
    intro need outBuf h0
    cases r with
    | eintr => simpa [recvLoop, stream, Ends] using ih outBuf h0
    | eagain => simpa [recvLoop, stream, Ends] using ih outBuf h0
    | error => exact iff_of_true rfl (Or.inl ⟨.error, List.mem_cons_self, Or.inl rfl⟩)
    | data piece =>
      unfold recvLoop
      simp only [stream, List.length_append]
      by_cases hnil : piece.length = 0
      · -- the peer has shut down
        obtain rfl := List.eq_nil_of_length_eq_zero hnil
        exact iff_of_true (by simp) (Or.inl ⟨.data [], List.mem_cons_self, Or.inr rfl⟩)
      · rw [if_neg (by omega)]
        by_cases hfull : need ≤ piece.length
        · rw [if_pos (by omega)]
          exact iff_of_true rfl (Or.inr (by omega))
        · -- the loop goes on for the rest
          have hne : ¬Ends (.data piece) := fun h => by
            rcases h with h | h
            · cases h
            · obtain rfl := Recv.data.inj h
              exact hnil rfl
          rw [if_neg (by omega), ih _ (by omega)]
          simp only [List.mem_cons, exists_eq_or_imp, hne, false_or]
          refine or_congr_right ?_
          omega

theorem selectLoop_skip {l : List Select} (h : ∀ x ∈ l, x = .eintr) (l' : List Select) :
    selectLoop (l ++ l') = selectLoop l' := by
  induction l with
  | nil => rfl
  | cons x l ih =>
    obtain rfl := h x List.mem_cons_self
    exact ih fun y hy => h y (List.mem_cons_of_mem _ hy)

theorem selectLoop_more {l : List Select} {code : Int} {rest : List Select} (h : selectLoop l = some (code, rest))
    (l' : List Select) : selectLoop (l ++ l') = some (code, rest ++ l') := by
  induction l with
  | nil => cases h
  | cons x l ih =>
    cases x with
    | eintr => exact ih h
    | readable => obtain ⟨rfl, rfl⟩ := Prod.mk.inj (Option.some.inj h); rfl
    | timeout => obtain ⟨rfl, rfl⟩ := Prod.mk.inj (Option.some.inj h); rfl
    | error => obtain ⟨rfl, rfl⟩ := Prod.mk.inj (Option.some.inj h); rfl

/-- After some answers the `select` loop is still interrupted, or has ended with one. -/
theorem selectLoop_firstAnswers (selects : Nat → Select) (n : Nat) :
    (selectLoop (firstAnswers selects n) = none ∧ ∀ j < n, selects j = .eintr) ∨
      ∃ k code rest, Selected selects k ∧ selectLoop (firstAnswers selects n) = some (code, rest) ∧
        (code ≤ 0 ↔ selects k ≠ .readable) := by
  induction n with
  | zero => exact Or.inl ⟨rfl, fun j hj => by omega⟩
  | succ n ih =>
    rw [firstAnswers_succ]
    rcases ih with ⟨-, hall⟩ | ⟨k, code, rest, hk, hs, hc⟩
    · have hskip : selectLoop (firstAnswers selects n ++ [selects n]) = selectLoop [selects n] := by
        refine selectLoop_skip (fun x hx => ?_) _
        obtain ⟨i, hi, rfl⟩ := mem_firstAnswers.mp hx
        exact hall i hi
      rw [hskip]
      cases hn : selects n with
      | eintr =>
        refine Or.inl ⟨rfl, fun j hj => ?_⟩
        rcases Nat.lt_succ_iff_lt_or_eq.mp hj with hj | rfl
        · exact hall j hj
        · exact hn
      | readable => exact Or.inr ⟨n, 1, [], ⟨by rw [hn]; decide, hall⟩, rfl, by rw [hn]; decide⟩
      | timeout => exact Or.inr ⟨n, 0, [], ⟨by rw [hn]; decide, hall⟩, rfl, by rw [hn]; decide⟩
      | error => exact Or.inr ⟨n, -1, [], ⟨by rw [hn]; decide, hall⟩, rfl, by rw [hn]; decide⟩
    · exact Or.inr ⟨k, code, rest ++ [selects n], hk, selectLoop_more hs _, hc⟩

theorem selected_unique {selects : Nat → Select} {k k' : Nat} (h : Selected selects k) (h' : Selected selects k') :
    k = k' := by
  rcases Nat.lt_trichotomy k k' with hlt | heq | hlt
  · exact absurd (h'.2 k hlt) h.1
  · exact heq
  · exact absurd (h.2 k' hlt) h'.1

/-! ## A whole call -/

theorem comes_iff {recvs : Nat → Recv} {need : Nat} (h0 : 0 < need) :
    Comes recvs need ↔ ∃ m, (recvLoop need [] (firstAnswers recvs m)).isSome := by
  refine exists_congr fun m => ?_
  rw [recvLoop_isSome [] h0]
  refine or_congr_left ?_
  constructor
  · intro h
    obtain ⟨i, hi, he⟩ := h
    exact ⟨recvs i, mem_firstAnswers.mpr ⟨i, hi, rfl⟩, he⟩
  · intro h
    obtain ⟨r, hr, he⟩ := h
    obtain ⟨i, hi, rfl⟩ := mem_firstAnswers.mp hr
    exact ⟨i, hi, he⟩

/-- A call that has seen `select` end. -/
theorem socketReceive_selected {s : Socket} {code : Int} {rest : List Select} {bufLen : Nat} {timeoutSecs : Int}
    (ht : 0 < timeoutSecs) (hs : selectLoop s.selects = some (code, rest)) :
    (socketReceive s bufLen timeoutSecs).isSome ↔ code ≤ 0 ∨ (recvLoop bufLen [] s.recvs).isSome := by
  simp only [socketReceive, if_pos ht, hs, Option.bind_eq_bind, Option.bind_some]
  by_cases hc : code ≤ 0
  · simp [hc]
  · cases recvLoop bufLen [] s.recvs with
    | none => simp [hc]
    | some r => simp [hc]

/-- A call that returns saw `select` end, and what it asked for come. -/
theorem comes_of_returns {selects : Nat → Select} {recvs : Nat → Recv} {bufLen : Nat} {timeoutSecs : Int}
    (ht : 0 < timeoutSecs) (h0 : 0 < bufLen) (h : Returns selects recvs bufLen timeoutSecs) :
    ∃ k, Selected selects k ∧ (selects k = .readable → Comes recvs bufLen) := by
  obtain ⟨n, m, h⟩ := h
  rcases selectLoop_firstAnswers selects n with ⟨hnone, -⟩ | ⟨k, code, rest, hk, hs, hc⟩
  · simp only [socketReceive, if_pos ht, hnone] at h
    cases h
  · refine ⟨k, hk, fun hread => (comes_iff h0).mpr ⟨m, ?_⟩⟩
    rcases (socketReceive_selected ht hs).mp h with hcode | hr
    · exact absurd hread (hc.mp hcode)
    · exact hr

theorem returns_iff (selects : Nat → Select) (recvs : Nat → Recv) {bufLen : Nat} {timeoutSecs : Int}
    (ht : 0 < timeoutSecs) (h0 : 0 < bufLen) : Returns selects recvs bufLen timeoutSecs ↔
      ∃ k, Selected selects k ∧ (selects k = .readable → Comes recvs bufLen) := by
  constructor
  · exact comes_of_returns ht h0
  · intro h
    obtain ⟨k, hk, hcomes⟩ := h
    rcases selectLoop_firstAnswers selects (k + 1) with ⟨-, hall⟩ | ⟨k', code, rest, hk', hs, hc⟩
    · exact absurd (hall k (Nat.lt_succ_self k)) hk.1
    · obtain rfl := selected_unique hk hk'
      by_cases hread : selects k = .readable
      · obtain ⟨m, hm⟩ := (comes_iff h0).mp (hcomes hread)
        exact ⟨k + 1, m, (socketReceive_selected ht hs).mpr (Or.inr hm)⟩
      · exact ⟨k + 1, 0, (socketReceive_selected ht hs).mpr (Or.inl (hc.mpr hread))⟩

/-- Two interrupted `select`s, then a header in two pieces with a retry between them. -/
theorem returns_iff_sample :
    Returns (fun k => if k < 2 then .eintr else .readable)
      (fun m => if m = 1 then .eagain else .data [1, 2, 3, 4, 5, 6, 7, 8]) 16 3 :=
  (returns_iff _ _ (by decide) (by decide)).mpr ⟨2, ⟨by decide, by decide⟩, fun _ => ⟨3, Or.inr (by decide)⟩⟩

/-! ## What holds a call -/

theorem stream_append (l l' : List Recv) : stream (l ++ l') = stream l ++ stream l' := by
  induction l with
  | nil => rfl
  | cons r l ih =>
    cases r with
    | data piece => simp only [List.cons_append, stream, ih, List.append_assoc]
    | eintr => exact ih
    | eagain => exact ih
    | error => exact ih

theorem stream_grows {recvs : Nat → Recv} {n m : Nat} (h : n ≤ m) :
    (stream (firstAnswers recvs n)).length ≤ (stream (firstAnswers recvs m)).length := by
  induction m, h using Nat.le_induction with
  | base => exact Nat.le_refl _
  | succ m _ ih =>
    rw [firstAnswers_succ, stream_append, List.length_append]
    omega

/-- While answers that are no retries keep coming, what is asked for comes. -/
theorem comes_of_progress {recvs : Nat → Recv} (h : ∀ n, ∃ m, n ≤ m ∧ recvs m ≠ .eintr ∧ recvs m ≠ .eagain)
    (need : Nat) : Comes recvs need := by
  induction need with
  | zero => exact ⟨0, Or.inr (Nat.zero_le _)⟩
  | succ need ih =>
    obtain ⟨n, hn⟩ := ih
    rcases hn with hend | hlen
    · exact ⟨n, Or.inl hend⟩
    · obtain ⟨m, hm, hint, hag⟩ := h n
      by_cases hend : Ends (recvs m)
      · exact ⟨m + 1, Or.inl ⟨m, Nat.lt_succ_self m, hend⟩⟩
      · refine ⟨m + 1, Or.inr ?_⟩
        have hgrown : (stream (firstAnswers recvs n)).length ≤ (stream (firstAnswers recvs m)).length := stream_grows hm
        rw [firstAnswers_succ, stream_append, List.length_append]
        cases hr : recvs m with
        | eintr => exact absurd hr hint
        | eagain => exact absurd hr hag
        | error => exact absurd (Or.inl hr) hend
        | data piece =>
          have hpos : 0 < piece.length := List.length_pos_iff.mpr fun e => hend (Or.inr (by rw [hr, e]))
          simp only [stream, List.append_nil]
          omega

/-- The first byte of a header, and then a timeout each time. -/
def stalledPeer : Nat → Recv
  | 0 => .data [84]
  | _ => .eagain

theorem stalled_peer_holds : ¬Returns (fun _ => .readable) stalledPeer 16 3 := by
  intro h
  obtain ⟨k, -, hcomes⟩ := comes_of_returns (by decide) (by decide) h
  obtain ⟨m, hm⟩ := hcomes rfl
  have hone : ∀ m, (stream (firstAnswers stalledPeer m)).length ≤ 1 := by
    intro m
    induction m with
    | zero => exact Nat.zero_le 1
    | succ m ih =>
      rw [firstAnswers_succ, stream_append, List.length_append]
      cases m with
      | zero => exact Nat.le_refl 1
      | succ m => exact ih
  rcases hm with ⟨i, -, hend⟩ | hlen
  · cases i with
    | zero => simp [Ends, stalledPeer] at hend
    | succ i => simp [Ends, stalledPeer] at hend
  · have := hone m
    omega

end Ddm.Wire
