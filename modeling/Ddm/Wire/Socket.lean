/-
  Ddm.Wire.Socket — `socket_receive` of `util.c` over a script of what `select` and
  `recv` will answer.

  A `recv` result is a piece of the stream, an interruption, or an error; a piece that
  is longer than what was asked for is handed out in parts, and an empty piece is the
  peer's shutdown. `none` is a call that waits beyond its script.

  Proved: over pieces and interruptions, a receive returns exactly the next bytes of the
  stream and leaves the rest (`socketReceive_stream`).
-/

import Ddm.Lib.Bytes

namespace Ddm.Wire

open Ddm.Lib

inductive Recv where
  | data (piece : Bytes)
  | eintr
  | eagain
  | error
  deriving DecidableEq

inductive Select where
  | readable
  | timeout
  | eintr
  | error
  deriving DecidableEq

structure Socket where
  selects : List Select
  recvs : List Recv
  deriving DecidableEq

/-- The `do … while (ret < 0 && errno == EINTR)` loop. -/
def selectLoop : List Select → Option (Int × List Select)
  | [] => none
  | .readable :: rest => some (1, rest)
  | .timeout :: rest => some (0, rest)
  | .eintr :: rest => selectLoop rest
  | .error :: rest => some (-1, rest)

/-- The `while (1)` loop: the return code, what is in the buffer, the script's rest. -/
def recvLoop (needReceiveNum : Nat) (outBuf : Bytes) : List Recv → Option (Int × Bytes × List Recv)
  | [] => none
  | .eintr :: rest => recvLoop needReceiveNum outBuf rest
  | .eagain :: rest => recvLoop needReceiveNum outBuf rest
  | .error :: rest => some (-1, outBuf, rest)
  | .data piece :: rest =>
    let tmp := min needReceiveNum piece.length
    if tmp = 0 then some (-2, outBuf, rest)
    else if tmp = needReceiveNum then
      some (0, outBuf ++ piece.take tmp, if tmp = piece.length then rest else .data (piece.drop tmp) :: rest)
    else recvLoop (needReceiveNum - tmp) (outBuf ++ piece.take tmp) rest

def socketReceive (s : Socket) (bufLen : Nat) (timeoutSecs : Int) : Option (Int × Bytes × Socket) := do
  let (ret, selects) ← if timeoutSecs > 0 then selectLoop s.selects else some (1, s.selects)
  if ret ≤ 0 then some (-1, [], { s with selects := selects })
  else
    let (code, outBuf, recvs) ← recvLoop bufLen [] s.recvs
    some (code, outBuf, ⟨selects, recvs⟩)

/-! ## The stream -/

/-- The bytes still to come. -/
def stream : List Recv → Bytes
  | [] => []
  | .data piece :: rest => piece ++ stream rest
  | _ :: rest => stream rest

/-- Only pieces of positive size and interruptions. -/
def Flowing (recvs : List Recv) : Prop := ∀ r ∈ recvs, r ≠ .error ∧ r ≠ .data []

theorem Flowing.tail {r : Recv} {recvs : List Recv} (h : Flowing (r :: recvs)) : Flowing recvs :=
  fun x hx => h x (List.mem_cons_of_mem _ hx)

theorem recvLoop_stream : ∀ {recvs : List Recv} {need : Nat} (outBuf : Bytes), Flowing recvs → 0 < need →
    need ≤ (stream recvs).length → ∃ rest, recvLoop need outBuf recvs = some (0, outBuf ++ (stream recvs).take need, rest) ∧
      stream rest = (stream recvs).drop need ∧ Flowing rest := by
  intro recvs
  induction recvs with
  | nil => intro need outBuf _ h0 hn; simp only [stream, List.length_nil] at hn; omega
  | cons r recvs ih =>
    intro need outBuf hf h0 hn
    cases r with
    | eintr => exact ih outBuf hf.tail h0 hn
    | eagain => exact ih outBuf hf.tail h0 hn
    | error => exact absurd rfl (hf _ List.mem_cons_self).1
    | data piece =>
      have hpos : 0 < piece.length := List.length_pos_iff.mpr fun e => (hf _ List.mem_cons_self).2 (by rw [e])
      simp only [stream, List.length_append] at hn
      simp only [recvLoop, stream, if_neg (by omega : ¬min need piece.length = 0)]
      by_cases hfull : need ≤ piece.length
      · -- the piece completes the request; what is left of it stays in front
        simp only [Nat.min_eq_left hfull, if_true, List.take_append_of_le_length hfull,
          List.drop_append_of_le_length hfull]
        by_cases he : need = piece.length
        · refine ⟨recvs, by rw [if_pos he], ?_, hf.tail⟩
          rw [he, List.drop_length, List.nil_append]
        · refine ⟨.data (piece.drop need) :: recvs, by rw [if_neg he], rfl, ?_⟩
          intro x hx
          rcases List.mem_cons.mp hx with rfl | hx
          · refine ⟨by simp, fun e => he ?_⟩
            have := List.drop_eq_nil_iff.mp (Recv.data.inj e)
            omega
          · exact hf.tail x hx
      · -- the piece is used up and the rest is asked for
        have hmin : min need piece.length = piece.length := Nat.min_eq_right (by omega)
        obtain ⟨rest, hr, hs, hfr⟩ := ih (outBuf ++ piece) hf.tail (by omega : 0 < need - piece.length) (by omega)
        have htake : (piece ++ stream recvs).take need = piece ++ (stream recvs).take (need - piece.length) := by
          rw [List.take_append, List.take_of_length_le (by omega : piece.length ≤ need)]
        have hdrop : (piece ++ stream recvs).drop need = (stream recvs).drop (need - piece.length) := by
          rw [List.drop_append, List.drop_of_length_le (by omega : piece.length ≤ need), List.nil_append]
        refine ⟨rest, ?_, hs.trans hdrop.symm, hfr⟩
        simp only [hmin, List.take_length, if_neg (by omega : ¬piece.length = need), hr, htake, List.append_assoc]

/-- Enough `readable` answers for a number of receives. -/
def Readable (n : Nat) (selects : List Select) : Prop := n ≤ selects.length ∧ ∀ x ∈ selects, x = .readable

theorem selectLoop_readable {n : Nat} {selects : List Select} (h : Readable (n + 1) selects) :
    ∃ rest, selectLoop selects = some (1, rest) ∧ Readable n rest := by
  obtain ⟨hl, hall⟩ := h
  cases selects with
  | nil => simp at hl
  | cons x rest =>
    obtain rfl := hall x List.mem_cons_self
    exact ⟨rest, rfl, by simpa using hl, fun y hy => hall y (List.mem_cons_of_mem _ hy)⟩

theorem socketReceive_stream {s : Socket} {n need : Nat} {timeoutSecs : Int} (ht : 0 < timeoutSecs)
    (hsel : Readable (n + 1) s.selects) (hf : Flowing s.recvs) (h0 : 0 < need) (hn : need ≤ (stream s.recvs).length) :
    ∃ s', socketReceive s need timeoutSecs = some (0, (stream s.recvs).take need, s') ∧
      stream s'.recvs = (stream s.recvs).drop need ∧ Readable n s'.selects ∧ Flowing s'.recvs := by
  obtain ⟨selects, hs, hsel'⟩ := selectLoop_readable hsel
  obtain ⟨rest, hr, hd, hf'⟩ := recvLoop_stream [] hf h0 hn
  refine ⟨⟨selects, rest⟩, ?_, hd, hsel', hf'⟩
  simp only [socketReceive, if_pos ht, hs, hr, Option.bind_eq_bind, Option.bind_some, List.nil_append]
  rfl

end Ddm.Wire
