/-
  Ddm.Conf.Dictionary — `dictionary.c`, which holds the configuration: the slot table of
  `Lib.SlotTable` with the file's hash function. A value may be NULL; a key may not, and
  the two functions that could be given one return at once.

  Allocations succeed here, and what is passed is not a part of the dictionary. `n` and
  `size` are `int`s in the source and numbers here. Proved: as long as the size asked for
  is an `int` and there are no more than 2^30 calls, both stay `int`s, no search for a slot
  fails, `n` is the number of the keys, and the dictionary answers as the map the calls
  describe (`dictionary_is_map`).
-/

import Ddm.Lib.Bytes
import Ddm.Lib.SlotTable

namespace Ddm.Conf

open Ddm.Lib

abbrev dictMinSz : Nat := 128

/-- `(unsigned)key[i]` of a signed `char`. -/
def unsigned (c : UInt8) : UInt32 := if c < 128 then c.toUInt32 else c.toUInt32 + 0xFFFFFF00

/-- One turn of the loop. -/
def hashByte (hash : UInt32) (c : UInt8) : UInt32 :=
  let hash := hash + unsigned c
  let hash := hash + (hash <<< 10)
  hash ^^^ (hash >>> 6)

def dictionaryHash (key : CStr) : UInt32 :=
  let hash := key.chars.foldl hashByte 0
  let hash := hash + (hash <<< 3)
  let hash := hash ^^^ (hash >>> 11)
  hash + (hash <<< 15)

example : dictionaryHash (.lit "a") = 0xCA2E9442 := by decide

abbrev Dictionary := SlotTable CStr (Option CStr) UInt32

def dictionaryNew (size : Nat) : Dictionary := .new (if size < dictMinSz then dictMinSz else size)

/-- The value kept, be it NULL, or `default`. -/
def dictionaryGet (d : Dictionary) (key : CStr) (default : Option CStr) : Option CStr :=
  (d.get dictionaryHash key).getD default

/-- The return code and the dictionary. -/
def dictionarySet (d : Dictionary) (key : Option CStr) (val : Option CStr) : Option (Int × Dictionary) :=
  match key with
  | none => some (-1, d)
  | some key => (d.set dictionaryHash key val).map (0, ·)

def dictionaryUnset (d : Dictionary) (key : Option CStr) : Dictionary :=
  match key with
  | none => d
  | some key => d.unset dictionaryHash key

/-! ## As a map -/

abbrev Dictionary.Good (d : Dictionary) : Prop := SlotTable.Good dictionaryHash d

theorem dictionaryNew_good (size : Nat) :
    (dictionaryNew size).Good ∧ ∀ key, (dictionaryNew size).get dictionaryHash key = none := by
  have hsize : 0 < if size < dictMinSz then dictMinSz else size := by
    have hmin : dictMinSz = 128 := rfl
    split <;> omega
  have hgood : (dictionaryNew size).Good := SlotTable.Good.new hsize
  refine ⟨hgood, fun key => ?_⟩
  cases hget : (dictionaryNew size).get dictionaryHash key with
  | none => rfl
  | some v =>
    obtain ⟨i, e, he, -⟩ := hgood.get_iff.mp hget
    have := List.mem_of_getElem? he
    simp [dictionaryNew, SlotTable.new] at this

theorem dictionarySet_good {d : Dictionary} (h : d.Good) (key : CStr) (val : Option CStr) :
    ∃ d', dictionarySet d (some key) val = some (0, d') ∧ d'.Good ∧
      ∀ k, d'.get dictionaryHash k = if k = key then some val else d.get dictionaryHash k := by
  obtain ⟨d', hd', hg, hm⟩ := h.set key val
  exact ⟨d', by rw [dictionarySet, hd']; rfl, hg, hm⟩

inductive Op where
  | set (key val : Option CStr)
  | unset (key : Option CStr)

def step (d : Dictionary) : Op → Option Dictionary
  | .set key val => (dictionarySet d key val).map (·.2)
  | .unset key => some (dictionaryUnset d key)

/-- What a call makes of the map. -/
def effect (m : CStr → Option (Option CStr)) : Op → CStr → Option (Option CStr)
  | .set (some key) val => fun k => if k = key then some val else m k
  | .unset (some key) => fun k => if k = key then none else m k
  | _ => m

theorem step_good {d : Dictionary} (h : d.Good) (op : Op) :
    ∃ d', step d op = some d' ∧ d'.Good ∧ d'.get dictionaryHash = effect (d.get dictionaryHash) op := by
  cases op with
  | set key val =>
    cases key with
    | none => exact ⟨d, rfl, h, rfl⟩
    | some key =>
      obtain ⟨d', hd', hg, hm⟩ := dictionarySet_good h key val
      exact ⟨d', by rw [step, hd']; rfl, hg, funext hm⟩
  | unset key =>
    cases key with
    | none => exact ⟨d, rfl, h, rfl⟩
    | some key =>
      obtain ⟨hg, hm⟩ := h.unset key
      exact ⟨_, rfl, hg, funext hm⟩

theorem run_good (ops : List Op) : ∀ {d : Dictionary}, d.Good → ∃ d', ops.foldlM step d = some d' ∧ d'.Good ∧
    d'.get dictionaryHash = ops.foldl effect (d.get dictionaryHash) := by
  induction ops with
  | nil => exact fun {d} h => ⟨d, rfl, h, rfl⟩
  | cons op ops ih =>
    intro d h
    obtain ⟨d', hs, hg, hm⟩ := step_good h op
    obtain ⟨d'', hr, hg', hm'⟩ := ih hg
    refine ⟨d'', ?_, hg', by rw [hm', hm]; rfl⟩
    rw [List.foldlM_cons, hs]
    exact hr

/-- From a new dictionary. -/
theorem run_new (size : Nat) (ops : List Op) : ∃ d, ops.foldlM step (dictionaryNew size) = some d ∧ d.Good ∧
    ∀ key, d.get dictionaryHash key = ops.foldl effect (fun _ => none) key := by
  obtain ⟨hnew, hempty⟩ := dictionaryNew_good size
  obtain ⟨d, hrun, hg, hm⟩ := run_good ops hnew
  rw [funext hempty] at hm
  exact ⟨d, hrun, hg, congrFun hm⟩

/-- `n` and `size` are `int`s. -/
structure Dictionary.Ints (d : Dictionary) : Prop where
  n : d.n < 2 ^ 31
  size : d.slots.length < 2 ^ 31

theorem dictionaryNew_size {size : Nat} (h : size < 2 ^ 31) : (dictionaryNew size).slots.length < 2 ^ 31 := by
  have hmin : dictMinSz = 128 := rfl
  show (List.replicate (if size < dictMinSz then dictMinSz else size) none).length < 2 ^ 31
  rw [List.length_replicate]
  split <;> omega

/-- Doubling a full dictionary of fewer than 2^30 keys. -/
theorem step_size {d d' : Dictionary} {op : Op} (hs : step d op = some d') (hn : d.n < 2 ^ 30)
    (hsize : d.slots.length < 2 ^ 31) : d'.n ≤ d.n + 1 ∧ d'.slots.length < 2 ^ 31 := by
  have hset : ∀ {key : CStr} {val : Option CStr}, step d (.set (some key) val) = some d' →
      ∃ t, d.set dictionaryHash key val = some t ∧ t = d' := fun {key val} h => by
    simpa only [step, dictionarySet, Option.map_map, Option.map_eq_some_iff, Function.comp_apply] using h
  cases op with
  | set key val =>
    cases key with
    | none =>
      obtain rfl := Option.some.inj hs
      exact ⟨Nat.le_succ _, hsize⟩
    | some key =>
      obtain ⟨t, ht, rfl⟩ := hset hs
      obtain ⟨hle, hlength⟩ := SlotTable.set_sizes ht
      exact ⟨hle, by omega⟩
  | unset key =>
    cases key with
    | none =>
      obtain rfl := Option.some.inj hs
      exact ⟨Nat.le_succ _, hsize⟩
    | some key =>
      obtain rfl := Option.some.inj hs
      obtain ⟨hle, hlength⟩ := @SlotTable.unset_sizes _ _ _ _ _ dictionaryHash d key
      exact ⟨Nat.le_succ_of_le hle, by rw [dictionaryUnset, hlength]; exact hsize⟩

theorem run_size (ops : List Op) : ∀ {d d' : Dictionary}, ops.foldlM step d = some d' → d.n + ops.length ≤ 2 ^ 30 →
    d.slots.length < 2 ^ 31 → d'.Ints := by
  induction ops with
  | nil =>
    intro d d' h hn hsize
    obtain rfl := Option.some.inj h
    rw [List.length_nil] at hn
    exact ⟨by omega, hsize⟩
  | cons op ops ih =>
    intro d d' h hn hsize
    rw [List.length_cons] at hn
    obtain ⟨u, hs, hrun⟩ := Option.bind_eq_some_iff.mp h
    obtain ⟨hle, hsize'⟩ := step_size hs (by omega) hsize
    exact ih hrun (by omega) hsize'

/-- After any calls the dictionary is the map they describe, and up to them its two `int`s
    have not overflowed. -/
theorem dictionary_is_map {size : Nat} {ops : List Op} (hsize : size < 2 ^ 31) (hops : ops.length ≤ 2 ^ 30) :
    (∀ before after, ops = before ++ after → ∃ d, before.foldlM step (dictionaryNew size) = some d ∧ d.Ints) ∧
    ∃ d, ops.foldlM step (dictionaryNew size) = some d ∧
      (∀ key default, dictionaryGet d key default = (ops.foldl effect (fun _ => none) key).getD default) ∧
      d.n = Set.ncard {key | (ops.foldl effect (fun _ => none) key).isSome = true} := by
  constructor
  · intro before after hsplit
    obtain ⟨d, hrun, -⟩ := run_new size before
    have hlength := congrArg List.length hsplit
    rw [List.length_append] at hlength
    have hzero : (dictionaryNew size).n = 0 := rfl
    exact ⟨d, hrun, run_size before hrun (by omega) (dictionaryNew_size hsize)⟩
  · obtain ⟨d, hrun, hg, hm⟩ := run_new size ops
    refine ⟨d, hrun, fun key default => ?_, ?_⟩
    · rw [dictionaryGet, hm]
    · rw [hg.n_eq, funext hm]

/-- A key set twice, one set to NULL and one that goes again. -/
def sampleOps : List Op :=
  [.set (some (.lit "a")) (some (.lit "1")), .set (some (.lit "b")) none, .set (some (.lit "a")) (some (.lit "2")),
    .set (some (.lit "c")) (some (.lit "3")), .unset (some (.lit "c"))]

theorem dictionary_is_map_sample : ∃ d, sampleOps.foldlM step (dictionaryNew 0) = some d ∧
    dictionaryGet d (.lit "a") none = some (.lit "2") ∧ dictionaryGet d (.lit "b") (some (.lit "def")) = none ∧
    dictionaryGet d (.lit "c") (some (.lit "def")) = some (.lit "def") := by
  obtain ⟨-, d, hrun, hget, -⟩ := @dictionary_is_map 0 sampleOps (by decide) (by decide)
  refine ⟨d, hrun, ?_, ?_, ?_⟩
  · rw [hget]; rfl
  · rw [hget]; rfl
  · rw [hget]; rfl

end Ddm.Conf
