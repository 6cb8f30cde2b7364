/-
  Ddm.Lib.Backlog — a server that takes at most one item per arrival.

  Items of given sizes arrive in order, in portions of any size that ignore the items'
  borders; after each portion the server takes the first item if it is complete. It is
  told of nothing but arrivals, so an item left complete in its buffer waits for the
  next one.

  Proved: every item is taken if and only if at no point more items are incomplete than
  portions are still to come (`drained_iff`).
-/

import Mathlib.Algebra.BigOperators.Group.List.Basic
import Mathlib.Algebra.Order.Ring.Int

namespace Ddm.Lib.Backlog

/-- How many of the items are complete in the first `n` units. -/
def completed : List Nat → Nat → Nat
  | [], _ => 0
  | size :: sizes, n => if size ≤ n then completed sizes (n - size) + 1 else 0

/-- The items not taken yet and the units of them that are there. -/
structure State where
  items : List Nat
  arrived : Nat

/-- `n` more units, then the server looks once. -/
def serve (s : State) (n : Nat) : State :=
  match s.items with
  | [] => ⟨[], s.arrived + n⟩
  | size :: sizes => if size ≤ s.arrived + n then ⟨sizes, s.arrived + n - size⟩ else ⟨size :: sizes, s.arrived + n⟩

/-- No item is empty: nothing is complete before anything arrived. -/
theorem completed_zero {sizes : List Nat} (h : ∀ size ∈ sizes, 0 < size) : completed sizes 0 = 0 := by
  cases sizes with
  | nil => rfl
  | cons size sizes =>
    have := h size List.mem_cons_self
    simp only [completed, if_neg (by omega : ¬size ≤ 0)]

/-- The condition over the portions to come: the items can be taken one at each, and
    after each the incomplete ones can be taken with those that follow. -/
def Drains (items : List Nat) (arrived : Nat) (portions : List Nat) : Prop :=
  items.length ≤ portions.length ∧ ∀ k, 1 ≤ k → k ≤ portions.length →
    items.length ≤ completed items (arrived + (portions.take k).sum) + (portions.length - k)

theorem drains_nil_items (arrived : Nat) (portions : List Nat) : Drains [] arrived portions :=
  ⟨Nat.zero_le _, fun _ _ _ => Nat.zero_le _⟩

/-- The server takes an item at this portion: one item fewer, one portion fewer. -/
theorem drains_taken {size arrived n : Nat} {sizes portions : List Nat} (h : size ≤ arrived + n) :
    Drains sizes (arrived + n - size) portions ↔ Drains (size :: sizes) arrived (n :: portions) := by
  have hcount : ∀ m, completed (size :: sizes) (arrived + (n + m)) = completed sizes (arrived + n - size + m) + 1 := by
    intro m
    rw [completed, if_pos (by omega)]
    congr 2; omega
  constructor
  · intro ⟨hl, hk⟩
    refine ⟨by simp only [List.length_cons]; omega, fun k h1 hle => ?_⟩
    obtain ⟨j, rfl⟩ : ∃ j, k = j + 1 := ⟨k - 1, by omega⟩
    simp only [List.length_cons] at hle ⊢
    simp only [List.take_succ_cons, List.sum_cons, hcount]
    by_cases hj : j = 0
    · omega
    · have := hk j (by omega) (by omega); omega
  · intro ⟨hl, hk⟩
    simp only [List.length_cons] at hl hk
    refine ⟨by omega, fun k h1 hle => ?_⟩
    have := hk (k + 1) (by omega) (by omega)
    simp only [List.take_succ_cons, List.sum_cons, hcount] at this
    omega

/-- It takes none: the same items, one portion fewer. -/
theorem drains_waiting {size arrived n : Nat} {sizes portions : List Nat} (h : ¬size ≤ arrived + n) :
    Drains (size :: sizes) (arrived + n) portions ↔ Drains (size :: sizes) arrived (n :: portions) := by
  have hnone : completed (size :: sizes) (arrived + n) = 0 := by rw [completed, if_neg h]
  constructor
  · intro ⟨hl, hk⟩
    refine ⟨by simp only [List.length_cons] at hl ⊢; omega, fun k h1 hle => ?_⟩
    obtain ⟨j, rfl⟩ : ∃ j, k = j + 1 := ⟨k - 1, by omega⟩
    simp only [List.length_cons] at hl hle ⊢
    simp only [List.take_succ_cons, List.sum_cons, ← Nat.add_assoc]
    by_cases hj : j = 0
    · omega
    · have := hk j (by omega) (by omega)
      simp only [List.length_cons] at this
      omega
  · intro ⟨_, hk⟩
    have h1 := hk 1 (by omega) (by simp)
    simp only [List.take_succ_cons, List.take_zero, List.sum_cons, List.sum_nil, Nat.add_zero, hnone,
      List.length_cons] at h1
    refine ⟨by simp only [List.length_cons]; omega, fun k hk1 hle => ?_⟩
    have := hk (k + 1) (by omega) (by simp only [List.length_cons]; omega)
    simp only [List.take_succ_cons, List.sum_cons, ← Nat.add_assoc, List.length_cons] at this ⊢
    omega

theorem foldl_serve_nil (portions : List Nat) : ∀ arrived, (portions.foldl serve ⟨[], arrived⟩).items = [] := by
  induction portions with
  | nil => intro _; rfl
  | cons n portions ih => intro arrived; exact ih (arrived + n)

/-- The whole run, from any buffer. -/
theorem drained_from (portions : List Nat) : ∀ (items : List Nat) (arrived : Nat),
    (portions.foldl serve ⟨items, arrived⟩).items = [] ↔ Drains items arrived portions := by
  induction portions with
  | nil =>
    intro items arrived
    cases items with
    | nil => exact iff_of_true rfl (drains_nil_items ..)
    | cons size sizes => exact iff_of_false (fun h => List.cons_ne_nil _ _ h) fun h => by simpa using h.1
  | cons n portions ih =>
    intro items arrived
    cases items with
    | nil => exact iff_of_true (foldl_serve_nil ..) (drains_nil_items ..)
    | cons size sizes =>
      simp only [List.foldl_cons, serve]
      by_cases h : size ≤ arrived + n
      · rw [if_pos h, ih]; exact drains_taken h
      · rw [if_neg h, ih]; exact drains_waiting h

/-- From an empty buffer both parts of the condition are one. -/
theorem drained_iff {items portions : List Nat} (h : ∀ size ∈ items, 0 < size) :
    (portions.foldl serve ⟨items, 0⟩).items = [] ↔
      ∀ k ≤ portions.length, items.length ≤ completed items (portions.take k).sum + (portions.length - k) := by
  rw [drained_from]
  constructor
  · intro ⟨hl, hk⟩ k hle
    by_cases h0 : k = 0
    · omega
    · simpa using hk k (by omega) hle
  · intro hk
    refine ⟨?_, fun k _ hle => by simpa using hk k hle⟩
    have := hk 0 (Nat.zero_le _)
    rwa [List.take_zero, List.sum_nil, completed_zero h, Nat.zero_add, Nat.sub_zero] at this

end Ddm.Lib.Backlog
