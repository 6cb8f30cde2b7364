/-
  Ddm.Lib.Resource — what is done with resources that are to be released.

  A trace lists the uses and the releases in order. It is clean if nothing is released
  twice, and nothing used once it is released. A slot is a variable that holds one
  resource of a kind at a time; those of a kind are numbered as they are opened, and a
  call on an empty slot does nothing.

  Proved: a trace is clean if and only if no operation follows the release of its
  resource (`clean_iff`), so a clean trace stays clean by one more operation if and only
  if the resource has not been released (`clean_concat`); and the rules of a slot that
  several parties release, fill and empty (`Slot.release`, `Slot.opened`).
-/

import Mathlib.Data.List.Count
import Mathlib.Data.List.Pairwise
import Mathlib.Logic.Function.Basic

namespace Ddm.Lib.Resource

variable {ρ τ : Type}

inductive Op (ρ : Type) where
  | use (r : ρ)
  | release (r : ρ)
  deriving DecidableEq

def Op.of : Op ρ → ρ
  | .use r => r
  | .release r => r

structure Clean [DecidableEq ρ] (ops : List (Op ρ)) : Prop where
  once : ∀ r, ops.count (.release r) ≤ 1
  alive : ∀ before after r, ops = before ++ .use r :: after → .release r ∉ before

variable [DecidableEq ρ] {ops : List (Op ρ)} {op : Op ρ}

theorem clean_iff : Clean ops ↔ ops.Pairwise fun a b => a ≠ .release b.of := by
  constructor
  · intro h
    induction ops with
    | nil => exact .nil
    | cons a ops ih =>
      refine List.pairwise_cons.mpr ⟨?_, ih ⟨fun r => ?_, fun before after r e hr => ?_⟩⟩
      · intro b hb e
        subst e
        cases b with
        | use r =>
          obtain ⟨before, after, rfl⟩ := List.append_of_mem hb
          exact h.alive (.release r :: before) after r rfl List.mem_cons_self
        | release r =>
          have hone := h.once r
          have := List.count_pos_iff.mpr hb
          rw [show (Op.release r).of = r from rfl, List.count_cons_self] at hone
          omega
      · exact Nat.le_trans List.count_le_count_cons (h.once r)
      · exact h.alive (a :: before) after r (congrArg (a :: ·) e) (List.mem_cons_of_mem _ hr)
  · intro h
    refine ⟨fun r => ?_, fun before after r e hr => ?_⟩
    · by_contra hlt
      -- two releases are two places of the trace, the one before the other
      have htwo : 2 ≤ ops.count (.release r) := by omega
      have hsub : List.Sublist [.release r, .release r] ops := List.replicate_sublist_iff.mpr htwo
      exact List.rel_of_pairwise_cons (h.sublist hsub) List.mem_cons_self rfl
    · subst e
      exact (List.pairwise_append.mp h).2.2 _ hr _ List.mem_cons_self rfl

theorem clean_nil : Clean ([] : List (Op ρ)) := clean_iff.mpr .nil

theorem clean_concat : Clean (ops ++ [op]) ↔ Clean ops ∧ .release op.of ∉ ops := by
  rw [clean_iff, clean_iff, List.pairwise_append]
  constructor
  · intro h
    exact ⟨h.1, fun hr => h.2.2 _ hr op List.mem_cons_self rfl⟩
  · intro h
    refine ⟨h.1, List.pairwise_singleton _ _, fun a ha b hb e => ?_⟩
    rw [List.mem_singleton.mp hb] at e
    exact h.2 (e ▸ ha)

/-! ## Slots -/

/-- The operations of a call on a slot. -/
def calls (op : ρ → Op ρ) (mk : Nat → ρ) (slot : Option Nat) : List (Op ρ) := (slot.map fun n => op (mk n)).toList

omit [DecidableEq ρ] in
theorem mem_calls {f : ρ → Op ρ} {mk : Nat → ρ} {slot : Option Nat} :
    op ∈ calls f mk slot ↔ ∃ n, slot = some n ∧ f (mk n) = op := by
  unfold calls
  cases slot with
  | none => exact ⟨fun h => absurd h List.not_mem_nil, fun ⟨_, h, _⟩ => by cases h⟩
  | some n =>
    constructor
    · intro h
      exact ⟨n, rfl, (List.mem_singleton.mp h).symm⟩
    · intro ⟨_, h, e⟩
      cases h
      exact List.mem_singleton.mpr e.symm

/-- None of the kind is released before it is opened; what the slot holds has been released
    only if somebody has it in hand, having released it and not put another in its place. -/
structure Slot (ops : List (Op ρ)) (mk : Nat → ρ) (slot : Option Nat) (next : Nat) (hand : τ → Option Nat) : Prop where
  below : ∀ n, .release (mk n) ∈ ops → n < next
  held : ∀ n, slot = some n → n < next ∧ (.release (mk n) ∈ ops → ∃ t, hand t = some n)
  hands : ∀ t n, hand t = some n → .release (mk n) ∈ ops
  once : ∀ t t' n, hand t = some n → hand t' = some n → t = t'

/-- Nobody has the slot's resource in hand. -/
def Free (slot : Option Nat) (hand : τ → Option Nat) : Prop := ∀ t n, hand t = some n → slot ≠ some n

variable {mk : Nat → ρ} {slot : Option Nat} {next : Nat} {hand : τ → Option Nat}

omit [DecidableEq ρ] in
theorem Slot.empty : Slot ([] : List (Op ρ)) mk none next fun _ : τ => none :=
  ⟨fun _ h => absurd h List.not_mem_nil, nofun, nofun, nofun⟩

omit [DecidableEq ρ] in
/-- What is done with other resources, and what does not release. -/
theorem Slot.frame (h : Slot ops mk slot next hand) {new : List (Op ρ)} (hnew : ∀ n, .release (mk n) ∉ new) :
    Slot (ops ++ new) mk slot next hand := by
  have hmem : ∀ n, .release (mk n) ∈ ops ++ new ↔ .release (mk n) ∈ ops := fun n => by
    rw [List.mem_append, or_iff_left (hnew n)]
  refine ⟨fun n hn => h.below n ((hmem n).mp hn), fun n hn => ?_, fun t n hn => (hmem n).mpr (h.hands t n hn), h.once⟩
  rw [hmem]
  exact h.held n hn

/-- A call on a slot that is empty, or whose resource nobody has in hand. -/
theorem Slot.clean (h : Slot ops mk slot next hand) (hc : Clean ops) (hfree : Free slot hand) {f : ρ → Op ρ}
    (hf : ∀ r, (f r).of = r) : Clean (ops ++ calls f mk slot) := by
  cases slot with
  | none => rwa [show calls f mk none = [] from rfl, List.append_nil]
  | some n =>
    refine clean_concat.mpr ⟨hc, fun hr => ?_⟩
    rw [hf] at hr
    obtain ⟨t, ht⟩ := (h.held n rfl).2 hr
    exact hfree t n ht rfl

/-- A call on what somebody has in hand. -/
theorem Slot.not_clean (h : Slot ops mk slot next hand) (hfree : ¬Free slot hand) {f : ρ → Op ρ}
    (hf : ∀ r, (f r).of = r) : ¬Clean (ops ++ calls f mk slot) := by
  simp only [Free, not_forall, not_not] at hfree
  obtain ⟨t, n, ht, rfl⟩ := hfree
  intro hc
  have := (clean_concat.mp hc).2
  rw [hf] at this
  exact this (h.hands t n ht)

variable [DecidableEq τ] {t : τ}

omit [DecidableEq ρ] in
/-- `t` releases what the slot holds. -/
theorem Slot.release (h : Slot ops mk slot next hand) (hmk : mk.Injective) (hfree : Free slot hand) :
    Slot (ops ++ calls .release mk slot) mk slot next (Function.update hand t slot) := by
  refine ⟨fun n hn => ?_, fun n hn => ⟨(h.held n hn).1, fun _ => ⟨t, ?_⟩⟩, fun x n hx => ?_, fun x y n hx hy => ?_⟩
  · rcases List.mem_append.mp hn with hn | hn
    · exact h.below n hn
    · obtain ⟨n', hs, e⟩ := mem_calls.mp hn
      obtain rfl := hmk (Op.release.inj e)
      exact (h.held n' hs).1
  · rw [Function.update_self, hn]
  · by_cases e : x = t
    · rw [e, Function.update_self] at hx
      exact List.mem_append_right _ (mem_calls.mpr ⟨n, hx, rfl⟩)
    · rw [Function.update_of_ne e] at hx
      exact List.mem_append_left _ (h.hands x n hx)
  · by_cases ex : x = t
    · by_cases ey : y = t
      · rw [ex, ey]
      · rw [ex, Function.update_self] at hx
        rw [Function.update_of_ne ey] at hy
        exact absurd hx (hfree y n hy)
    · rw [Function.update_of_ne ex] at hx
      by_cases ey : y = t
      · rw [ey, Function.update_self] at hy
        exact absurd hy (hfree x n hx)
      · rw [Function.update_of_ne ey] at hy
        exact h.once x y n hx hy

omit [DecidableEq ρ] in
/-- What `t` has in hand stays there. -/
theorem Slot.keep (h : Slot ops mk slot next hand) {o : Option Nat} (ht : hand t = o) :
    Slot ops mk slot next (Function.update hand t o) := by
  subst ht
  rwa [Function.update_eq_self]

omit [DecidableEq ρ] in
theorem hand_of_drop {x : τ} {n : Nat} (hx : Function.update hand t none x = some n) : x ≠ t ∧ hand x = some n := by
  by_cases e : x = t
  · rw [e, Function.update_self] at hx
    cases hx
  · rw [Function.update_of_ne e] at hx
    exact ⟨e, hx⟩

omit [DecidableEq ρ] in
/-- `t` leaves the slot as it is. -/
theorem Slot.drop (h : Slot ops mk slot next hand) (ht : ∀ n, hand t = some n → slot ≠ some n) :
    Slot ops mk slot next (Function.update hand t none) := by
  refine ⟨h.below, fun n hn => ⟨(h.held n hn).1, fun hr => ?_⟩, fun x n hx => h.hands x n (hand_of_drop hx).2,
    fun x y n hx hy => h.once x y n (hand_of_drop hx).2 (hand_of_drop hy).2⟩
  obtain ⟨x, hx⟩ := (h.held n hn).2 hr
  have hne : x ≠ t := fun e => ht n (e ▸ hx) hn
  exact ⟨x, by rw [Function.update_of_ne hne]; exact hx⟩

omit [DecidableEq ρ] in
/-- `t` puts a new one into the slot. -/
theorem Slot.opened (h : Slot ops mk slot next hand) :
    Slot ops mk (some next) (next + 1) (Function.update hand t none) := by
  refine ⟨fun n hn => Nat.lt_succ_of_lt (h.below n hn), fun n hn => ?_, fun x n hx => h.hands x n (hand_of_drop hx).2,
    fun x y n hx hy => h.once x y n (hand_of_drop hx).2 (hand_of_drop hy).2⟩
  obtain rfl := Option.some.inj hn
  exact ⟨Nat.lt_succ_self _, fun hr => absurd (h.below next hr) (Nat.lt_irrefl _)⟩

omit [DecidableEq ρ] in
/-- `t` empties the slot. -/
theorem Slot.emptied (h : Slot ops mk slot next hand) : Slot ops mk none next (Function.update hand t none) :=
  ⟨h.below, nofun, fun x n hx => h.hands x n (hand_of_drop hx).2,
    fun x y n hx hy => h.once x y n (hand_of_drop hx).2 (hand_of_drop hy).2⟩

/-- A call on what has been released. -/
theorem not_clean_calls {n : Nat} (h : .release (mk n) ∈ ops) {f : ρ → Op ρ} (hf : ∀ r, (f r).of = r) :
    ¬Clean (ops ++ calls f mk (some n)) := by
  intro hc
  have := (clean_concat.mp hc).2
  rw [hf] at this
  exact this h

end Ddm.Lib.Resource
