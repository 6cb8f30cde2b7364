/-
  Ddm.Lib.RoundRobin — one of `n` positions at a time, chosen by a counter that wraps at
  `W`: the call that finds the counter at `c` takes position `c % n`.

  The calls of a run are numbered by the counter as if it did not wrap: a run of `k`
  calls from `c` is `c, …, c + k - 1`, and call `j` finds the counter at `j % W`.

  Proved: two positions are taken equally often in any run, up to one call and one more
  for each wrap of the counter (`hits_le`). `n` need not divide `W`.
-/

import Mathlib.Algebra.Order.Ring.Int
import Mathlib.Data.Int.CardIntervalMod

namespace Ddm.Lib.RoundRobin

variable {W n i i' : Nat}

/-- How often the run takes position `i`. -/
def hits (W n c k i : Nat) : Nat := k.count fun j => (c + j) % W % n = i

/-- How often the counter wraps in the run: the calls that find it at its last value. -/
def wraps (W c k : Nat) : Nat := k.count fun j => (c + j) % W = W - 1

/-! ## Counting -/

theorem count_mod (hi : i < n) (m : Nat) : m.count (fun j => j % n = i) = m / n + if i < m % n then 1 else 0 := by
  have h := Nat.count_modEq_card (b := m) (r := n) (by omega) i
  simpa only [Nat.ModEq, Nat.mod_eq_of_lt hi] using h

/-- Whole turns of the counter, and what is left. -/
theorem count_turns (p : Nat → Prop) [DecidablePred p] (hW : 0 < W) (m : Nat) :
    m.count (fun j => p (j % W)) = m / W * W.count p + (m % W).count p := by
  have hturn : ∀ q r, r ≤ W → r.count (fun j => p ((W * q + j) % W)) = r.count p := by
    intro q r hr
    simp only [Nat.count]
    refine List.countP_congr fun j hj => ?_
    have hj : j < W := by
      have := List.mem_range.mp hj
      omega
    simp only [Nat.mul_add_mod, Nat.mod_eq_of_lt hj]
  have hall : ∀ q, (W * q).count (fun j => p (j % W)) = q * W.count p := by
    intro q
    induction q with
    | zero => simp
    | succ q ih => rw [Nat.mul_succ, Nat.count_add, ih, hturn q W (Nat.le_refl W), Nat.succ_mul]
  have hsplit : m = W * (m / W) + m % W := (Nat.div_add_mod m W).symm
  conv_lhs => rw [hsplit]
  rw [Nat.count_add, hall, hturn _ _ (Nat.mod_lt m hW).le]

/-- A run is what lies between two beginnings. -/
theorem count_run (p : Nat → Prop) [DecidablePred p] (c k : Nat) :
    c.count p + k.count (fun j => p (c + j)) = (c + k).count p :=
  (Nat.count_add p c k).symm

theorem wraps_eq (hW : 0 < W) (c k : Nat) : c / W + wraps W c k = (c + k) / W := by
  have hlast : ∀ m, m.count (fun j => j % W = W - 1) = m / W := by
    intro m
    have hm := Nat.mod_lt m hW
    rw [count_mod (by omega), if_neg (by omega), Nat.add_zero]
  have h := count_run (fun j => j % W = W - 1) c k
  rw [hlast, hlast] at h
  exact h

/-! ## Fairness -/

/-- Counted from 0, the earlier position is ahead by at most one in the turn that is going
    on, and by the same `d ≤ 1` for each whole turn. -/
theorem lead (hW : 0 < W) (hle : i ≤ i') (hi' : i' < n) : ∃ d ≤ 1, ∀ m, ∃ e ≤ 1,
    m.count (fun j => j % W % n = i) = m.count (fun j => j % W % n = i') + (m / W * d + e) := by
  have hone : ∀ b : Nat, ∃ d ≤ 1, b.count (fun j => j % n = i) = b.count (fun j => j % n = i') + d := by
    intro b
    rw [count_mod (by omega), count_mod hi']
    by_cases h : i < b % n ∧ ¬i' < b % n
    · exact ⟨1, Nat.le_refl 1, by rw [if_pos h.1, if_neg h.2]⟩
    · refine ⟨0, Nat.zero_le 1, ?_⟩
      split <;> split <;> omega
  obtain ⟨d, hd, hturn⟩ := hone W
  refine ⟨d, hd, fun m => ?_⟩
  obtain ⟨e, he, hrest⟩ := hone (m % W)
  refine ⟨e, he, ?_⟩
  rw [count_turns (fun j => j % n = i) hW, count_turns (fun j => j % n = i') hW, hturn, hrest, Nat.mul_add]
  omega

theorem hits_le (hW : 0 < W) (hi : i < n) (hi' : i' < n) (c k : Nat) :
    hits W n c k i ≤ hits W n c k i' + (1 + wraps W c k) := by
  have hw := wraps_eq hW c k
  have hrun := fun i => count_run (fun j => j % W % n = i) c k
  -- the lead at the end of the run less the lead at its start
  rcases Nat.le_total i i' with hle | hle
  · obtain ⟨d, hd, hlead⟩ := lead hW hle hi'
    obtain ⟨e, he, hstart⟩ := hlead c
    obtain ⟨e', he', hend⟩ := hlead (c + k)
    rw [← hrun i, ← hrun i', hstart, ← hw, Nat.add_mul] at hend
    have : wraps W c k * d ≤ wraps W c k := (Nat.mul_le_mul_left _ hd).trans_eq (Nat.mul_one _)
    unfold hits
    omega
  · obtain ⟨d, -, hlead⟩ := lead hW hle hi
    obtain ⟨e, he, hstart⟩ := hlead c
    obtain ⟨e', he', hend⟩ := hlead (c + k)
    rw [← hrun i, ← hrun i', hstart, ← hw, Nat.add_mul] at hend
    unfold hits
    omega

end Ddm.Lib.RoundRobin
