/-
  Ddm.Lib.Occurrence — occurrences of a pattern in a list, and their replacement.

  `cut` takes the leftmost occurrence, then the leftmost in what follows it, and so on:
  the segments in front of the occurrences and what is left behind the last. Replacing
  every occurrence puts the segments together again with the replacement between them,
  which is not searched again.

  Proved: `firstOcc` finds the leftmost occurrence (`firstOcc_eq_some`,
  `firstOcc_eq_none`), so every one taken is the leftmost of what is left and none is
  left in the end (`replaced_replaceAll`); the lengths written after each replacement
  only grow (`length_filled_mono`).
-/

import Mathlib.Data.List.Infix

namespace Ddm.Lib.Occurrence

variable {α : Type} [DecidableEq α]

/-! ## The first occurrence -/

/-- Where `pat` starts in a list for the first time. -/
def firstOcc (pat : List α) : List α → Option Nat
  | [] => if pat = [] then some 0 else none
  | c :: cs => if pat <+: c :: cs then some 0 else (firstOcc pat cs).map (· + 1)

variable {pat : List α}

theorem firstOcc_eq_some {s : List α} {i : Nat} (h : firstOcc pat s = some i) :
    s = s.take i ++ pat ++ s.drop (i + pat.length) ∧ i + pat.length ≤ s.length ∧
      ∀ j < i, ¬ pat <+: s.drop j := by
  induction s generalizing i with
  | nil =>
    unfold firstOcc at h
    split at h
    · rename_i hp
      subst hp
      obtain rfl := Option.some.inj h
      exact ⟨rfl, Nat.le_refl 0, fun j hj => absurd hj (Nat.not_lt_zero j)⟩
    · cases h
  | cons c cs ih =>
    unfold firstOcc at h
    split at h
    · rename_i hp
      obtain rfl := Option.some.inj h
      refine ⟨?_, ?_, fun j hj => absurd hj (Nat.not_lt_zero j)⟩
      · rw [Nat.zero_add]
        exact (List.prefix_iff_eq_append.mp hp).symm
      · rw [Nat.zero_add]
        exact hp.length_le
    · rename_i hp
      obtain ⟨k, hk, rfl⟩ := Option.map_eq_some_iff.mp h
      obtain ⟨hsplit, hlen, hleft⟩ := ih hk
      refine ⟨?_, ?_, fun j hj => ?_⟩
      · rw [Nat.add_right_comm, List.take_succ_cons, List.drop_succ_cons, List.cons_append, List.cons_append, ← hsplit]
      · rw [List.length_cons]
        omega
      · cases j with
        | zero => exact hp
        | succ j =>
          rw [List.drop_succ_cons]
          exact hleft j (by omega)

theorem firstOcc_eq_none {s : List α} : firstOcc pat s = none ↔ ¬ pat <:+: s := by
  induction s with
  | nil =>
    unfold firstOcc
    by_cases hp : pat = []
    · simp [hp]
    · simp [hp]
  | cons c cs ih =>
    unfold firstOcc
    split
    · rename_i hp
      exact iff_of_false (fun h => by cases h) fun h => h hp.isInfix
    · rename_i hp
      rw [Option.map_eq_none_iff, ih, List.infix_cons_iff]
      exact ⟨fun h hor => hor.elim hp h, fun h hin => h (Or.inr hin)⟩

/-! ## Cutting at the occurrences -/

/-- The segments in front of the occurrences, the first `n` of them, and the rest. -/
def cutN (pat : List α) : Nat → List α → List (List α) × List α
  | 0, s => ([], s)
  | n + 1, s =>
    match firstOcc pat s with
    | none => ([], s)
    | some i =>
      let (segs, tail) := cutN pat n (s.drop (i + pat.length))
      (s.take i :: segs, tail)

/-- A list has no more occurrences than elements. -/
def cut (pat s : List α) : List (List α) × List α := cutN pat s.length s

theorem cutN_none {s : List α} (h : firstOcc pat s = none) (n : Nat) : cutN pat n s = ([], s) := by
  cases n with
  | zero => rfl
  | succ n => rw [cutN, h]

theorem cutN_eq (hpat : pat ≠ []) {n : Nat} : ∀ {s : List α}, s.length ≤ n → cutN pat n s = cut pat s := by
  have hpos := List.length_pos_iff.mpr hpat
  -- both recurse on what follows the first occurrence, which is shorter
  suffices hboth : ∀ (n m : Nat) (s : List α), s.length ≤ n → s.length ≤ m → cutN pat n s = cutN pat m s from
    fun {s} hs => hboth n s.length s hs (Nat.le_refl _)
  intro n
  induction n with
  | zero =>
    intro m s hn _
    obtain rfl := List.length_eq_zero_iff.mp (Nat.le_zero.mp hn)
    have hnone : firstOcc pat [] = none := if_neg hpat
    rw [cutN_none hnone, cutN_none hnone]
  | succ n ih =>
    intro m s hn hm
    cases hocc : firstOcc pat s with
    | none => rw [cutN_none hocc, cutN_none hocc]
    | some i =>
      obtain ⟨-, hlen, -⟩ := firstOcc_eq_some hocc
      have hdrop : (s.drop (i + pat.length)).length = s.length - (i + pat.length) := List.length_drop
      cases m with
      | zero => omega
      | succ m =>
        rw [cutN, cutN, hocc]
        simp only
        rw [ih m _ (by omega) (by omega)]

theorem cut_none {s : List α} (h : firstOcc pat s = none) : cut pat s = ([], s) := cutN_none h _

theorem cut_some (hpat : pat ≠ []) {s : List α} {i : Nat} (h : firstOcc pat s = some i) : cut pat s =
    (s.take i :: (cut pat (s.drop (i + pat.length))).1, (cut pat (s.drop (i + pat.length))).2) := by
  obtain ⟨-, hlen, -⟩ := firstOcc_eq_some h
  have hpos := List.length_pos_iff.mpr hpat
  have hdrop : (s.drop (i + pat.length)).length = s.length - (i + pat.length) := List.length_drop
  rw [← cutN_eq hpat (n := s.length) (s := s) (Nat.le_refl _)]
  obtain ⟨n, hn⟩ : ∃ n, s.length = n + 1 := ⟨s.length - 1, by omega⟩
  rw [hn, cutN, h]
  simp only
  rw [cutN_eq hpat (by omega)]

/-- Along the cuts: nothing left to find, or the first occurrence and the rest. -/
theorem cut_induction (hpat : pat ≠ []) {P : List α → Prop} (last : ∀ s, firstOcc pat s = none → P s)
    (next : ∀ s i, firstOcc pat s = some i → P (s.drop (i + pat.length)) → P s) (s : List α) : P s := by
  have hpos := List.length_pos_iff.mpr hpat
  suffices h : ∀ (n : Nat) (s : List α), s.length ≤ n → P s from h s.length s (Nat.le_refl _)
  intro n
  induction n with
  | zero =>
    intro s hs
    obtain rfl := List.length_eq_zero_iff.mp (Nat.le_zero.mp hs)
    exact last [] (if_neg hpat)
  | succ n ih =>
    intro s hs
    cases hocc : firstOcc pat s with
    | none => exact last s hocc
    | some i =>
      obtain ⟨-, hlen, -⟩ := firstOcc_eq_some hocc
      refine next s i hocc (ih _ ?_)
      rw [List.length_drop]
      omega

/-! ## Putting the segments together -/

/-- The segments, each with `dst` behind it. -/
def filled (dst : List α) (segs : List (List α)) : List α := segs.flatMap (· ++ dst)

/-- Every leftmost, non-overlapping occurrence replaced. -/
def replaceAll (pat dst s : List α) : List α := filled dst (cut pat s).1 ++ (cut pat s).2

omit [DecidableEq α] in
@[simp] theorem filled_nil (dst : List α) : filled dst [] = [] := rfl

omit [DecidableEq α] in
@[simp] theorem filled_cons (dst seg : List α) (segs : List (List α)) :
    filled dst (seg :: segs) = seg ++ dst ++ filled dst segs := rfl

theorem replaceAll_none {s : List α} (dst : List α) (h : firstOcc pat s = none) : replaceAll pat dst s = s := by
  rw [replaceAll, cut_none h]
  rfl

theorem replaceAll_some (hpat : pat ≠ []) {s : List α} (dst : List α) {i : Nat} (h : firstOcc pat s = some i) :
    replaceAll pat dst s = s.take i ++ dst ++ replaceAll pat dst (s.drop (i + pat.length)) := by
  rw [replaceAll, cut_some hpat h, filled_cons, List.append_assoc]
  rfl

/-- What it means, without the search: each occurrence taken is the leftmost of what is
    left, and none is left in the end. -/
inductive Replaced (pat dst : List α) : List α → List α → Prop
  | last {s : List α} : ¬ pat <:+: s → Replaced pat dst s s
  | next {seg rest t : List α} : (∀ j < seg.length, ¬ pat <+: (seg ++ pat ++ rest).drop j) →
      Replaced pat dst rest t → Replaced pat dst (seg ++ pat ++ rest) (seg ++ dst ++ t)

theorem replaced_replaceAll (hpat : pat ≠ []) (dst s : List α) : Replaced pat dst s (replaceAll pat dst s) := by
  induction s using cut_induction hpat with
  | last s h =>
    rw [replaceAll_none dst h]
    exact .last (firstOcc_eq_none.mp h)
  | next s i h ih =>
    obtain ⟨hsplit, hlen, hleft⟩ := firstOcc_eq_some h
    have htake : (s.take i).length = i := by
      rw [List.length_take]
      omega
    have hnext : Replaced pat dst (s.take i ++ pat ++ s.drop (i + pat.length))
        (s.take i ++ dst ++ replaceAll pat dst (s.drop (i + pat.length))) := by
      refine .next (fun j hj => ?_) ih
      rw [← hsplit]
      exact hleft j (htake ▸ hj)
    rw [replaceAll_some hpat dst h]
    rwa [← hsplit] at hnext

theorem mem_replaceAll (hpat : pat ≠ []) {dst : List α} {a : α} (s : List α) (h : a ∈ replaceAll pat dst s) :
    a ∈ dst ∨ a ∈ s := by
  induction s using cut_induction hpat with
  | last s hocc =>
    rw [replaceAll_none dst hocc] at h
    exact Or.inr h
  | next s i hocc ih =>
    rw [replaceAll_some hpat dst hocc, List.mem_append, List.mem_append] at h
    rcases h with (h | h) | h
    · exact Or.inr (List.mem_of_mem_take h)
    · exact Or.inl h
    · exact (ih h).imp_right List.mem_of_mem_drop

/-- No segment: no occurrence. -/
theorem cut_nil (hpat : pat ≠ []) {s : List α} (h : (cut pat s).1 = []) : (cut pat s).2 = s := by
  cases hocc : firstOcc pat s with
  | none => rw [cut_none hocc]
  | some i =>
    rw [cut_some hpat hocc] at h
    cases h

omit [DecidableEq α] in
theorem length_filled_mono (dst : List α) (segs : List (List α)) {j k : Nat} (h : j ≤ k) :
    (filled dst (segs.take j)).length ≤ (filled dst (segs.take k)).length := by
  induction segs generalizing j k with
  | nil => simp
  | cons seg segs ih =>
    cases j with
    | zero => simp
    | succ j =>
      cases k with
      | zero => omega
      | succ k =>
        have hrest := ih (Nat.le_of_succ_le_succ h)
        simp only [List.take_succ_cons, filled_cons, List.length_append]
        omega

end Ddm.Lib.Occurrence
