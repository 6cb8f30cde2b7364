/-
  Ddm.Lib.LinkedList — singly linked lists with the link inside the node: the list
  macros of `utlist.h`.

  Memory is a link for every node, a list its head. Appending and deleting walk from the
  head, so each has a bound on its walk and no result when the bound is too small or a
  null pointer would be followed.

  `Chain next head l`: the walk from `head` visits the nodes `l` and ends. Proved: a
  walk visits no node twice (`Chain.nodup`), and on the nodes visited appending is
  `l ++ [add]` (`Chain.append`), deleting `l.erase del` (`Chain.delete`) and counting
  `l.length` (`Chain.count`). Each writes the links of its own list alone, so a list
  with no node in common stays as it is (`Chain.congr`).
-/

import Mathlib.Logic.Function.Basic
import Mathlib.Data.List.Basic

namespace Ddm.Lib.LinkedList

variable {ν : Type} [DecidableEq ν]

/-! ## The macros -/

/-- `while (_tmp->next) { _tmp = _tmp->next; }` -/
def lastFrom (next : ν → Option ν) : Nat → ν → Option ν
  | 0, _ => none
  | fuel + 1, tmp =>
    match next tmp with
    | none => some tmp
    | some n => lastFrom next fuel n

/-- LL_APPEND -/
def append (fuel : Nat) (next : ν → Option ν) (head : Option ν) (add : ν) : Option ((ν → Option ν) × Option ν) :=
  let next := Function.update next add none
  match head with
  | some first => (lastFrom next fuel first).map fun tmp => (Function.update next tmp (some add), some first)
  | none => some (next, some add)

/-- `while (_tmp->next && (_tmp->next != (del))) { _tmp = _tmp->next; }` -/
def linkTo (next : ν → Option ν) (del : ν) : Nat → ν → Option ν
  | 0, _ => none
  | fuel + 1, tmp =>
    match next tmp with
    | none => some tmp
    | some n => if n = del then some tmp else linkTo next del fuel n

/-- LL_DELETE; on an empty list it follows a null pointer. -/
def delete (fuel : Nat) (next : ν → Option ν) (head : Option ν) (del : ν) : Option ((ν → Option ν) × Option ν) :=
  match head with
  | none => none
  | some first =>
    if first = del then some (next, next first)
    else (linkTo next del fuel first).map fun tmp =>
      if (next tmp).isSome then (Function.update next tmp (next del), some first) else (next, some first)

/-- LL_COUNT -/
def count (next : ν → Option ν) : Nat → Option ν → Option Nat
  | _, none => some 0
  | 0, some _ => none
  | fuel + 1, some el => (count next fuel (next el)).map (· + 1)

/-! ## Chains -/

inductive Chain (next : ν → Option ν) : Option ν → List ν → Prop
  | nil : Chain next none []
  | cons {a : ν} {l : List ν} : Chain next (next a) l → Chain next (some a) (a :: l)

variable {next next' : ν → Option ν} {head : Option ν} {l l' : List ν} {a del : ν} {fuel : Nat}

omit [DecidableEq ν] in
theorem Chain.unique (h : Chain next head l) (h' : Chain next head l') : l = l' := by
  induction h generalizing l' with
  | nil => cases h'; rfl
  | cons _ ih =>
    cases h' with
    | cons h' => rw [ih h']

omit [DecidableEq ν] in
/-- The part of a list from one of its nodes on. -/
theorem Chain.suffix (h : Chain next head l) (ha : a ∈ l) : ∃ r, Chain next (some a) (a :: r) ∧ (a :: r) <:+ l := by
  induction h with
  | nil => cases ha
  | @cons b l h ih =>
    cases ha with
    | head => exact ⟨l, .cons h, List.suffix_refl _⟩
    | tail _ ha =>
      obtain ⟨r, hr, hs⟩ := ih ha
      exact ⟨r, hr, hs.trans (List.suffix_cons b l)⟩

omit [DecidableEq ν] in
/-- A node met twice would be met for ever. -/
theorem Chain.nodup (h : Chain next head l) : l.Nodup := by
  induction h with
  | nil => exact List.nodup_nil
  | @cons a l h ih =>
    refine List.nodup_cons.mpr ⟨fun ha => ?_, ih⟩
    obtain ⟨r, hr, hs⟩ := h.suffix ha
    have he : a :: r = a :: l := hr.unique (.cons h)
    have := hs.length_le
    rw [he, List.length_cons] at this
    omega

omit [DecidableEq ν] in
theorem Chain.congr (h : Chain next head l) (hl : ∀ a ∈ l, next' a = next a) : Chain next' head l := by
  induction h with
  | nil => exact .nil
  | @cons a l _ ih =>
    have := ih fun b hb => hl b (List.mem_cons_of_mem a hb)
    rw [← hl a List.mem_cons_self] at this
    exact .cons this

omit [DecidableEq ν] in
theorem Chain.head_eq {b : ν} (h : Chain next (some a) (b :: l)) : b = a := by
  cases h; rfl

omit [DecidableEq ν] in
theorem Chain.count (h : Chain next head l) (hf : l.length ≤ fuel) : count next fuel head = some l.length := by
  induction h generalizing fuel with
  | nil => cases fuel <;> rfl
  | cons _ ih =>
    cases fuel with
    | zero => simp at hf
    | succ fuel => rw [LinkedList.count, ih (by simpa using hf)]; rfl

/-! ## Appending -/

omit [DecidableEq ν] in
/-- The walk to the end stops at a node of the list that has no next. -/
theorem Chain.lastFrom (h : Chain next (some a) l) (hf : l.length ≤ fuel) :
    ∃ r tmp, LinkedList.lastFrom next fuel a = some tmp ∧ l = r ++ [tmp] := by
  induction l generalizing a fuel with
  | nil => cases h
  | cons b l ih =>
    cases fuel with
    | zero => simp at hf
    | succ fuel =>
      obtain rfl : b = a := h.head_eq
      cases h with
      | cons h =>
        rw [LinkedList.lastFrom]
        cases hn : next b with
        | none =>
          rw [hn] at h
          cases h
          exact ⟨[], b, rfl, rfl⟩
        | some n =>
          obtain ⟨r, tmp, ht, hr⟩ := ih (hn ▸ h) (by simpa using hf)
          exact ⟨b :: r, tmp, ht, by rw [hr]; rfl⟩

/-- Linking the last node to a new one. -/
theorem Chain.link {r : List ν} {tmp add : ν} (h : Chain next head (r ++ [tmp])) (ha : next add = none)
    (hadd : add ∉ r ++ [tmp]) : Chain (Function.update next tmp (some add)) head (r ++ [tmp] ++ [add]) := by
  induction r generalizing head with
  | nil =>
    cases h with
    | cons _ =>
      have hne : add ≠ tmp := fun e => hadd (by simp [e])
      have hend : Chain (Function.update next tmp (some add)) (some add) [add] :=
        .cons (by rw [Function.update_of_ne hne, ha]; exact .nil)
      exact .cons (by rw [Function.update_self]; exact hend)
  | cons b r ih =>
    have hnd := h.nodup
    cases h with
    | cons h =>
      have hb : b ≠ tmp := fun e => (List.nodup_cons.mp hnd).1 (by simp [e])
      refine .cons ?_
      rw [Function.update_of_ne hb]
      exact ih h fun hm => hadd (List.mem_cons_of_mem b hm)

/-- LL_APPEND of a node that is not in the list: no link outside it and the node changes. -/
theorem Chain.append {add : ν} (h : Chain next head l) (hadd : add ∉ l) (hf : l.length ≤ fuel) :
    ∃ next' head', LinkedList.append fuel next head add = some (next', head') ∧ Chain next' head' (l ++ [add]) ∧
      ∀ b, b ∉ l → b ≠ add → next' b = next b := by
  have h0 : Chain (Function.update next add none) head l :=
    h.congr fun b hb => Function.update_of_ne (ne_of_mem_of_not_mem hb hadd) ..
  have hnone : Function.update next add none add = none := Function.update_self ..
  cases head with
  | none =>
    cases h
    exact ⟨_, _, rfl, .cons (by rw [hnone]; exact .nil), fun b _ hb => Function.update_of_ne hb ..⟩
  | some first =>
    obtain ⟨r, tmp, ht, rfl⟩ := h0.lastFrom hf
    refine ⟨_, _, by rw [LinkedList.append]; simp only [ht]; rfl, h0.link hnone hadd, fun b hb hne => ?_⟩
    have hbt : b ≠ tmp := fun e => hb (by simp [e])
    rw [Function.update_of_ne hbt, Function.update_of_ne hne]

/-! ## Deleting -/

/-- The walk to the link to `del` stops there, or at the end when there is none. -/
theorem Chain.linkTo (h : Chain next (some a) l) (hne : a ≠ del) (hf : l.length ≤ fuel) :
    ∃ tmp ∈ l, LinkedList.linkTo next del fuel a = some tmp ∧
      ((del ∉ l ∧ next tmp = none) ∨ ∃ r r', l = r ++ tmp :: del :: r' ∧ next tmp = some del) := by
  induction l generalizing a fuel with
  | nil => cases h
  | cons b l ih =>
    cases fuel with
    | zero => simp at hf
    | succ fuel =>
      obtain rfl : b = a := h.head_eq
      cases h with
      | cons h =>
        rw [LinkedList.linkTo]
        cases hn : next b with
        | none =>
          rw [hn] at h
          cases h
          exact ⟨b, List.mem_cons_self, rfl, Or.inl ⟨by simpa using Ne.symm hne, hn⟩⟩
        | some n =>
          rw [hn] at h
          by_cases hd : n = del
          · subst hd
            cases h with
            | @cons _ r' _ => exact ⟨b, List.mem_cons_self, if_pos rfl, Or.inr ⟨[], r', rfl, hn⟩⟩
          · obtain ⟨tmp, hm, ht, hcase⟩ := ih h hd (by simpa using hf)
            refine ⟨tmp, List.mem_cons_of_mem b hm, by simpa only [if_neg hd] using ht, ?_⟩
            cases hcase with
            | inl hc => exact Or.inl ⟨by simpa [Ne.symm hne] using hc.1, hc.2⟩
            | inr hc =>
              obtain ⟨r, r', hl, hc⟩ := hc
              exact Or.inr ⟨b :: r, r', by rw [hl]; rfl, hc⟩

/-- Linking past a node. -/
theorem Chain.unlink {r r' : List ν} {tmp : ν} (h : Chain next head (r ++ tmp :: del :: r')) :
    Chain (Function.update next tmp (next del)) head (r ++ tmp :: r') := by
  have hnd := h.nodup
  induction r generalizing head with
  | nil =>
    cases h with
    | cons h =>
      generalize hn : next tmp = n at h
      cases h with
      | cons h =>
        have htail : tmp ∉ r' := fun hm => (List.nodup_cons.mp hnd).1 (List.mem_cons_of_mem del hm)
        refine .cons ?_
        rw [Function.update_self]
        exact h.congr fun b hb => Function.update_of_ne (ne_of_mem_of_not_mem hb htail) ..
  | cons b r ih =>
    cases h with
    | cons h =>
      have hb : b ≠ tmp := fun e => (List.nodup_cons.mp hnd).1 (by simp [e])
      refine .cons ?_
      rw [Function.update_of_ne hb]
      exact ih h (List.nodup_cons.mp hnd).2

/-- LL_DELETE: no link outside the list changes. -/
theorem Chain.delete (h : Chain next head l) (del : ν) (hl : l ≠ []) (hf : l.length ≤ fuel) :
    ∃ next' head', LinkedList.delete fuel next head del = some (next', head') ∧ Chain next' head' (l.erase del) ∧
      ∀ b ∉ l, next' b = next b := by
  cases h with
  | nil => exact absurd rfl hl
  | @cons first l h =>
    by_cases hd : first = del
    · subst hd
      refine ⟨next, next first, by rw [LinkedList.delete, if_pos rfl], ?_, fun _ _ => rfl⟩
      rw [List.erase_cons_head]
      exact h
    · obtain ⟨tmp, hm, ht, hcase⟩ := (Chain.cons h).linkTo hd hf
      rcases hcase with ⟨hnot, hend⟩ | ⟨r, r', he, hlink⟩
      · refine ⟨next, some first, by simp [LinkedList.delete, hd, ht, hend], ?_, fun _ _ => rfl⟩
        rw [List.erase_of_not_mem hnot]
        exact .cons h
      · refine ⟨Function.update next tmp (next del), some first, by simp [LinkedList.delete, hd, ht, hlink], ?_,
          fun b hb => Function.update_of_ne (ne_of_mem_of_not_mem hm hb).symm ..⟩
        have h' := Chain.cons h
        have hnd := h'.nodup
        rw [he] at h' hnd ⊢
        have hr : del ∉ r := fun hmem => (List.nodup_append.mp hnd).2.2 del hmem del (by simp) rfl
        have htd : tmp ≠ del := fun e => by simp [e, List.nodup_append] at hnd
        rw [List.erase_append_right _ hr, List.erase_cons_tail (by simpa using htd), List.erase_cons_head]
        exact h'.unlink

end Ddm.Lib.LinkedList
