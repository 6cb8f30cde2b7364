/-
  Ddm.Lib.DoublyLinked — doubly linked lists with both links inside the node.

  A list is walked from its head by `next` and from its last node by `prev`: `Linked`
  says that the one walk visits `l` and the other `l` backwards. So what is known of a
  chain (`Lib.LinkedList`) holds in both directions. Proved: `pushFront`, `pushBack` and
  `unlink` do what they say to `l`, and each writes the links of its own list alone.
-/

import Ddm.Lib.LinkedList

namespace Ddm.Lib.DoublyLinked

open LinkedList (Chain)

variable {ν : Type}

/-- A link of each kind for every node. -/
structure Links (ν : Type) where
  prev : ν → Option ν
  next : ν → Option ν

section Writes

variable [DecidableEq ν]

def Links.setPrev (s : Links ν) (a : ν) (p : Option ν) : Links ν := { s with prev := Function.update s.prev a p }

def Links.setNext (s : Links ν) (a : ν) (n : Option ν) : Links ν := { s with next := Function.update s.next a n }

/-- The node is linked before the head. -/
def pushFront (s : Links ν) (head : Option ν) (add : ν) : Links ν :=
  let s := (s.setNext add head).setPrev add none
  match head with
  | some h => s.setPrev h (some add)
  | none => s

/-- The node is linked behind the last one. -/
def pushBack (s : Links ν) (tail add : ν) : Links ν :=
  ((s.setNext add none).setNext tail (some add)).setPrev add (some tail)

/-- The nodes at both sides of one are linked to each other. -/
def unlink (s : Links ν) (del : ν) : Links ν :=
  let s := match s.prev del with
    | some p => s.setNext p (s.next del)
    | none => s
  match s.next del with
  | some n => s.setPrev n (s.prev del)
  | none => s

end Writes

/-! ## The two walks -/

structure Linked (s : Links ν) (head last : Option ν) (l : List ν) : Prop where
  forward : Chain s.next head l
  backward : Chain s.prev last l.reverse

variable {s s' : Links ν} {head last : Option ν} {l x y : List ν} {a add del tail : ν}

theorem chain_head {next : ν → Option ν} (h : Chain next head l) : head = l.head? := by
  cases h <;> rfl

/-- Behind a node the walk goes on from its link. -/
theorem chain_behind {next : ν → Option ν} (h : Chain next head (x ++ a :: y)) : Chain next (next a) y := by
  induction x generalizing head with
  | nil =>
    cases h with
    | cons h => exact h
  | cons b x ih =>
    cases h with
    | cons h => exact ih h

theorem linked_nil : Linked s none none [] := ⟨.nil, .nil⟩

theorem Linked.nodup (h : Linked s head last l) : l.Nodup := h.forward.nodup

theorem Linked.congr (h : Linked s head last l) (hl : ∀ a ∈ l, s'.prev a = s.prev a ∧ s'.next a = s.next a) :
    Linked s' head last l :=
  ⟨h.forward.congr fun a ha => (hl a ha).2, h.backward.congr fun a ha => (hl a (List.mem_reverse.mp ha)).1⟩

/-- The links of a node of the list. -/
theorem Linked.around (h : Linked s head last (x ++ a :: y)) : s.prev a = x.getLast? ∧ s.next a = y.head? := by
  refine ⟨?_, chain_head (chain_behind h.forward)⟩
  have hback : Chain s.prev last (y.reverse ++ a :: x.reverse) := by simpa using h.backward
  rw [chain_head (chain_behind hback), List.head?_reverse]

theorem Linked.not_self (h : Linked s head last (x ++ a :: y)) : s.prev a ≠ some a := by
  intro hself
  have hmem : a ∈ x := List.mem_of_getLast? (h.around.1.symm.trans hself)
  exact (List.nodup_append.mp h.nodup).2.2 a hmem a List.mem_cons_self rfl

/-! ## The operations -/

variable [DecidableEq ν]

theorem Linked.pushFront (h : Linked s head last l) (hadd : add ∉ l) :
    ∃ last', Linked (pushFront s head add) (some add) last' (add :: l) := by
  have hnext : Chain (Function.update s.next add head) (some add) (add :: l) := by
    refine .cons ?_
    rw [Function.update_self]
    exact h.forward.congr fun b hb => Function.update_of_ne (ne_of_mem_of_not_mem hb hadd) ..
  have hprev : Chain (Function.update s.prev add none) last l.reverse :=
    h.backward.congr fun b hb => Function.update_of_ne (ne_of_mem_of_not_mem (List.mem_reverse.mp hb) hadd) ..
  have hnone : Function.update s.prev add none add = none := Function.update_self ..
  cases l with
  | nil =>
    obtain rfl : head = none := chain_head h.forward
    refine ⟨some add, hnext, .cons ?_⟩
    show Chain (Function.update s.prev add none) (Function.update s.prev add none add) []
    rw [hnone]
    exact .nil
  | cons b l =>
    obtain rfl : head = some b := chain_head h.forward
    refine ⟨last, hnext, ?_⟩
    rw [List.reverse_cons] at hprev
    have hback : add ∉ l.reverse ++ [b] := by simpa [or_comm] using hadd
    rw [List.reverse_cons, List.reverse_cons]
    exact hprev.link hnone hback

/-- Of the links outside its list `pushFront` writes those of the new node. -/
theorem Linked.pushFront_frame (h : Linked s head last l) (ha : a ∉ l) (hne : a ≠ add) :
    (DoublyLinked.pushFront s head add).prev a = s.prev a ∧ (DoublyLinked.pushFront s head add).next a = s.next a := by
  refine ⟨?_, ?_⟩
  · cases head with
    | none => exact Function.update_of_ne hne ..
    | some b =>
      have hb : a ≠ b := by
        intro hab
        obtain ⟨l', rfl⟩ : ∃ l', l = b :: l' := List.head?_eq_some_iff.mp (chain_head h.forward).symm
        exact ha (hab ▸ List.mem_cons_self)
      exact (Function.update_of_ne hb ..).trans (Function.update_of_ne hne ..)
  · cases head <;> exact Function.update_of_ne hne ..

theorem pushFront_next (hne : a ≠ add) : (pushFront s head add).next a = s.next a := by
  cases head <;> exact Function.update_of_ne hne ..

theorem Linked.pushBack (h : Linked s head (some tail) l) (hadd : add ∉ l) :
    Linked (pushBack s tail add) head (some add) (l ++ [add]) := by
  have hnext : Chain (Function.update s.next add none) head l :=
    h.forward.congr fun b hb => Function.update_of_ne (ne_of_mem_of_not_mem hb hadd) ..
  obtain ⟨r, rfl⟩ : ∃ r, l = r ++ [tail] := by
    have hlast := (chain_head h.backward).symm
    rw [List.head?_reverse] at hlast
    exact List.getLast?_eq_some_iff.mp hlast
  refine ⟨hnext.link (Function.update_self ..) hadd, ?_⟩
  rw [List.reverse_append, List.reverse_singleton, List.singleton_append]
  refine .cons ?_
  show Chain (Function.update s.prev add (some tail)) (Function.update s.prev add (some tail) add) _
  rw [Function.update_self]
  exact h.backward.congr fun b hb => Function.update_of_ne (ne_of_mem_of_not_mem (List.mem_reverse.mp hb) hadd) ..

/-- What `unlink` writes, for a node that is not its own neighbour. -/
theorem unlink_links (hp : s.prev del ≠ some del) :
    (unlink s del).next = (match s.prev del with
      | some p => Function.update s.next p (s.next del)
      | none => s.next) ∧
    (unlink s del).prev = match s.next del with
      | some n => Function.update s.prev n (s.prev del)
      | none => s.prev := by
  unfold unlink
  cases hprev : s.prev del with
  | none =>
    dsimp only
    cases hnext : s.next del with
    | none => exact ⟨rfl, rfl⟩
    | some n => exact ⟨rfl, by rw [← hprev]; rfl⟩
  | some p =>
    have hne : del ≠ p := fun e => hp (by rw [hprev, e])
    have hkeep : (s.setNext p (s.next del)).next del = s.next del := Function.update_of_ne hne ..
    dsimp only
    rw [hkeep]
    cases hnext : s.next del with
    | none => exact ⟨rfl, rfl⟩
    | some n => exact ⟨rfl, by rw [← hprev]; rfl⟩

/-- The walk in one direction, past a node that is linked past. -/
theorem chain_past {next : ν → Option ν} (h : Chain next head (x ++ del :: y)) :
    Chain (match x.getLast? with
      | some p => Function.update next p (next del)
      | none => next) (if x = [] then next del else head) (x ++ y) := by
  cases hx : x.getLast? with
  | none =>
    obtain rfl := List.getLast?_eq_none_iff.mp hx
    exact chain_behind h
  | some p =>
    obtain ⟨r, rfl⟩ := List.getLast?_eq_some_iff.mp hx
    rw [if_neg (by simp), List.append_assoc, List.singleton_append]
    rw [List.append_assoc, List.singleton_append] at h
    exact h.unlink

theorem Linked.unlink (h : Linked s head last (x ++ del :: y)) :
    Linked (unlink s del) (if x = [] then s.next del else head) (if y = [] then s.prev del else last) (x ++ y) := by
  obtain ⟨hprev, hnext⟩ := h.around
  obtain ⟨hn, hp⟩ := unlink_links h.not_self
  have hforward := chain_past h.forward
  have hbackward : Chain s.prev last (y.reverse ++ del :: x.reverse) := by simpa using h.backward
  have hback := chain_past hbackward
  rw [← hprev] at hforward
  rw [List.getLast?_reverse, ← hnext] at hback
  refine ⟨by rw [hn]; exact hforward, ?_⟩
  rw [hp, List.reverse_append]
  simpa only [List.reverse_eq_nil_iff] using hback

theorem Linked.unlink_frame (h : Linked s head last (x ++ del :: y)) (ha : a ∉ x ++ del :: y) :
    (DoublyLinked.unlink s del).prev a = s.prev a ∧ (DoublyLinked.unlink s del).next a = s.next a := by
  obtain ⟨hprev, hnext⟩ := h.around
  obtain ⟨hn, hp⟩ := unlink_links h.not_self
  refine ⟨?_, ?_⟩
  · rw [hp]
    cases hn : s.next del with
    | none => rfl
    | some n =>
      have hmem : n ∈ y := List.mem_of_mem_head? (hnext.symm.trans hn)
      have hin : n ∈ x ++ del :: y := List.mem_append_right x (List.mem_cons_of_mem del hmem)
      exact Function.update_of_ne (ne_of_mem_of_not_mem hin ha).symm ..
  · rw [hn]
    cases hp : s.prev del with
    | none => rfl
    | some p =>
      have hmem : p ∈ x := List.mem_of_getLast? (hprev.symm.trans hp)
      have hin : p ∈ x ++ del :: y := List.mem_append_left _ hmem
      exact Function.update_of_ne (ne_of_mem_of_not_mem hin ha).symm ..

end Ddm.Lib.DoublyLinked
