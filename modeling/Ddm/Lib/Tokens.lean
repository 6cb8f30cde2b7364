/-
  Ddm.Lib.Tokens — `strtok_r` with one separator, on a string in memory.

  A call skips separators, ends the token it finds with a NUL written over the separator
  behind it, and leaves the place where the next call goes on.

  Proved: what one call does to a text still to be read (`strtokR_spec`): nothing is left
  of it, or the first of its non-empty parts is the token and the others are left.
-/

import Ddm.Lib.Memory

namespace Ddm.Lib

variable {sep : UInt8}

/-- The non-empty parts between separators. -/
def parts (sep : UInt8) (s : Bytes) : List Bytes := (s.splitOn sep).filter (· ≠ [])

theorem parts_nil : parts sep [] = [] := rfl

theorem parts_sep (s : Bytes) : parts sep (sep :: s) = parts sep s := by
  have h := List.splitOn_append_cons_self_of_not_mem (List.not_mem_nil (a := sep)) s
  rw [List.nil_append] at h
  rw [parts, h, List.filter_cons_of_neg (by simp)]
  rfl

theorem parts_token {token : Bytes} (hne : token ≠ []) (h : sep ∉ token) (s : Bytes) :
    parts sep (token ++ sep :: s) = token :: parts sep s := by
  rw [parts, List.splitOn_append_cons_self_of_not_mem h, List.filter_cons_of_pos (by simpa using hne)]
  rfl

theorem parts_last {token : Bytes} (hne : token ≠ []) (h : sep ∉ token) : parts sep token = [token] := by
  rw [parts, List.splitOn_eq_singleton h, List.filter_cons_of_pos (by simpa using hne), List.filter_nil]

theorem parts_skip (s : Bytes) : parts sep (s.dropWhile (· == sep)) = parts sep s := by
  induction s with
  | nil => rfl
  | cons c s ih =>
    rw [List.dropWhile_cons]
    split
    · rename_i hc
      rw [ih, eq_of_beq hc, parts_sep]
    · rfl

/-! ## One call -/

/-- The token's place, if there is one, the place to go on from, and the memory. -/
def strtokR (sep : UInt8) (mem : Bytes) (i : Nat) : Option (Option Nat × Nat × Bytes) := do
  let s ← stringAt mem i
  let begin := i + (s.takeWhile (· == sep)).length
  let s := s.dropWhile (· == sep)
  if s = [] then some (none, begin, mem)
  else
    let token := s.takeWhile (· != sep)
    if token.length = s.length then some (some begin, begin + token.length, mem)
    else
      let mem ← writeAt mem (begin + token.length : Nat) [0]
      some (some begin, begin + token.length + 1, mem)

/-- A NUL over the separator: the token is a string, and the text behind it is pending. -/
theorem Pending.cut {mem token rest : Bytes} {i : Nat} (h : Pending mem i (token ++ sep :: rest)) :
    ∃ mem', writeAt mem (i + token.length : Nat) [0] = some mem' ∧ Lib.stringAt mem' i = some token ∧
      Pending mem' (i + token.length + 1) rest := by
  have htoken : 0 ∉ token := fun h0 => h.noNul (List.mem_append_left _ h0)
  have hrest : 0 ∉ rest := fun h0 => h.noNul (List.mem_append_right _ (List.mem_cons_of_mem _ h0))
  obtain ⟨before, after, hmem, rfl⟩ := h.text
  have hsplit : mem = before ++ token ++ (sep :: (rest ++ 0 :: after)) := by
    rw [hmem]
    simp only [List.append_assoc, List.cons_append]
  have hwrite : writeAt mem (before.length + token.length : Nat) [0] =
      some (before ++ (token ++ 0 :: (rest ++ 0 :: after))) := by
    rw [hsplit, writeAt_append (by rw [List.length_append]) (by simp)]
    simp
  refine ⟨_, hwrite, stringAt_append htoken rfl, hrest, before ++ token ++ [0], after, ?_, ?_⟩
  · simp only [List.append_assoc, List.cons_append, List.nil_append]
  · simp only [List.length_append, List.length_singleton]

/-- What one call finds. -/
inductive Token (sep : UInt8) (mem s : Bytes) : Option Nat × Nat × Bytes → Prop
  | none {i : Nat} : parts sep s = [] → Token sep mem s (none, i, mem)
  | some {begin i : Nat} {mem' token rest : Bytes} : parts sep s = token :: parts sep rest →
      Lib.stringAt mem' begin = some token → Pending mem' i rest → mem'.length = mem.length →
      rest.length < s.length → Token sep mem s (some begin, i, mem')

theorem strtokR_spec {mem s : Bytes} {i : Nat} (h : Pending mem i s) :
    ∃ found, strtokR sep mem i = some found ∧ Token sep mem s found := by
  have hskip : Pending mem (i + (s.takeWhile (· == sep)).length) (s.dropWhile (· == sep)) :=
    Pending.drop (by rwa [List.takeWhile_append_dropWhile])
  have hlen : (s.dropWhile (· == sep)).length ≤ s.length := (List.dropWhile_sublist _).length_le
  have hparts : parts sep (s.dropWhile (· == sep)) = parts sep s := parts_skip s
  have hhead : ∀ c t, s.dropWhile (· == sep) = c :: t → c ≠ sep := fun c t hc => by
    have := List.head?_dropWhile_not (· == sep) s
    rw [hc] at this
    simpa using this
  rw [strtokR, h.stringAt]
  simp only [Option.bind_eq_bind, Option.bind_some]
  generalize i + (s.takeWhile (· == sep)).length = begin at hskip ⊢
  generalize s.dropWhile (· == sep) = text at hskip hlen hparts hhead ⊢
  by_cases hempty : text = []
  · rw [if_pos hempty]
    exact ⟨_, rfl, .none (by rw [← hparts, hempty, parts_nil])⟩
  · rw [if_neg hempty]
    have hsplit := List.takeWhile_append_dropWhile (p := (· != sep)) (l := text)
    have hsep : sep ∉ text.takeWhile (· != sep) := fun hm => by simpa using List.mem_takeWhile_imp hm
    have hne : text.takeWhile (· != sep) ≠ [] := by
      obtain ⟨c, t, rfl⟩ := List.exists_cons_of_ne_nil hempty
      rw [List.takeWhile_cons_of_pos (by simpa using hhead c t rfl)]
      exact List.cons_ne_nil _ _
    cases hrest : text.dropWhile (· != sep) with
    | nil =>
      -- the token ends with the text
      rw [hrest, List.append_nil] at hsplit
      rw [hsplit] at hsep ⊢
      rw [if_pos rfl]
      refine ⟨_, rfl, .some (show parts sep s = text :: parts sep [] from ?_) hskip.stringAt ?_ rfl ?_⟩
      · rw [← hparts, parts_last hempty hsep, parts_nil]
      · exact Pending.drop (by rwa [List.append_nil])
      · have := List.length_pos_iff.mpr hempty
        simp only [List.length_nil]
        omega
    | cons c rest =>
      obtain rfl : c = sep := by
        have := List.head?_dropWhile_not (· != sep) text
        rw [hrest] at this
        simpa using this
      rw [hrest] at hsplit
      generalize text.takeWhile (· != c) = token at hsep hne hsplit ⊢
      subst hsplit
      obtain ⟨mem', hwrite, htoken, hpending⟩ := hskip.cut
      rw [if_neg (by simp), hwrite]
      refine ⟨_, rfl, .some ?_ htoken hpending (length_writeAt hwrite) ?_⟩
      · rw [← hparts, parts_token hne hsep]
      · rw [List.length_append, List.length_cons] at hlen
        omega

end Ddm.Lib
