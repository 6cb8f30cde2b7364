/-
  Ddm.Lib.Scanf — `sscanf` with scan sets, and texts without the blanks around them.

  A format is a list of directives. A set stores the longest run of its characters and
  fails on an empty one; a blank in the format passes any blanks; anything else stands for
  itself. What has been stored when a directive fails stays stored: the result is that
  list, and its length is what the function returns.

  Proved: what each directive does to a text that is put together from a run and what
  does not go on with it (`sscanf_set`, `sscanf_blank`), and that the blanks around a text
  do not matter to `strip` (`strip_around`).
-/

import Mathlib.Data.List.DropRight

namespace Ddm.Lib.Scanf

variable {α : Type} [DecidableEq α]

inductive Directive (α : Type) where
  | set (p : α → Bool)
  | blank
  | literal (c : α)

/-- `space` says which characters are blank. -/
def sscanf (space : α → Bool) : List (Directive α) → List α → List (List α)
  | [], _ => []
  | .set p :: format, s =>
    if s.takeWhile p = [] then [] else s.takeWhile p :: sscanf space format (s.dropWhile p)
  | .blank :: format, s => sscanf space format (s.dropWhile space)
  | .literal _ :: _, [] => []
  | .literal c :: format, d :: s => if d = c then sscanf space format s else []

/-- `s` without the blanks at its ends. -/
def strip (space : α → Bool) (s : List α) : List α := (s.dropWhile space).rdropWhile space

variable {space p : α → Bool}

/-! ## Runs -/

/-- No character of `s` in front satisfies `p`. -/
def Stops (p : α → Bool) (s : List α) : Prop := ∀ c ∈ s.head?, p c = false

instance (p : α → Bool) (s : List α) : Decidable (Stops p s) := inferInstanceAs (Decidable (∀ c ∈ s.head?, p c = false))

omit [DecidableEq α] in
theorem Stops.nil : Stops p ([] : List α) := fun _ h => by cases h

omit [DecidableEq α] in
theorem Stops.cons {c : α} (h : p c = false) (s : List α) : Stops p (c :: s) := by
  intro d hd
  obtain rfl := Option.some.inj hd
  exact h

omit [DecidableEq α] in
theorem dropWhile_stops {s : List α} (h : Stops p s) : s.dropWhile p = s := by
  cases s with
  | nil => rfl
  | cons c s => exact List.dropWhile_cons_of_neg (by rw [h c rfl]; exact Bool.false_ne_true)

omit [DecidableEq α] in
theorem takeWhile_stops {s : List α} (h : Stops p s) : s.takeWhile p = [] := by
  cases s with
  | nil => rfl
  | cons c s => exact List.takeWhile_cons_of_neg (by rw [h c rfl]; exact Bool.false_ne_true)

omit [DecidableEq α] in
theorem dropWhile_run {w s : List α} (hw : ∀ c ∈ w, p c = true) (hs : Stops p s) : (w ++ s).dropWhile p = s := by
  rw [List.dropWhile_append_of_pos hw, dropWhile_stops hs]

omit [DecidableEq α] in
theorem takeWhile_run {w s : List α} (hw : ∀ c ∈ w, p c = true) (hs : Stops p s) : (w ++ s).takeWhile p = w := by
  rw [List.takeWhile_append_of_pos hw, takeWhile_stops hs, List.append_nil]

/-! ## Directives -/

theorem sscanf_set {w s : List α} (format : List (Directive α)) (hne : w ≠ []) (hw : ∀ c ∈ w, p c = true)
    (hs : Stops p s) : sscanf space (.set p :: format) (w ++ s) = w :: sscanf space format s := by
  rw [sscanf, takeWhile_run hw hs, dropWhile_run hw hs, if_neg hne]

theorem sscanf_set_stops {s : List α} (format : List (Directive α)) (hs : Stops p s) :
    sscanf space (.set p :: format) s = [] := by
  rw [sscanf, takeWhile_stops hs, if_pos rfl]

theorem sscanf_blank {w s : List α} (format : List (Directive α)) (hw : ∀ c ∈ w, space c = true)
    (hs : Stops space s) : sscanf space (.blank :: format) (w ++ s) = sscanf space format s := by
  rw [sscanf, dropWhile_run hw hs]

theorem sscanf_literal (c : α) (s : List α) (format : List (Directive α)) :
    sscanf space (.literal c :: format) (c :: s) = sscanf space format s := by
  rw [sscanf, if_pos rfl]

theorem sscanf_literal_stops {c : α} {s : List α} (format : List (Directive α)) (h : Stops (· == c) s) :
    sscanf space (.literal c :: format) s = [] := by
  cases s with
  | nil => rfl
  | cons d s =>
    have hne : d ≠ c := by simpa using h d rfl
    rw [sscanf, if_neg hne]

/-! ## Blanks around a text -/

/-- A text `strip` leaves as it is. -/
def Stripped (space : α → Bool) (s : List α) : Prop := Stops space s ∧ Stops space s.reverse

omit [DecidableEq α] in
theorem rdropWhile_run {w s : List α} (hw : ∀ c ∈ w, p c = true) (hs : Stops p s.reverse) :
    (s ++ w).rdropWhile p = s := by
  rw [List.rdropWhile, List.reverse_append, dropWhile_run (fun c hc => hw c (List.mem_reverse.mp hc)) hs,
    List.reverse_reverse]

omit [DecidableEq α] in
theorem rdropWhile_keep {c : α} (hc : p c = false) (x t : List α) :
    (x ++ c :: t).rdropWhile p = x ++ c :: t.rdropWhile p := by
  have hstop : Stops p (c :: x.reverse) := .cons hc _
  simp only [List.rdropWhile, List.reverse_append, List.reverse_cons, List.append_assoc, List.singleton_append]
  rw [List.dropWhile_append, dropWhile_stops hstop]
  split
  case isTrue hnil =>
    rw [List.isEmpty_iff.mp hnil]
    simp
  case isFalse => simp

omit [DecidableEq α] in
theorem strip_around {w s w' : List α} (hw : ∀ c ∈ w, space c = true) (hw' : ∀ c ∈ w', space c = true)
    (hs : Stripped space s) : strip space (w ++ (s ++ w')) = s := by
  unfold strip
  rw [List.dropWhile_append_of_pos hw]
  cases s with
  | nil =>
    have hnil : w'.dropWhile space = [] := List.dropWhile_eq_nil_iff.mpr hw'
    rw [List.nil_append, hnil]
    rfl
  | cons c s =>
    have hfirst : Stops space (c :: (s ++ w')) := .cons (hs.1 c rfl) _
    rw [List.cons_append, dropWhile_stops hfirst, ← List.cons_append, rdropWhile_run hw' hs.2]

omit [DecidableEq α] in
theorem strip_append {w : List α} (s : List α) (hw : ∀ c ∈ w, space c = true) : strip space (s ++ w) = strip space s := by
  unfold strip
  rw [List.dropWhile_append]
  split
  case isTrue hnil =>
    rw [List.isEmpty_iff.mp hnil, List.dropWhile_eq_nil_iff.mpr hw]
  case isFalse =>
    simp only [List.rdropWhile, List.reverse_append]
    rw [List.dropWhile_append_of_pos fun c hc => hw c (List.mem_reverse.mp hc)]

omit [DecidableEq α] in
theorem strip_stripped {s : List α} (hs : Stripped space s) : strip space s = s := by
  have : strip space ([] ++ (s ++ [])) = s :=
    strip_around (fun _ h => absurd h List.not_mem_nil) (fun _ h => absurd h List.not_mem_nil) hs
  rwa [List.nil_append, List.append_nil] at this

end Ddm.Lib.Scanf
