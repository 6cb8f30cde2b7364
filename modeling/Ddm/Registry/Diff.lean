/-
  Ddm.Registry.Diff — `diff_register_info` on arrays in memory.

  `ServiceConf.diffRegisterInfo` gives the lists; here the arrays have addresses, as in
  the source: records are pushed onto a new array and their status is set there in place.
  The five compared fields of a record are `plain`.

  Proved: what the loops leave in memory is what the lists' version says
  (`diffArrays_spec`), the four branches are one (`diff_branches`), and the result is a
  patch from left to right that leaves both as they were (`diff_is_patch`).
-/

import Mathlib.Data.List.ModifyLast
import Ddm.Registry.ServiceConf

namespace Ddm.Registry.Diff

open Ddm.Lib

/-! ## Arrays in memory -/

/-- The arrays `malloc` and `utarray_new` gave, by address. -/
structure Arrays where
  data : Nat → RegisterInfoArray
  next : Nat

/-- `utarray_push_back(array, p)`, which copies `*p`, then `utarray_back(array)->status = status`. -/
def pushMarked (status : Int) (array : RegisterInfoArray) (p : RegisterInfo) : RegisterInfoArray :=
  (array ++ [p]).modifyLast fun tmp => { tmp with status := status }

/-- The loops over one array that push what `keep` picks onto another, which they do not
    read. -/
def pushLoop (m : Arrays) (src dest : Nat) (status : Int) (keep : RegisterInfo → Bool) : Arrays :=
  let pushed := (m.data src).foldl (fun array p => if keep p then pushMarked status array p else array) (m.data dest)
  { m with data := Function.update m.data dest pushed }

/-- `copy_register_info` -/
def copyArray (m : Arrays) (src dest : Nat) (status : Int) : Arrays := pushLoop m src dest status fun _ => true

/-- `malloc` and `utarray_new`: an empty array at `m.next`. -/
def newArray (m : Arrays) : Arrays := ⟨Function.update m.data m.next [], m.next + 1⟩

/-- The two loops of the general branch. -/
def diffLoops (m : Arrays) (left right result : Nat) : Arrays :=
  let m := pushLoop m left result (-1) fun p => !findRegisterInfo (m.data right) p
  pushLoop m right result 1 fun p => !findRegisterInfo (m.data left) p

/-- `diff_register_info`; the address of the result, `none` for NULL. -/
def diffArrays (m : Arrays) (leftArray rightArray : Option Nat) : Option Nat × Arrays :=
  match leftArray, rightArray with
  | none, none => (none, m)
  | some left, none => (some m.next, copyArray (newArray m) left m.next (-1))
  | none, some right => (some m.next, copyArray (newArray m) right m.next 1)
  | some left, some right => (some m.next, diffLoops (newArray m) left right m.next)

/-- What a pointer to an array points to. -/
def Arrays.deref (m : Arrays) (array : Option Nat) : Option RegisterInfoArray := array.map m.data

/-! ## The five fields -/

/-- A record without its status. -/
def plain (r : RegisterInfo) : RegisterInfo := { r with status := 0 }

theorem sameInfo_plain {p r : RegisterInfo} : sameInfo p r = true ↔ plain p = plain r := by
  have : sameInfo p r = sameInfo (plain p) (plain r) := rfl
  rw [this]
  exact sameInfo_iff rfl

theorem findRegisterInfo_plain {l : RegisterInfoArray} {r : RegisterInfo} :
    findRegisterInfo l r = true ↔ plain r ∈ l.map plain := by
  simp only [findRegisterInfo, List.any_eq_true, sameInfo_plain, List.mem_map]

theorem plain_marked (status : Int) (l : List RegisterInfo) : (marked status l).map plain = l.map plain := by
  rw [marked, List.map_map]
  rfl

/-- The records of `l` that the other list lacks. -/
def absent (l other : RegisterInfoArray) : RegisterInfoArray := l.filter fun p => !findRegisterInfo other p

theorem mem_absent {l other : RegisterInfoArray} {x : RegisterInfo} :
    x ∈ (absent l other).map plain ↔ x ∈ l.map plain ∧ x ∉ other.map plain := by
  simp only [absent, List.mem_map, List.mem_filter, Bool.not_eq_true', Bool.eq_false_iff, ne_eq, findRegisterInfo_plain]
  constructor
  · intro h
    obtain ⟨p, ⟨hp, hn⟩, rfl⟩ := h
    exact ⟨⟨p, hp, rfl⟩, hn⟩
  · intro h
    obtain ⟨⟨p, hp, rfl⟩, hn⟩ := h
    exact ⟨p, ⟨hp, hn⟩, rfl⟩

/-! ## The loops -/

theorem pushMarked_eq (status : Int) (array : RegisterInfoArray) (p : RegisterInfo) :
    pushMarked status array p = array ++ [{ p with status := status }] :=
  List.modifyLast_concat _ p array

theorem pushLoop_data (status : Int) (keep : RegisterInfo → Bool) (l array : RegisterInfoArray) :
    l.foldl (fun array p => if keep p then pushMarked status array p else array) array =
      array ++ marked status (l.filter keep) := by
  induction l generalizing array with
  | nil => exact (List.append_nil _).symm
  | cons p l ih =>
    rw [List.foldl_cons, ih]
    by_cases hk : keep p = true
    · rw [if_pos hk, pushMarked_eq, List.filter_cons_of_pos hk, List.append_assoc]
      rfl
    · rw [if_neg hk, List.filter_cons_of_neg hk]

/-- Both loops of the general branch, or one with NULL for the other side. -/
def patch (left right : RegisterInfoArray) : RegisterInfoArray :=
  marked (-1) (absent left right) ++ marked 1 (absent right left)

theorem diff_branches (left right : Option RegisterInfoArray) : diffRegisterInfo left right =
    if left = none ∧ right = none then none else some (patch (left.getD []) (right.getD [])) := by
  have hall : ∀ l : RegisterInfoArray, absent l [] = l := fun l => List.filter_eq_self.mpr fun p _ => rfl
  have hnil : ∀ l : RegisterInfoArray, absent [] l = [] := fun _ => rfl
  cases left with
  | none =>
    cases right with
    | none => rfl
    | some r => simp [diffRegisterInfo, copyRegisterInfo, patch, hall, hnil, marked]
  | some l =>
    cases right with
    | none => simp [diffRegisterInfo, copyRegisterInfo, patch, hall, hnil, marked]
    | some r => simp [diffRegisterInfo, copyRegisterInfo, patch, absent, marked]

/-! ## What is left in memory -/

theorem pushLoop_spec (m : Arrays) (src dest : Nat) (status : Int) (keep : RegisterInfo → Bool) :
    (pushLoop m src dest status keep).data dest = m.data dest ++ marked status ((m.data src).filter keep) ∧
      ∀ a, a ≠ dest → (pushLoop m src dest status keep).data a = m.data a := by
  constructor
  · simp only [pushLoop, Function.update_self, pushLoop_data]
  · intro a ha
    exact Function.update_of_ne ha ..

theorem newArray_spec (m : Arrays) :
    (newArray m).data m.next = [] ∧ ∀ a < m.next, (newArray m).data a = m.data a :=
  ⟨Function.update_self .., fun _ ha => Function.update_of_ne (Nat.ne_of_lt ha) ..⟩

/-- The second loop reads the left array as it was, the first having written to another. -/
theorem diffLoops_spec {m : Arrays} {left right result : Nat} (hl : left ≠ result) (hr : right ≠ result) :
    (diffLoops m left right result).data result = m.data result ++ patch (m.data left) (m.data right) ∧
      ∀ a, a ≠ result → (diffLoops m left right result).data a = m.data a := by
  obtain ⟨hd₁, ho₁⟩ := pushLoop_spec m left result (-1) fun p => !findRegisterInfo (m.data right) p
  obtain ⟨hd₂, ho₂⟩ := pushLoop_spec (pushLoop m left result (-1) fun p => !findRegisterInfo (m.data right) p) right
    result 1
    fun p => !findRegisterInfo ((pushLoop m left result (-1) fun p => !findRegisterInfo (m.data right) p).data left) p
  refine ⟨hd₂.trans ?_, fun a ha => (ho₂ a ha).trans (ho₁ a ha)⟩
  rw [hd₁, ho₁ right hr, ho₁ left hl, List.append_assoc]
  rfl

/-- A new array with the lists' result; every array there was is as before. -/
theorem diffArrays_spec {m : Arrays} {left right : Option Nat} (hl : ∀ a ∈ left, a < m.next)
    (hr : ∀ a ∈ right, a < m.next) :
    (diffArrays m left right).2.deref (diffArrays m left right).1 = diffRegisterInfo (m.deref left) (m.deref right) ∧
      ∀ a < m.next, (diffArrays m left right).2.data a = m.data a := by
  obtain ⟨hnew, hold⟩ := newArray_spec m
  have hcopy : ∀ src status, src < m.next →
      (copyArray (newArray m) src m.next status).data m.next = marked status (m.data src) ∧
        ∀ a < m.next, (copyArray (newArray m) src m.next status).data a = m.data a := by
    intro src status hs
    obtain ⟨hd, ho⟩ := pushLoop_spec (newArray m) src m.next status fun _ => true
    refine ⟨hd.trans ?_, fun a ha => (ho a (Nat.ne_of_lt ha)).trans (hold a ha)⟩
    rw [hnew, hold src hs, List.filter_true, List.nil_append]
  rw [diff_branches]
  cases left with
  | none =>
    cases right with
    | none => exact ⟨rfl, fun _ _ => rfl⟩
    | some r =>
      obtain ⟨hd, ho⟩ := hcopy r 1 (hr r rfl)
      exact ⟨(congrArg some hd).trans (diff_branches none (some (m.data r))), ho⟩
  | some l =>
    cases right with
    | none =>
      obtain ⟨hd, ho⟩ := hcopy l (-1) (hl l rfl)
      exact ⟨(congrArg some hd).trans (diff_branches (some (m.data l)) none), ho⟩
    | some r =>
      have hlt := hl l rfl
      have hrt := hr r rfl
      obtain ⟨hd, ho⟩ := diffLoops_spec (m := newArray m) (Nat.ne_of_lt hlt) (Nat.ne_of_lt hrt)
      refine ⟨congrArg some (hd.trans ?_), fun a ha => (ho a (Nat.ne_of_lt ha)).trans (hold a ha)⟩
      rw [hnew, hold l hlt, hold r hrt]
      rfl

/-! ## The patch -/

/-- No record twice, whatever the status fields say. -/
def DuplicateFree (l : RegisterInfoArray) : Prop := (l.map plain).Nodup

/-- Take the records of status -1 out of `left` and put those of status 1 in. -/
def applyPatch (left diff : RegisterInfoArray) : RegisterInfoArray :=
  (left.filter fun p => !findRegisterInfo (diff.filter (·.status = -1)) p) ++ diff.filter (·.status = 1)

theorem marked_filter (status status' : Int) (l : List RegisterInfo) :
    (marked status l).filter (·.status = status') = if status = status' then marked status l else [] := by
  by_cases hs : status = status'
  · rw [if_pos hs]
    refine List.filter_eq_self.mpr fun p hp => ?_
    obtain ⟨q, -, rfl⟩ := List.mem_map.mp hp
    exact decide_eq_true hs
  · rw [if_neg hs]
    refine List.filter_eq_nil_iff.mpr fun p hp => ?_
    obtain ⟨q, -, rfl⟩ := List.mem_map.mp hp
    simpa using hs

theorem patch_duplicateFree {left right : RegisterInfoArray} (hl : DuplicateFree left) (hr : DuplicateFree right) :
    DuplicateFree (patch left right) := by
  have hsub : ∀ l other : RegisterInfoArray, DuplicateFree l → DuplicateFree (absent l other) := fun l other h =>
    h.sublist (List.filter_sublist.map plain)
  rw [DuplicateFree, patch, List.map_append, plain_marked, plain_marked]
  refine List.nodup_append.mpr ⟨hsub _ _ hl, hsub _ _ hr, fun x hx y hy e => ?_⟩
  exact (mem_absent.mp hx).2 (e ▸ (mem_absent.mp hy).1)

/-- The patched left is the right, as sets of records. -/
theorem mem_applyPatch (left right : RegisterInfoArray) (x : RegisterInfo) :
    x ∈ (applyPatch left (patch left right)).map plain ↔ x ∈ right.map plain := by
  have hm : (patch left right).filter (·.status = -1) = marked (-1) (absent left right) := by
    rw [patch, List.filter_append, marked_filter, marked_filter, if_pos rfl, if_neg (by decide), List.append_nil]
  have hp : (patch left right).filter (·.status = 1) = marked 1 (absent right left) := by
    rw [patch, List.filter_append, marked_filter, marked_filter, if_neg (by decide), if_pos rfl, List.nil_append]
  have hkeep : x ∈ (absent left (marked (-1) (absent left right))).map plain ↔
      x ∈ left.map plain ∧ x ∈ right.map plain := by
    rw [mem_absent, plain_marked, mem_absent]
    exact and_congr_right fun h => by rw [not_and_not_right]; exact ⟨fun h' => h' h, fun h' _ => h'⟩
  rw [applyPatch, hm, hp, List.map_append, List.mem_append, plain_marked, mem_absent]
  rw [show (left.filter fun p => !findRegisterInfo (marked (-1) (absent left right)) p) =
    absent left (marked (-1) (absent left right)) from rfl, hkeep, and_comm, ← and_or_left]
  exact and_iff_left (em _)

/-- The result is NULL for two NULLs and else a new array: first the left records that
    right lacks, then the right ones that left lacks, each list in order. It is what the
    general branch gives on arrays with these contents. -/
theorem diff_is_patch {m : Arrays} {leftArray rightArray : Option Nat} (hl : ∀ a ∈ leftArray, a < m.next)
    (hr : ∀ a ∈ rightArray, a < m.next) {left right : RegisterInfoArray}
    (hleft : left = (m.deref leftArray).getD []) (hright : right = (m.deref rightArray).getD [])
    (hdl : DuplicateFree left) (hdr : DuplicateFree right) :
    ((diffArrays m leftArray rightArray).1 = none ↔ leftArray = none ∧ rightArray = none) ∧
      (∀ diff, (diffArrays m leftArray rightArray).2.deref (diffArrays m leftArray rightArray).1 = some diff →
        diff = marked (-1) (absent left right) ++ marked 1 (absent right left) ∧ DuplicateFree diff ∧
          (∀ x, x ∈ (applyPatch left diff).map plain ↔ x ∈ right.map plain) ∧
          ∀ a < m.next, ∀ b < m.next, m.data a = left → m.data b = right →
            (diffArrays m (some a) (some b)).2.deref (diffArrays m (some a) (some b)).1 = some diff) ∧
      ∀ a < m.next, (diffArrays m leftArray rightArray).2.data a = m.data a := by
  obtain ⟨hval, hframe⟩ := diffArrays_spec hl hr
  have hnull : (diffArrays m leftArray rightArray).1 = none ↔ leftArray = none ∧ rightArray = none := by
    cases leftArray with
    | none =>
      cases rightArray with
      | none => exact iff_of_true rfl ⟨rfl, rfl⟩
      | some r => exact iff_of_false (Option.some_ne_none _) fun h => Option.some_ne_none r h.2
    | some l =>
      cases rightArray with
      | none => exact iff_of_false (Option.some_ne_none _) fun h => Option.some_ne_none l h.1
      | some r => exact iff_of_false (Option.some_ne_none _) fun h => Option.some_ne_none l h.1
  refine ⟨hnull, fun diff hd => ?_, hframe⟩
  rw [hval, diff_branches, ← hleft, ← hright] at hd
  split at hd
  · cases hd
  · obtain rfl := Option.some.inj hd
    refine ⟨rfl, patch_duplicateFree hdl hdr, mem_applyPatch left right, fun a ha b hb hal hbr => ?_⟩
    have hla : ∀ x ∈ some a, x < m.next := fun x hx => Option.some.inj hx ▸ ha
    have hrb : ∀ x ∈ some b, x < m.next := fun x hx => Option.some.inj hx ▸ hb
    have hgen := (diffArrays_spec hla hrb).1
    rw [hgen, diff_branches, if_neg (fun h => Option.some_ne_none _ h.1)]
    simp only [Arrays.deref, Option.map_some, Option.getD_some, hal, hbr]

def sampleRecord (service : CStr) (status : Int) : RegisterInfo :=
  registerInfoPadding (.lit "g") service (.lit "v") (.lit "h") 80 status

def sampleLeft : RegisterInfoArray := [sampleRecord (.lit "gone") 0, sampleRecord (.lit "kept") 1]

def sampleRight : RegisterInfoArray := [sampleRecord (.lit "new") (-1), sampleRecord (.lit "kept") 0]

def sampleArrays : Arrays := ⟨fun a => if a = 0 then sampleLeft else sampleRight, 2⟩

/-- Two arrays with a record in common, their statuses as they may be. -/
theorem diff_is_patch_sample : ∃ diff,
    (diffArrays sampleArrays (some 0) (some 1)).2.deref (diffArrays sampleArrays (some 0) (some 1)).1 = some diff ∧
      diff = [sampleRecord (.lit "gone") (-1), sampleRecord (.lit "new") 1] ∧ DuplicateFree diff ∧
      (∀ x, x ∈ (applyPatch sampleLeft diff).map plain ↔ x ∈ sampleRight.map plain) ∧
      (diffArrays sampleArrays (some 0) (some 1)).2.data 0 = sampleLeft ∧
      (diffArrays sampleArrays (some 0) (some 1)).2.data 1 = sampleRight := by
  have hl : ∀ a ∈ some 0, a < sampleArrays.next := fun a ha => Option.some.inj ha ▸ Nat.zero_lt_two
  have hr : ∀ a ∈ some 1, a < sampleArrays.next := fun a ha => Option.some.inj ha ▸ Nat.one_lt_two
  have hdl : DuplicateFree sampleLeft := by
    rw [DuplicateFree]
    decide +kernel
  have hdr : DuplicateFree sampleRight := by
    rw [DuplicateFree]
    decide +kernel
  obtain ⟨-, hdiff, hkept⟩ := @diff_is_patch _ _ _ hl hr sampleLeft sampleRight rfl rfl hdl hdr
  obtain ⟨heq, hfree, hset, -⟩ := hdiff _ rfl
  have habsent : absent sampleLeft sampleRight = [sampleRecord (.lit "gone") 0] := by decide +kernel
  have hnew : absent sampleRight sampleLeft = [sampleRecord (.lit "new") (-1)] := by decide +kernel
  rw [habsent, hnew] at heq
  exact ⟨_, rfl, heq, hfree, hset, hkept 0 Nat.zero_lt_two, hkept 1 Nat.one_lt_two⟩

end Ddm.Registry.Diff
