/-
  Ddm.Registry.NextNode — `string_array_next` call after call: the nodes a run of calls
  returns, and the node the next call returns after the array has changed.

  The array's counter goes on whatever `string_array_add` and `string_array_delete` do,
  and it wraps at 2^32, which most lengths do not divide.

  Proved, for every array and every counter: the calls stay inside the array and return
  any two of its nodes equally often, up to one call and one more for each wrap; after
  any changes the next call returns a current member, or NULL if there is none
  (`next_fair`). So `service_resource_require_node_key` finds a node of the service
  (`requireNodeKey_rep`).
-/

import Ddm.Lib.RoundRobin
import Ddm.Registry.ResourceMgt

namespace Ddm.Registry

open Ddm.Lib

/-! ## The index -/

/-- `int idx = (array->counter ++) % count`, where `int count = utarray_len(array->strs)`. -/
def nextIdx (counter len : UInt32) : Int32 :=
  let count : Int32 := len.toInt32
  (counter % count.toUInt32).toInt32

/-- The index `stringArrayNext` takes. -/
def StringArray.nextIndex (array : StringArray) : Nat := array.counter % array.strs.length

/-- A `utarray` doubles its capacity in an `unsigned`, from 8, so its length is 2^31 at
    most; for such a length the signed arithmetic is the plain one. -/
theorem nextIdx_toInt {counter len : UInt32} (hpos : 0 < len.toNat) (hlen : len.toNat ≤ 2 ^ 31) :
    (nextIdx counter len).toInt = (counter.toNat % len.toNat : Nat) := by
  have hlt : counter.toNat % len.toNat < len.toNat := Nat.mod_lt _ hpos
  have hnat : (counter % len).toNat = counter.toNat % len.toNat := UInt32.toNat_mod counter len
  show (counter % len).toInt32.toInt = _
  rw [← hnat] at hlt ⊢
  show (counter % len).toBitVec.toInt = _
  rw [BitVec.toInt_eq_toNat_of_lt]
  · rfl
  · show 2 * (counter % len).toNat < 2 ^ 32
    omega

/-! ## A run of calls -/

/-- The array after `k` calls. -/
def afterCalls (array : StringArray) (k : Nat) : StringArray := (fun a => (stringArrayNext a).2)^[k] array

/-- How many of `k` calls take index `i`. -/
def timesTaken (array : StringArray) (k i : Nat) : Nat := k.count fun j => (afterCalls array j).nextIndex = i

/-- How many of `k` calls return the node. -/
def timesReturned (array : StringArray) (k : Nat) (str : Str) : Nat :=
  k.count fun j => (stringArrayNext (afterCalls array j)).1 = some str

/-- How many of `k` calls take the counter from its last value to 0. -/
def timesWrapped (array : StringArray) (k : Nat) : Nat := k.count fun j => (afterCalls array j).counter = 2 ^ 32 - 1

theorem next_of_ne_nil {array : StringArray} (h : array.strs ≠ []) : stringArrayNext array =
    (array.strs[array.nextIndex]?, { array with counter := (array.counter + 1) % 2 ^ 32 }) := by
  simp only [stringArrayNext, StringArray.nextIndex]
  rw [if_neg (mt List.length_eq_zero_iff.mp h)]

theorem nextIndex_lt {array : StringArray} (h : array.strs ≠ []) : array.nextIndex < array.strs.length :=
  Nat.mod_lt _ (List.length_pos_iff.mpr h)

theorem next_some {array : StringArray} (h : array.strs ≠ []) : (stringArrayNext array).1 =
    some (array.strs.get ⟨array.nextIndex, nextIndex_lt h⟩) := by
  rw [next_of_ne_nil h]
  exact List.getElem?_eq_getElem (nextIndex_lt h)

/-- No two entries are the same copy, so a node is returned when its index is taken. -/
theorem returns_iff_nextIndex {array : StringArray} (hnd : array.strs.Nodup) {i : Nat} {str : Str}
    (hi : array.strs[i]? = some str) : (stringArrayNext array).1 = some str ↔ array.nextIndex = i := by
  have hlt : i < array.strs.length := (List.getElem?_eq_some_iff.mp hi).1
  have hne : array.strs ≠ [] := List.ne_nil_of_length_pos (by omega)
  rw [next_of_ne_nil hne, ← hi]
  exact List.getElem?_inj (nextIndex_lt hne) hnd

theorem afterCalls_eq {array : StringArray} (h : array.strs ≠ []) (hc : array.counter < 2 ^ 32) (k : Nat) :
    afterCalls array k = { array with counter := (array.counter + k) % 2 ^ 32 } := by
  induction k with
  | zero => rw [Nat.add_zero, Nat.mod_eq_of_lt hc]; rfl
  | succ k ih =>
    have hnext := next_of_ne_nil (show (StringArray.mk array.strs ((array.counter + k) % 2 ^ 32)).strs ≠ [] from h)
    rw [afterCalls, Function.iterate_succ_apply', ← afterCalls, ih, hnext, Nat.mod_add_mod]
    rfl

section Run

variable {array : StringArray} (h : array.strs ≠ []) (hc : array.counter < 2 ^ 32)
include h hc

theorem timesTaken_eq (k i : Nat) :
    timesTaken array k i = RoundRobin.hits (2 ^ 32) array.strs.length array.counter k i := by
  simp only [timesTaken, afterCalls_eq h hc, StringArray.nextIndex, RoundRobin.hits]

theorem timesWrapped_eq (k : Nat) : timesWrapped array k = RoundRobin.wraps (2 ^ 32) array.counter k := by
  simp only [timesWrapped, afterCalls_eq h hc, RoundRobin.wraps]

theorem timesTaken_le {i i' : Nat} (hi : i < array.strs.length) (hi' : i' < array.strs.length) (k : Nat) :
    timesTaken array k i ≤ timesTaken array k i' + (1 + timesWrapped array k) := by
  rw [timesTaken_eq h hc, timesTaken_eq h hc, timesWrapped_eq h hc]
  exact RoundRobin.hits_le (by decide) hi hi' array.counter k

theorem timesReturned_eq (hnd : array.strs.Nodup) (k : Nat) {i : Nat} {str : Str} (hi : array.strs[i]? = some str) :
    timesReturned array k str = timesTaken array k i := by
  simp only [timesReturned, timesTaken, Nat.count]
  refine List.countP_congr fun j _ => ?_
  have hstrs : (afterCalls array j).strs = array.strs := by rw [afterCalls_eq h hc]
  rw [decide_eq_true_eq, decide_eq_true_eq, returns_iff_nextIndex (hstrs ▸ hnd) (hstrs ▸ hi)]

end Run

/-! ## Changes -/

inductive Change where
  | add (ptr : Nat) (value : CStr)
  | delete (value : CStr)
  | next

def StringArray.change (array : StringArray) : Change → StringArray
  | .add ptr value => stringArrayAdd array ptr value
  | .delete value => stringArrayDelete array value
  | .next => (stringArrayNext array).2

/-- The strings that are members after a change. -/
def Change.members (M : Set CStr) : Change → Set CStr
  | .add _ value => insert value M
  | .delete value => M \ {value}
  | .next => M

theorem stringArrayNext_eq_none {array : StringArray} : (stringArrayNext array).1 = none ↔ array.strs = [] := by
  by_cases hne : array.strs = []
  · simp [stringArrayNext, hne]
  · rw [next_some hne]
    exact iff_of_false (Option.some_ne_none _) hne

theorem keys_next (array : StringArray) : (stringArrayNext array).2.keys = array.keys := by
  rw [StringArray.keys, strs_stringArrayNext]
  rfl

theorem nodup_change {array : StringArray} (h : array.keys.Nodup) (c : Change) : (array.change c).keys.Nodup := by
  cases c with
  | add ptr value => exact nodup_keys_add h
  | delete value => exact nodup_keys_delete h
  | next => exact (keys_next array).symm ▸ h

theorem members_change {array : StringArray} {M : Set CStr} (hnd : array.keys.Nodup)
    (h : ∀ v, v ∈ array.keys ↔ v ∈ M) (c : Change) (v : CStr) : v ∈ (array.change c).keys ↔ v ∈ c.members M := by
  cases c with
  | add ptr value =>
    rw [StringArray.change, mem_keys_add, h, Change.members, Set.mem_insert_iff, or_comm]
  | delete value =>
    rw [StringArray.change, mem_keys_delete hnd, h, Change.members, Set.mem_sdiff, Set.mem_singleton_iff, and_comm]
  | next =>
    rw [StringArray.change, keys_next, h, Change.members]

theorem members_changes {array : StringArray} {M : Set CStr} (hnd : array.keys.Nodup)
    (h : ∀ v, v ∈ array.keys ↔ v ∈ M) (cs : List Change) (v : CStr) :
    v ∈ (cs.foldl StringArray.change array).keys ↔ v ∈ cs.foldl Change.members M := by
  induction cs generalizing array M with
  | nil => exact h v
  | cons c cs ih => exact ih (nodup_change hnd c) (members_change hnd h c)

/-! ## Fairness -/

/-- What `k` calls in a row do. -/
structure Fair (array : StringArray) (k : Nat) : Prop where
  /-- Each takes an index of the array and returns what is there. -/
  inside : ∀ j < k, (afterCalls array j).nextIndex < array.strs.length ∧
    (stringArrayNext (afterCalls array j)).1 = array.strs[(afterCalls array j).nextIndex]?
  /-- The index is that of the C. -/
  idx : array.strs.length ≤ 2 ^ 31 → ∀ j < k,
    (nextIdx (.ofNat (afterCalls array j).counter) (.ofNat array.strs.length)).toInt = (afterCalls array j).nextIndex
  taken : ∀ i < array.strs.length, ∀ i' < array.strs.length,
    timesTaken array k i ≤ timesTaken array k i' + (1 + timesWrapped array k)
  returned : array.strs.Nodup → ∀ str ∈ array.strs, ∀ str' ∈ array.strs,
    timesReturned array k str ≤ timesReturned array k str' + (1 + timesWrapped array k)

/-- What the call after some changes does, and which strings are members then. -/
structure Current (array : StringArray) (changes : List Change) : Prop where
  null : (stringArrayNext (changes.foldl StringArray.change array)).1 = none ↔
    (changes.foldl StringArray.change array).strs = []
  mem : ∀ str, (stringArrayNext (changes.foldl StringArray.change array)).1 = some str →
    str ∈ (changes.foldl StringArray.change array).strs
  members : array.keys.Nodup → ∀ v, v ∈ (changes.foldl StringArray.change array).keys ↔
    v ∈ changes.foldl Change.members {v | v ∈ array.keys}

theorem idx_eq {array : StringArray} (h : array.strs ≠ []) (hc : array.counter < 2 ^ 32)
    (hlen : array.strs.length ≤ 2 ^ 31) :
    (nextIdx (.ofNat array.counter) (.ofNat array.strs.length)).toInt = array.nextIndex := by
  have hpos := List.length_pos_iff.mpr h
  have hl : (UInt32.ofNat array.strs.length).toNat = array.strs.length := UInt32.toNat_ofNat_of_lt' (by
    show _ < 2 ^ 32
    omega)
  have hcounter : (UInt32.ofNat array.counter).toNat = array.counter := UInt32.toNat_ofNat_of_lt' hc
  rw [nextIdx_toInt (by rw [hl]; exact hpos) (by rw [hl]; exact hlen), hl, hcounter]
  rfl

theorem fair {array : StringArray} (h : array.strs ≠ []) (hc : array.counter < 2 ^ 32) (k : Nat) : Fair array k := by
  have hstrs : ∀ j, (afterCalls array j).strs = array.strs := fun j => by rw [afterCalls_eq h hc]
  have hcounter : ∀ j, (afterCalls array j).counter < 2 ^ 32 := fun j => by
    rw [afterCalls_eq h hc]
    exact Nat.mod_lt _ (by decide)
  have hne : ∀ j, (afterCalls array j).strs ≠ [] := fun j => by rw [hstrs]; exact h
  refine ⟨fun j _ => ⟨?_, ?_⟩, fun hlen j _ => ?_, fun i hi i' hi' => timesTaken_le h hc hi hi' k, ?_⟩
  · have hlt := nextIndex_lt (hne j)
    rwa [hstrs] at hlt
  · rw [next_of_ne_nil (hne j), hstrs]
  · have hidx := idx_eq (hne j) (hcounter j) (by rw [hstrs]; exact hlen)
    rwa [hstrs] at hidx
  · intro hnd str hs str' hs'
    obtain ⟨i, hi⟩ := List.mem_iff_getElem?.mp hs
    obtain ⟨i', hi'⟩ := List.mem_iff_getElem?.mp hs'
    rw [timesReturned_eq h hc hnd k hi, timesReturned_eq h hc hnd k hi']
    exact timesTaken_le h hc (List.getElem?_eq_some_iff.mp hi).1 (List.getElem?_eq_some_iff.mp hi').1 k

theorem next_fair (strs : List Str) (counter : UInt32) :
    (strs ≠ [] → ∀ k, Fair ⟨strs, counter.toNat⟩ k) ∧ ∀ changes, Current ⟨strs, counter.toNat⟩ changes := by
  constructor
  · intro h k
    exact fair h counter.toNat_lt k
  · intro changes
    refine ⟨stringArrayNext_eq_none, fun _ => stringArrayNext_mem, fun hnd => ?_⟩
    exact members_changes hnd (fun _ => Iff.rfl) changes

/-! ## A service's next node -/

theorem requireNodeKey_of_get {t : Tables} {group service version : CStr} {item : ServiceResource}
    (h : serviceResourceGet t group service version = some item) :
    (serviceResourceRequireNodeKey t group service version).1 = (stringArrayNext item.nodeKeyArray).1 := by
  rw [serviceResourceRequireNodeKey, h]
  rfl

/-- `service_resource_require_node_key` finds a node of the service, and none only if the
    service has none. -/
theorem requireNodeKey_rep {t : Tables} {R : Set (CStr × CStr)} (h : Rep t R) (group service version : CStr) :
    (∀ str, (serviceResourceRequireNodeKey t group service version).1 = some str →
        ((serviceResourceConstructKey group service version serviceKeyLen).str, str.chars) ∈ R) ∧
      ((serviceResourceRequireNodeKey t group service version).1 = none ↔
        ∀ n, ((serviceResourceConstructKey group service version serviceKeyLen).str, n) ∉ R) := by
  cases hget : serviceResourceGet t group service version with
  | none =>
    have hnone : (serviceResourceRequireNodeKey t group service version).1 = none := by
      rw [serviceResourceRequireNodeKey, hget]
    refine ⟨fun str hs => ?_, iff_of_true hnone fun n hn => ?_⟩
    · rw [hnone] at hs
      cases hs
    · obtain ⟨e, he, hk⟩ := h.services.dom _ _ hn
      exact HashTable.find_eq_none.mp hget e he hk
  | some item =>
    obtain ⟨hitem, hk⟩ := HashTable.find_key hget
    have hk : (serviceResourceConstructKey group service version serviceKeyLen).str = item.key := hk.symm
    rw [requireNodeKey_of_get hget, hk]
    refine ⟨fun str hs => ?_, iff_of_false (fun hs => ?_) fun hn => ?_⟩
    · exact (h.services.entry item hitem _).mp (List.mem_map_of_mem (stringArrayNext_mem hs))
    · refine h.services.nonempty item hitem ?_
      rw [StringArray.keys, stringArrayNext_eq_none.mp hs]
      rfl
    · obtain ⟨n, hm⟩ := List.exists_mem_of_ne_nil _ (h.services.nonempty item hitem)
      exact hn n ((h.services.entry item hitem n).mp hm)

/-- One short of the last value: across the wrap the first of three nodes is returned twice
    in a row. -/
def sampleCounter : UInt32 := 4294967294

def sampleStrs : List Str := [⟨1, .lit "a"⟩, ⟨2, .lit "b"⟩, ⟨3, .lit "c"⟩]

theorem next_fair_sample : Fair ⟨sampleStrs, sampleCounter.toNat⟩ 4 ∧
    (List.range 4).map (fun j => (afterCalls ⟨sampleStrs, sampleCounter.toNat⟩ j).nextIndex) = [2, 0, 0, 1] ∧
    timesWrapped ⟨sampleStrs, sampleCounter.toNat⟩ 4 = 1 ∧
    Current ⟨sampleStrs, sampleCounter.toNat⟩ [.delete (.lit "c"), .add 4 (.lit "d")] :=
  ⟨(next_fair sampleStrs sampleCounter).1 (by decide) 4, by decide, by decide, (next_fair sampleStrs sampleCounter).2 _⟩

end Ddm.Registry
