/-
  Ddm.Registry.Mapping — `register_mapping` as a map from provider paths to lists.

  An item's key is a `char[PROVIDER_KEY_LEN]`, so a put on a longer path stores its first
  59 bytes, while a find compares whole paths. PROVIDER_KEY_LEN leaves ten bytes around
  a group of 49; "/", "/providers" and the terminator take twelve.

  Proved: after a sequence of puts every path finds its last list and no two items have
  one key, exactly when no long path's put makes a difference (`mapping_law_iff`). The
  first put of a group of 49 characters does (`long_group_forgotten`).
-/

import Mathlib.Data.List.Induction
import Ddm.Registry.ChildrenChange

namespace Ddm.Registry

open Ddm.Lib

abbrev Put := CStr × Option RegisterInfoArray

def putAll (puts : List Put) : List RegisterMapItem := puts.foldl (fun m x => registerMappingPut m x.1 x.2) []

/-- The array of the path's last put; NULL if there was none. -/
def lastPut (puts : List Put) : CStr → Option RegisterInfoArray :=
  puts.foldl (fun last x => Function.update last x.1 x.2) fun _ => none

/-- The key an item put for the path gets. -/
def mapKey (path : CStr) : CStr := (snprintf providerKeyLen path).str

structure MapLaw (puts : List Put) : Prop where
  find : ∀ path, registerMappingFind (putAll puts) path = lastPut puts path
  distinct : HashTable.Distinct RegisterMapItem.key (putAll puts)

theorem group_fits_iff (group : CStr) : (providerPath group).length < providerKeyLen ↔ group.length < 49 := by
  have : (providerPath group).length = group.length + 11 := by
    simp only [providerPath, CStr.length_append, show (CStr.lit "/").length = 1 from rfl,
      show (CStr.lit "/providers").length = 10 from rfl]
    omega
  rw [this, show providerKeyLen = 60 from rfl]
  omega

/-! ## One put -/

theorem putAll_concat (puts : List Put) (x : Put) : putAll (puts ++ [x]) = registerMappingPut (putAll puts) x.1 x.2 := by
  rw [putAll, List.foldl_append]
  rfl

theorem lastPut_concat (puts : List Put) (x : Put) (path : CStr) :
    lastPut (puts ++ [x]) path = if path = x.1 then x.2 else lastPut puts path := by
  rw [lastPut, List.foldl_append]
  exact Function.update_apply ..

/-- No item has a long path for its key. -/
theorem find_long {m : List RegisterMapItem} {path : CStr} (hp : ¬path.length < providerKeyLen) :
    registerMappingFindItem m path = none := by
  refine HashTable.find_eq_none.mpr fun i _ hk => hp ?_
  rw [← hk]
  exact i.providerKey.fits

theorem put_long {m : List RegisterMapItem} {path : CStr} (hp : ¬path.length < providerKeyLen)
    (arr : Option RegisterInfoArray) : registerMappingPut m path arr = ⟨snprintf providerKeyLen path, arr⟩ :: m := by
  rw [registerMappingPut, find_long hp]
  rfl

/-- A put looks the path up and, if it is not there, adds its key. -/
theorem keys_put (m : List RegisterMapItem) (path : CStr) (arr : Option RegisterInfoArray) :
    (registerMappingPut m path arr).map RegisterMapItem.key =
      if path ∈ m.map RegisterMapItem.key then m.map RegisterMapItem.key
      else mapKey path :: m.map RegisterMapItem.key := by
  have hfound : (HashTable.find RegisterMapItem.key m path).isSome = true ↔ path ∈ m.map RegisterMapItem.key :=
    HashTable.find_isSome
  unfold registerMappingPut registerMappingFindItem
  split
  · rename_i i hi
    rw [hi] at hfound
    rw [if_pos (hfound.mp rfl)]
    exact HashTable.keys_modify fun _ => rfl
  · rename_i hn
    rw [hn] at hfound
    rw [if_neg fun h => Bool.false_ne_true (hfound.mpr h)]
    rfl

theorem mem_keys_putAll {puts : List Put} {k : CStr} :
    k ∈ (putAll puts).map RegisterMapItem.key ↔ ∃ x ∈ puts, mapKey x.1 = k := by
  induction puts using List.reverseRecOn with
  | nil => simp [putAll]
  | append_singleton puts x ih =>
    rw [putAll_concat, keys_put]
    simp only [List.mem_append, List.mem_singleton, or_and_right, exists_or, exists_eq_left, ← ih]
    split
    · rename_i hx
      -- a path that is a key is its own
      have hown : mapKey x.1 = x.1 := by
        obtain ⟨i, -, hi⟩ := List.mem_map.mp hx
        exact snprintf_str (hi ▸ i.providerKey.fits)
      exact ⟨Or.inl, fun h => h.elim id fun e => e ▸ hown.symm ▸ hx⟩
    · rw [List.mem_cons, or_comm, eq_comm]

/-! ## Distinct keys -/

/-- A later long path has a key of its own. -/
def KeyApart (y x : Put) : Prop := ¬x.1.length < providerKeyLen → mapKey y.1 ≠ mapKey x.1

theorem distinct_iff (puts : List Put) :
    HashTable.Distinct RegisterMapItem.key (putAll puts) ↔ puts.Pairwise KeyApart := by
  induction puts using List.reverseRecOn with
  | nil => exact iff_of_true List.nodup_nil List.Pairwise.nil
  | append_singleton puts x ih =>
    rw [List.pairwise_append, ← ih, putAll_concat, HashTable.Distinct, keys_put]
    have hall : (∀ y ∈ puts, ∀ z ∈ [x], KeyApart y z) ↔
        (¬x.1.length < providerKeyLen → mapKey x.1 ∉ (putAll puts).map RegisterMapItem.key) := by
      simp only [List.mem_singleton, forall_eq, mem_keys_putAll, KeyApart, not_exists, not_and]
      exact ⟨fun h hl y hy => h y hy hl, fun h y hy hl => h hl y hy⟩
    rw [hall, and_iff_right (List.pairwise_singleton ..)]
    split
    · rename_i hx
      refine (and_iff_left fun hl => absurd ?_ hl).symm
      obtain ⟨i, -, hi⟩ := List.mem_map.mp hx
      exact hi ▸ i.providerKey.fits
    · rename_i hx
      rw [List.nodup_cons, and_comm]
      refine and_congr_right fun _ => ⟨fun h _ => h, fun h => ?_⟩
      by_cases hl : x.1.length < providerKeyLen
      · rw [mapKey, snprintf_str hl]
        exact hx
      · exact h hl

/-! ## The law -/

theorem lastPut_long {puts : List Put} (h : puts.Pairwise KeyApart) {x : Put} (hx : x ∈ puts)
    (hl : ¬x.1.length < providerKeyLen) : lastPut puts x.1 = x.2 := by
  induction puts using List.reverseRecOn with
  | nil => cases hx
  | append_singleton puts z ih =>
    obtain ⟨hp, -, hz⟩ := List.pairwise_append.mp h
    rw [lastPut_concat]
    cases List.mem_append.mp hx with
    | inl hx =>
      rw [if_neg fun e : x.1 = z.1 => hz x hx z (List.mem_singleton_self z) (by rw [← e]; exact hl) (congrArg mapKey e)]
      exact ih hp hx
    | inr hx => rw [List.mem_singleton.mp hx, if_pos rfl]

theorem find_law {puts : List Put} (h : puts.Pairwise KeyApart)
    (hnull : ∀ x ∈ puts, ¬x.1.length < providerKeyLen → x.2 = none) (path : CStr) :
    registerMappingFind (putAll puts) path = lastPut puts path := by
  induction puts using List.reverseRecOn generalizing path with
  | nil => rfl
  | append_singleton puts z ih =>
    obtain ⟨hp, -, hz⟩ := List.pairwise_append.mp h
    have ih := ih hp fun x hx => hnull x (List.mem_append_left _ hx)
    rw [putAll_concat, lastPut_concat]
    by_cases hl : z.1.length < providerKeyLen
    · rw [(registerMappingFind_put ((distinct_iff puts).mpr hp) hl z.2).2]
      split
      · rfl
      · exact ih path
    · -- the new item holds NULL under a key nobody had, so nothing changes
      have hz2 : z.2 = none := hnull z (List.mem_append_right _ (List.mem_singleton_self z)) hl
      have hfresh : registerMappingFind (putAll puts) (mapKey z.1) = none := by
        have hn : HashTable.find RegisterMapItem.key (putAll puts) (mapKey z.1) = none := by
          rw [← Option.not_isSome_iff_eq_none, HashTable.find_isSome, mem_keys_putAll]
          intro h
          obtain ⟨y, hy, hk⟩ := h
          exact hz y hy z (List.mem_singleton_self z) hl hk
        rw [registerMappingFind, registerMappingFindItem, hn]
        rfl
      have hsame : registerMappingFind (registerMappingPut (putAll puts) z.1 z.2) path =
          registerMappingFind (putAll puts) path := by
        rw [put_long hl, hz2, registerMappingFind, registerMappingFindItem, HashTable.find, List.find?_cons]
        by_cases hk : mapKey z.1 = path
        · rw [← hk, hfresh]
          simp only [RegisterMapItem.key, mapKey, decide_true, Option.bind_some]
        · rw [show decide (RegisterMapItem.key ⟨snprintf providerKeyLen z.1, none⟩ = path) = false from
            decide_eq_false hk]
          rfl
      rw [hsame, ih path]
      split
      · rename_i e
        rw [hz2, e, ← ih z.1, registerMappingFind, find_long hl]
        rfl
      · rfl

/-- The mapping keeps its law exactly if every put on a path of PROVIDER_KEY_LEN bytes or
    more carries NULL and is the first whose path has these first bytes. -/
theorem mapping_law_iff (puts : List Put) : MapLaw puts ↔
    (∀ x ∈ puts, ¬x.1.length < providerKeyLen → x.2 = none) ∧
      puts.Pairwise fun y x => ¬x.1.length < providerKeyLen → mapKey y.1 ≠ mapKey x.1 := by
  constructor
  · intro h
    obtain ⟨hf, hd⟩ := h
    have hp := (distinct_iff puts).mp hd
    refine ⟨fun x hx hl => ?_, hp⟩
    rw [← lastPut_long hp hx hl, ← hf, registerMappingFind, find_long hl]
    rfl
  · intro h
    obtain ⟨hnull, hp⟩ := h
    exact ⟨find_law hp hnull, (distinct_iff puts).mpr hp⟩

/-- Whatever is put for a group of 49 characters or more, nothing is found. -/
theorem long_group_lost (m : List RegisterMapItem) {group : CStr} (hg : 49 ≤ group.length) :
    registerMappingFind m (providerPath group) = none := by
  rw [registerMappingFind, find_long fun h => Nat.not_lt_of_le hg ((group_fits_iff group).mp h)]
  rfl

theorem long_group_forgotten : ¬∀ puts, MapLaw puts := by
  intro hall
  have h := (hall [(providerPath (.lit "aaaaaaaaaaaaaaaaaaaaaaaaaaaaaaaaaaaaaaaaaaaaaaaaa"), some [])]).find
    (providerPath (.lit "aaaaaaaaaaaaaaaaaaaaaaaaaaaaaaaaaaaaaaaaaaaaaaaaa"))
  rw [long_group_lost _ (by decide), lastPut, List.foldl_cons, List.foldl_nil, Function.update_self] at h
  cases h

end Ddm.Registry
