/-
  Ddm.Lib.HashTable — the chained hash table (`HASH_ADD`, `HASH_FIND`, `HASH_DEL`) as
  the list of its items, the newest first.

  `HASH_ADD` puts an item at the head of its bucket whether or not its key is there
  already, and `HASH_FIND` takes the first of the bucket with an equal key: so `find` is
  the newest item with the key. A table whose callers look before they add has distinct
  keys (`Distinct`); over such tables the operations are those of a finite map, which is
  what the lemmas say.
-/

import Mathlib.Data.List.Nodup

namespace Ddm.Lib.HashTable

variable {ι κ : Type} [DecidableEq κ] (key : ι → κ)

def find (t : List ι) (k : κ) : Option ι := t.find? fun i => key i = k

def add (t : List ι) (i : ι) : List ι := i :: t

/-- Unlink the item `find` returns. -/
def del (t : List ι) (k : κ) : List ι := t.eraseP fun i => key i = k

/-- Change, through its pointer, the item `find` returns. -/
def modify (t : List ι) (k : κ) (f : ι → ι) : List ι :=
  match t with
  | [] => []
  | i :: t => if key i = k then f i :: t else i :: modify t k f

def Distinct (t : List ι) : Prop := (t.map key).Nodup

variable {key} {t : List ι} {k : κ} {i : ι}

theorem find_key (h : find key t k = some i) : i ∈ t ∧ key i = k :=
  ⟨List.mem_of_find?_eq_some h, by simpa using List.find?_some h⟩

theorem find_eq_none : find key t k = none ↔ ∀ i ∈ t, key i ≠ k := by simp [find]

theorem find_isSome : (find key t k).isSome = true ↔ k ∈ t.map key := by
  simp only [find, List.find?_isSome, decide_eq_true_eq, List.mem_map]

omit [DecidableEq κ] in
theorem Distinct.unique (h : Distinct key t) {j : ι} (hi : i ∈ t) (hj : j ∈ t) (e : key i = key j) : i = j :=
  List.inj_on_of_nodup_map h hi hj e

theorem Distinct.find_iff (h : Distinct key t) : find key t k = some i ↔ i ∈ t ∧ key i = k := by
  refine ⟨find_key, fun ⟨hi, hk⟩ => ?_⟩
  cases hf : find key t k with
  | none => exact absurd hk (find_eq_none.mp hf i hi)
  | some j =>
    obtain ⟨hj, hjk⟩ := find_key hf
    exact congrArg some (h.unique hj hi (hjk.trans hk.symm))

/-! ## Adding -/

theorem Distinct.add (h : Distinct key t) (hk : find key t (key i) = none) : Distinct key (add t i) := by
  refine List.nodup_cons.mpr ⟨fun hm => ?_, h⟩
  obtain ⟨j, hj, e⟩ := List.mem_map.mp hm
  exact find_eq_none.mp hk j hj e

/-! ## Deleting -/

theorem Distinct.del_eq (h : Distinct key t) (k : κ) : del key t k = t.filter (key · ≠ k) := by
  induction t with
  | nil => rfl
  | cons j t ih =>
    have hd := List.nodup_cons.mp h
    by_cases e : key j = k
    · have hk : ∀ i ∈ t, key i ≠ k := fun i hi hik => hd.1 (by rw [e, ← hik]; exact List.mem_map_of_mem hi)
      have : t.filter (key · ≠ k) = t := List.filter_eq_self.mpr fun i hi => by simpa using hk i hi
      rw [del, List.eraseP_cons_of_pos (by simpa using e), List.filter_cons_of_neg (by simpa using e), this]
    · have := ih hd.2
      simp only [del] at this ⊢
      rw [List.eraseP_cons_of_neg (by simpa using e), List.filter_cons_of_pos (by simpa using e), this]

theorem Distinct.mem_del (h : Distinct key t) : i ∈ del key t k ↔ i ∈ t ∧ key i ≠ k := by
  rw [h.del_eq]; simp

theorem Distinct.del (h : Distinct key t) (k : κ) : Distinct key (del key t k) :=
  h.sublist ((List.eraseP_sublist).map key)

/-! ## Changing an item in place -/

variable {f : ι → ι}

theorem keys_modify (hf : ∀ i, key (f i) = key i) : (modify key t k f).map key = t.map key := by
  induction t with
  | nil => rfl
  | cons j t ih =>
    simp only [modify]
    split
    · simp [hf]
    · simp [ih]

theorem Distinct.modify (h : Distinct key t) (hf : ∀ i, key (f i) = key i) : Distinct key (modify key t k f) := by
  rw [Distinct, keys_modify hf]; exact h

theorem Distinct.mem_modify (h : Distinct key t) {j : ι} :
    j ∈ HashTable.modify key t k f ↔ (j ∈ t ∧ key j ≠ k) ∨ ∃ i ∈ t, key i = k ∧ j = f i := by
  induction t with
  | nil => simp [HashTable.modify]
  | cons i t ih =>
    have hd := List.nodup_cons.mp h
    simp only [HashTable.modify]
    split
    · rename_i e
      have hk : ∀ x ∈ t, key x ≠ k := fun x hx hxk => hd.1 (by rw [e, ← hxk]; exact List.mem_map_of_mem hx)
      constructor
      · intro hj
        rcases List.mem_cons.mp hj with rfl | hj
        · exact Or.inr ⟨i, List.mem_cons_self, e, rfl⟩
        · exact Or.inl ⟨List.mem_cons_of_mem _ hj, hk j hj⟩
      · intro h
        rcases h with ⟨hj, hjk⟩ | ⟨x, hx, hxk, rfl⟩
        · rcases List.mem_cons.mp hj with rfl | hj
          · exact absurd e hjk
          · exact List.mem_cons_of_mem _ hj
        · rcases List.mem_cons.mp hx with rfl | hx
          · exact List.mem_cons_self
          · exact absurd hxk (hk x hx)
    · rename_i e
      rw [List.mem_cons, ih hd.2]
      constructor
      · intro h
        rcases h with rfl | ⟨hj, hjk⟩ | ⟨x, hx, hxk, rfl⟩
        · exact Or.inl ⟨List.mem_cons_self, e⟩
        · exact Or.inl ⟨List.mem_cons_of_mem _ hj, hjk⟩
        · exact Or.inr ⟨x, List.mem_cons_of_mem _ hx, hxk, rfl⟩
      · intro h
        rcases h with ⟨hj, hjk⟩ | ⟨x, hx, hxk, rfl⟩
        · rcases List.mem_cons.mp hj with rfl | hj
          · exact Or.inl rfl
          · exact Or.inr (Or.inl ⟨hj, hjk⟩)
        · rcases List.mem_cons.mp hx with rfl | hx
          · exact absurd hxk e
          · exact Or.inr (Or.inr ⟨x, hx, hxk, rfl⟩)

/-! ## The item found -/

/-- The table around the item `find` returns, which is the one changed or unlinked. -/
theorem find_split (h : find key t k = some i) : ∃ l r, t = l ++ i :: r ∧
    (∀ f, HashTable.modify key t k f = l ++ f i :: r) ∧ HashTable.del key t k = l ++ r := by
  induction t with
  | nil => cases h
  | cons j t ih =>
    by_cases e : key j = k
    · rw [find, List.find?_cons_of_pos (by simpa using e), Option.some.injEq] at h
      subst h
      exact ⟨[], t, rfl, fun f => by simp only [HashTable.modify, if_pos e, List.nil_append],
        by rw [HashTable.del, List.eraseP_cons_of_pos (by simpa using e), List.nil_append]⟩
    · rw [find, List.find?_cons_of_neg (by simpa using e)] at h
      obtain ⟨l, r, ht, hm, hd⟩ := ih h
      refine ⟨j :: l, r, by rw [ht, List.cons_append], fun f => ?_, ?_⟩
      · rw [HashTable.modify, if_neg e, hm f, List.cons_append]
      · rw [HashTable.del, List.eraseP_cons_of_neg (by simpa using e), List.cons_append, ← hd]
        rfl

/-- A change in place leaves every key where it was. -/
theorem find_modify (hf : ∀ i, key (f i) = key i) (k' : κ) : find key (HashTable.modify key t k f) k' =
    (find key t k').map fun i => if key i = k then f i else i := by
  induction t with
  | nil => rfl
  | cons j t ih =>
    by_cases e : key j = k
    · rw [HashTable.modify, if_pos e]
      by_cases e' : key j = k'
      · rw [find, List.find?_cons_of_pos (by simpa [hf] using e'), find, List.find?_cons_of_pos (by simpa using e'),
          Option.map_some, if_pos e]
      · rw [find, List.find?_cons_of_neg (by simpa [hf] using e'), find, List.find?_cons_of_neg (by simpa using e')]
        have hid : ∀ i ∈ List.find? (fun i => decide (key i = k')) t, (if key i = k then f i else i) = i := fun i hi => by
          have hk : key i = k' := by simpa using List.find?_some hi
          rw [if_neg fun h => e' (e.trans (h.symm.trans hk))]
        cases hfd : List.find? (fun i => decide (key i = k')) t with
        | none => rfl
        | some i => rw [Option.map_some, hid i hfd]
    · rw [HashTable.modify, if_neg e]
      by_cases e' : key j = k'
      · rw [find, List.find?_cons_of_pos (by simpa using e'), find, List.find?_cons_of_pos (by simpa using e'),
          Option.map_some, if_neg e]
      · rw [find, List.find?_cons_of_neg (by simpa using e'), find, List.find?_cons_of_neg (by simpa using e')]
        exact ih

end Ddm.Lib.HashTable
