/-
  Ddm.Lib.SlotTable — a map kept in an array of slots: an entry keeps the hash of its key,
  a search runs over all slots and compares the hash before the key, an insertion takes
  the first free slot from position `n` on, wrapping, and doubles a full array first.

  The invariant (`Good`): `n` counts the taken slots, the array is never empty, every
  entry's hash is its key's and no two entries share a key. Proved: the operations keep
  it and are those of a finite map (`get_set`, `get_unset`), and the search for a free slot
  ends on one (`freeFrom_spec`), so an insertion never fails.
-/

import Mathlib.Data.List.Basic
import Mathlib.Data.Set.Card

namespace Ddm.Lib

structure SlotEntry (κ ν η : Type) where
  key : κ
  val : ν
  hash : η

structure SlotTable (κ ν η : Type) where
  n : Nat
  slots : List (Option (SlotEntry κ ν η))

namespace SlotTable

variable {κ ν η : Type} [DecidableEq κ] [DecidableEq η] (hash : κ → η)

def new (size : Nat) : SlotTable κ ν η := ⟨0, List.replicate size none⟩

/-- The test of one slot. -/
def holds (k : κ) : Option (SlotEntry κ ν η) → Bool
  | none => false
  | some e => hash k = e.hash && k = e.key

/-- Where a search from slot 0 stops. -/
def indexOf (t : SlotTable κ ν η) (k : κ) : Option Nat := t.slots.findIdx? (holds hash k)

def get (t : SlotTable κ ν η) (k : κ) : Option ν := (t.slots.find? (holds hash k)).bind fun s => s.map (·.val)

/-- The first free slot from `i` on, going on from slot 0 behind the last one. -/
def freeFrom (slots : List (Option (SlotEntry κ ν η))) : Nat → Nat → Option Nat
  | 0, _ => none
  | fuel + 1, i =>
    match slots[i]? with
    | some none => some i
    | _ => freeFrom slots fuel (if i + 1 = slots.length then 0 else i + 1)

def grow (t : SlotTable κ ν η) : SlotTable κ ν η :=
  if t.n = t.slots.length then { t with slots := t.slots ++ List.replicate t.slots.length none } else t

/-- `none` if no slot is found. -/
def insert (t : SlotTable κ ν η) (k : κ) (v : ν) : Option (SlotTable κ ν η) :=
  (freeFrom t.slots t.slots.length t.n).map fun i => ⟨t.n + 1, t.slots.set i (some ⟨k, v, hash k⟩)⟩

/-- A new value for the entry at `i`. -/
def replace (t : SlotTable κ ν η) (i : Nat) (v : ν) : SlotTable κ ν η :=
  match t.slots[i]? with
  | some (some e) => { t with slots := t.slots.set i (some { e with val := v }) }
  | _ => t

def set (t : SlotTable κ ν η) (k : κ) (v : ν) : Option (SlotTable κ ν η) :=
  match if 0 < t.n then t.indexOf hash k else none with
  | some i => some (t.replace i v)
  | none => t.grow.insert hash k v

def unset (t : SlotTable κ ν η) (k : κ) : SlotTable κ ν η :=
  match t.indexOf hash k with
  | some i => ⟨t.n - 1, t.slots.set i none⟩
  | none => t

/-! ## The invariant -/

/-- Slot `i` holds `e`. -/
def At (t : SlotTable κ ν η) (i : Nat) (e : SlotEntry κ ν η) : Prop := t.slots[i]? = some (some e)

structure Good (t : SlotTable κ ν η) : Prop where
  count : t.slots.countP Option.isSome = t.n
  nonempty : 0 < t.slots.length
  hashed : ∀ i e, At t i e → e.hash = hash e.key
  distinct : ∀ i j e f, At t i e → At t j f → e.key = f.key → i = j

/-- What the table maps `k` to. -/
def Maps (t : SlotTable κ ν η) (k : κ) (v : ν) : Prop := ∃ i e, At t i e ∧ e.key = k ∧ e.val = v

variable {hash} {t : SlotTable κ ν η} {k : κ} {v : ν} {i : Nat}

theorem holds_iff {s : Option (SlotEntry κ ν η)} :
    holds hash k s = true ↔ ∃ e, s = some e ∧ hash k = e.hash ∧ k = e.key := by
  cases s with
  | none => simp [holds]
  | some e => simp [holds]

omit [DecidableEq κ] [DecidableEq η] in
theorem At.lt {e : SlotEntry κ ν η} (h : At t i e) : i < t.slots.length := (List.getElem?_eq_some_iff.mp h).1

omit [DecidableEq κ] [DecidableEq η] in
theorem Good.new {size : Nat} (h : 0 < size) : Good hash (new size : SlotTable κ ν η) := by
  have hnone : ∀ i e, ¬ At (SlotTable.new size : SlotTable κ ν η) i e := by
    intro i e h
    have := List.mem_of_getElem? h
    simp [SlotTable.new] at this
  exact ⟨by simp [SlotTable.new], by simpa [SlotTable.new] using h, fun i e h => absurd h (hnone i e),
    fun i j e f h => absurd h (hnone i e)⟩

/-! ## Searching -/

theorem indexOf_some (h : t.indexOf hash k = some i) : ∃ e, At t i e ∧ e.key = k := by
  obtain ⟨hi, hh, -⟩ := List.findIdx?_eq_some_iff_getElem.mp h
  obtain ⟨e, he, -, hk⟩ := holds_iff.mp hh
  exact ⟨e, List.getElem?_eq_some_iff.mpr ⟨hi, he⟩, hk.symm⟩

theorem Good.indexOf_none (hg : Good hash t) (h : t.indexOf hash k = none) : ∀ i e, At t i e → e.key ≠ k := by
  intro i e he hk
  have hmem := List.mem_of_getElem? he
  have hno := List.findIdx?_eq_none_iff.mp h _ hmem
  rw [holds_iff.mpr ⟨e, rfl, by rw [hg.hashed i e he, hk], hk.symm⟩] at hno
  cases hno

theorem Good.get_iff (hg : Good hash t) : t.get hash k = some v ↔ Maps t k v := by
  unfold get
  constructor
  · intro h
    obtain ⟨s, hs, hv⟩ := Option.bind_eq_some_iff.mp h
    obtain ⟨e, rfl, -, hk⟩ := holds_iff.mp (List.find?_some hs)
    obtain ⟨i, hi⟩ := List.mem_iff_getElem?.mp (List.mem_of_find?_eq_some hs)
    exact ⟨i, e, hi, hk.symm, Option.some.inj hv⟩
  · intro h
    obtain ⟨i, e, he, rfl, rfl⟩ := h
    cases hf : t.slots.find? (holds hash e.key) with
    | none =>
      have hno := List.find?_eq_none.mp hf _ (List.mem_of_getElem? he)
      exact absurd (holds_iff.mpr ⟨e, rfl, (hg.hashed i e he).symm, rfl⟩) hno
    | some s =>
      obtain ⟨f, rfl, -, hk⟩ := holds_iff.mp (List.find?_some hf)
      obtain ⟨j, hj⟩ := List.mem_iff_getElem?.mp (List.mem_of_find?_eq_some hf)
      obtain rfl := hg.distinct i j e f he hj hk
      have heq : At t i f := hj
      obtain rfl := Option.some.inj (Option.some.inj (he.symm.trans heq))
      rfl

/-! ## A free slot -/

def Free (slots : List (Option (SlotEntry κ ν η))) (i : Nat) : Prop := slots[i]? = some none

omit [DecidableEq κ] [DecidableEq η] in
/-- The loop passes every slot on its way round. -/
theorem freeFrom_round {slots : List (Option (SlotEntry κ ν η))} (fuel i : Nat) (hi : i < slots.length)
    (h : ∃ d, d < fuel ∧ Free slots ((i + d) % slots.length)) :
    ∃ j, freeFrom slots fuel i = some j ∧ Free slots j := by
  induction fuel generalizing i with
  | zero =>
    obtain ⟨d, hd, -⟩ := h
    exact absurd hd (Nat.not_lt_zero d)
  | succ fuel ih =>
    unfold freeFrom
    split
    · rename_i hfree
      exact ⟨i, rfl, hfree⟩
    · rename_i htaken
      obtain ⟨d, hd, hfree⟩ := h
      have hnext : (if i + 1 = slots.length then 0 else i + 1) = (i + 1) % slots.length := by
        split
        · rename_i he; rw [he, Nat.mod_self]
        · rw [Nat.mod_eq_of_lt (by omega)]
      rw [hnext]
      refine ih _ (Nat.mod_lt _ (by omega)) ?_
      cases d with
      | zero =>
        rw [Nat.add_zero, Nat.mod_eq_of_lt hi] at hfree
        exact absurd hfree htaken
      | succ d =>
        refine ⟨d, by omega, ?_⟩
        rw [Nat.mod_add_mod, Nat.add_assoc, Nat.add_comm 1 d]
        exact hfree

omit [DecidableEq κ] [DecidableEq η] in
theorem freeFrom_spec {slots : List (Option (SlotEntry κ ν η))} {i j : Nat} (hi : i < slots.length)
    (hj : Free slots j) : ∃ k, freeFrom slots slots.length i = some k ∧ Free slots k := by
  have hlt := (List.getElem?_eq_some_iff.mp hj).1
  refine freeFrom_round _ _ hi ⟨(j + slots.length - i) % slots.length, Nat.mod_lt _ (by omega), ?_⟩
  have hmod : (i + (j + slots.length - i) % slots.length) % slots.length = j := by
    rw [Nat.add_mod_mod, show i + (j + slots.length - i) = j + slots.length by omega, Nat.add_mod_right,
      Nat.mod_eq_of_lt hlt]
  rw [hmod]
  exact hj

omit [DecidableEq κ] [DecidableEq η] in
/-- Fewer entries than slots leave a slot free. -/
theorem exists_free {slots : List (Option (SlotEntry κ ν η))} (h : slots.countP Option.isSome < slots.length) :
    ∃ i, Free slots i := by
  by_contra hno
  have hall : ∀ s ∈ slots, s.isSome = true := by
    intro s hs
    obtain ⟨i, hi⟩ := List.mem_iff_getElem?.mp hs
    cases s with
    | none => exact absurd ⟨i, hi⟩ hno
    | some e => rfl
  have := List.countP_eq_length.mpr hall
  omega

/-! ## The operations -/

omit [DecidableEq κ] [DecidableEq η] in
theorem at_set {m : Nat} {s : Option (SlotEntry κ ν η)} (hi : i < t.slots.length) {j : Nat} {f : SlotEntry κ ν η} :
    At ⟨m, t.slots.set i s⟩ j f ↔ j = i ∧ s = some f ∨ j ≠ i ∧ At t j f := by
  unfold At
  simp only [List.getElem?_set, hi, if_true]
  by_cases h : i = j
  · subst h; simp
  · rw [if_neg h]
    exact ⟨fun hf => Or.inr ⟨Ne.symm h, hf⟩, fun hf => hf.elim (fun e => absurd e.1.symm h) And.right⟩

omit [DecidableEq κ] [DecidableEq η] in
theorem Good.grow (hg : Good hash t) : Good hash t.grow ∧ t.grow.n < t.grow.slots.length ∧
    ∀ k v, Maps t.grow k v ↔ Maps t k v := by
  have hle : t.n ≤ t.slots.length := by rw [← hg.count]; exact List.countP_le_length
  have hpos := hg.nonempty
  unfold SlotTable.grow
  split
  · have hat : ∀ i e, At ⟨t.n, t.slots ++ List.replicate t.slots.length none⟩ i e ↔ At t i e := by
      intro i e
      unfold At
      simp only [List.getElem?_append]
      split
      · exact Iff.rfl
      · rename_i hge
        refine iff_of_false (fun h => ?_) (fun h => ?_)
        · have := List.mem_of_getElem? h
          simp at this
        · exact hge (List.getElem?_eq_some_iff.mp h).1
    have hcount : (t.slots ++ List.replicate t.slots.length none).countP Option.isSome = t.n := by
      rw [List.countP_append, hg.count]
      simp [List.countP_replicate]
    refine ⟨⟨hcount, by simp; omega, fun i e h => hg.hashed i e ((hat i e).mp h),
      fun i j e f h h' => hg.distinct i j e f ((hat i e).mp h) ((hat j f).mp h')⟩, by simp; omega, fun k v => ?_⟩
    exact exists_congr fun i => exists_congr fun e => and_congr_left fun _ => hat i e
  · exact ⟨hg, by omega, fun k v => Iff.rfl⟩

omit [DecidableEq η] in
/-- A new key in a table with room. -/
theorem Good.insert (hg : Good hash t) (hroom : t.n < t.slots.length) (hk : ∀ i e, At t i e → e.key ≠ k) :
    ∃ t', t.insert hash k v = some t' ∧ Good hash t' ∧ t'.n = t.n + 1 ∧
      ∀ k' v', Maps t' k' v' ↔ if k' = k then v' = v else Maps t k' v' := by
  obtain ⟨j, hj⟩ := exists_free (show t.slots.countP Option.isSome < t.slots.length by rw [hg.count]; exact hroom)
  obtain ⟨i, hi, hfree⟩ := freeFrom_spec hroom hj
  have hlt := (List.getElem?_eq_some_iff.mp hfree).1
  have hget : t.slots[i] = none := (List.getElem?_eq_some_iff.mp hfree).2
  have hnew : ∀ {j f}, At ⟨t.n + 1, t.slots.set i (some ⟨k, v, hash k⟩)⟩ j f ↔
      j = i ∧ f = ⟨k, v, hash k⟩ ∨ j ≠ i ∧ At t j f := by
    intro j f
    rw [at_set hlt, Option.some.injEq, eq_comm (a := (⟨k, v, hash k⟩ : SlotEntry κ ν η))]
  refine ⟨_, by rw [SlotTable.insert, hi]; rfl, ⟨?_, by simpa using hg.nonempty, fun j f h => ?_,
    fun j j' f f' h h' e => ?_⟩, rfl, fun k' v' => ?_⟩
  · show (t.slots.set i _).countP _ = _
    rw [List.countP_set hlt, hget, hg.count]
    simp
  · rcases hnew.mp h with ⟨-, rfl⟩ | ⟨-, h⟩
    · rfl
    · exact hg.hashed j f h
  · rcases hnew.mp h with ⟨hj, hf⟩ | ⟨-, h⟩
    · rcases hnew.mp h' with ⟨hj', -⟩ | ⟨-, h'⟩
      · exact hj.trans hj'.symm
      · exact absurd (by rw [← e, hf]) (hk j' f' h')
    · rcases hnew.mp h' with ⟨-, hf'⟩ | ⟨-, h'⟩
      · exact absurd (by rw [e, hf']) (hk j f h)
      · exact hg.distinct j j' f f' h h' e
  · constructor
    · intro hm
      obtain ⟨j, f, hf, rfl, rfl⟩ := hm
      rcases hnew.mp hf with ⟨-, rfl⟩ | ⟨-, h⟩
      · rw [if_pos rfl]
      · rw [if_neg (hk j f h)]
        exact ⟨j, f, h, rfl, rfl⟩
    · intro hm
      split at hm
      · rename_i hk'
        exact ⟨i, _, hnew.mpr (Or.inl ⟨rfl, rfl⟩), hk'.symm, hm.symm⟩
      · obtain ⟨j, f, h, hfk, hfv⟩ := hm
        have hji : j ≠ i := by
          intro e
          subst e
          have hno : some none = some (some f) := hfree.symm.trans h
          cases hno
        exact ⟨j, f, hnew.mpr (Or.inr ⟨hji, h⟩), hfk, hfv⟩

omit [DecidableEq η] in
/-- A new value for a key that is there. -/
theorem Good.replace (hg : Good hash t) {e : SlotEntry κ ν η} (he : At t i e) :
    Good hash (t.replace i v) ∧ (t.replace i v).n = t.n ∧
      ∀ k' v', Maps (t.replace i v) k' v' ↔ if k' = e.key then v' = v else Maps t k' v' := by
  have hlt := he.lt
  have hslot : t.slots[i]? = some (some e) := he
  have heq : t.replace i v = ⟨t.n, t.slots.set i (some { e with val := v })⟩ := by
    unfold SlotTable.replace
    rw [hslot]
  have hget : t.slots[i] = some e := (List.getElem?_eq_some_iff.mp hslot).2
  have hnew : ∀ {j f}, At (t.replace i v) j f ↔ j = i ∧ f = { e with val := v } ∨ j ≠ i ∧ At t j f := by
    intro j f
    rw [heq, at_set hlt, Option.some.injEq, eq_comm (a := ({ e with val := v } : SlotEntry κ ν η))]
  -- the entries of the new table under their old values
  have hold : ∀ {j f}, At (t.replace i v) j f → ∃ g, At t j g ∧ g.key = f.key ∧ g.hash = f.hash := by
    intro j f h
    rcases hnew.mp h with ⟨rfl, rfl⟩ | ⟨-, h⟩
    · exact ⟨e, he, rfl, rfl⟩
    · exact ⟨f, h, rfl, rfl⟩
  refine ⟨⟨?_, ?_, fun j f h => ?_, fun j j' f f' h h' hkey => ?_⟩, by rw [heq], fun k' v' => ?_⟩
  · rw [heq]
    show (t.slots.set i _).countP _ = _
    have hpos : 0 < t.slots.countP Option.isSome :=
      List.countP_pos_iff.mpr ⟨_, List.mem_of_getElem? hslot, rfl⟩
    rw [List.countP_set hlt, hget, ← hg.count]
    simp only [Option.isSome_some, if_true]
    omega
  · rw [heq]; simpa using hg.nonempty
  · obtain ⟨g, hat, hk, hh⟩ := hold h
    rw [← hh, ← hk]
    exact hg.hashed j g hat
  · obtain ⟨g, hat, hk, -⟩ := hold h
    obtain ⟨g', hat', hk', -⟩ := hold h'
    exact hg.distinct j j' g g' hat hat' (by rw [hk, hk', hkey])
  · constructor
    · intro hm
      obtain ⟨j, f, hf, rfl, rfl⟩ := hm
      rcases hnew.mp hf with ⟨-, rfl⟩ | ⟨hji, h⟩
      · rw [if_pos rfl]
      · rw [if_neg fun hkey => hji (hg.distinct j i f e h he hkey)]
        exact ⟨j, f, h, rfl, rfl⟩
    · intro hm
      split at hm
      · rename_i hk'
        exact ⟨i, _, hnew.mpr (Or.inl ⟨rfl, rfl⟩), hk'.symm, hm.symm⟩
      · rename_i hk'
        obtain ⟨j, f, h, hfk, hfv⟩ := hm
        have hji : j ≠ i := by
          intro hj
          subst hj
          have hsame : some (some e) = some (some f) := hslot.symm.trans h
          obtain rfl := Option.some.inj (Option.some.inj hsame)
          exact hk' hfk.symm
        exact ⟨j, f, hnew.mpr (Or.inr ⟨hji, h⟩), hfk, hfv⟩

/-- `set` finds a place, and maps its key to the value and every other as before. -/
theorem Good.set (hg : Good hash t) (k : κ) (v : ν) : ∃ t', t.set hash k v = some t' ∧ Good hash t' ∧
    ∀ k', t'.get hash k' = if k' = k then some v else t.get hash k' := by
  have hfinal : ∀ {t' : SlotTable κ ν η}, Good hash t' →
      (∀ k' v', Maps t' k' v' ↔ if k' = k then v' = v else Maps t k' v') →
      ∀ k', t'.get hash k' = if k' = k then some v else t.get hash k' := by
    intro t' hg' hm k'
    refine Option.ext fun v' => ?_
    rw [hg'.get_iff, hm]
    split
    · exact ⟨fun h => congrArg some h.symm, fun h => (Option.some.inj h).symm⟩
    · exact hg.get_iff.symm
  unfold SlotTable.set
  cases hfound : if 0 < t.n then t.indexOf hash k else none with
  | some i =>
    have hi : t.indexOf hash k = some i := by
      split at hfound
      · exact hfound
      · cases hfound
    obtain ⟨e, he, rfl⟩ := indexOf_some hi
    obtain ⟨hg', -, hm⟩ := hg.replace (v := v) he
    exact ⟨_, rfl, hg', hfinal hg' hm⟩
  | none =>
    have hnew : ∀ i e, At t i e → e.key ≠ k := by
      split at hfound
      · exact hg.indexOf_none hfound
      · -- an empty table is not searched
        rename_i hzero
        intro i e he
        have hpos : 0 < t.slots.countP Option.isSome := List.countP_pos_iff.mpr ⟨_, List.mem_of_getElem? he, rfl⟩
        rw [hg.count] at hpos
        exact absurd hpos hzero
    obtain ⟨hgrow, hroom, hmap⟩ := hg.grow
    have hnew' : ∀ i e, At t.grow i e → e.key ≠ k := by
      intro i e he hk
      obtain ⟨j, f, hf, hfk, -⟩ := (hmap k e.val).mp ⟨i, e, he, hk, rfl⟩
      exact hnew j f hf hfk
    obtain ⟨t', ht', hg', -, hm⟩ := hgrow.insert (v := v) hroom hnew'
    refine ⟨t', ht', hg', hfinal hg' fun k' v' => ?_⟩
    rw [hm]
    split
    · exact Iff.rfl
    · exact hmap k' v'

/-- `unset` takes the key out and leaves every other. -/
theorem Good.unset (hg : Good hash t) (k : κ) : Good hash (t.unset hash k) ∧
    ∀ k', (t.unset hash k).get hash k' = if k' = k then none else t.get hash k' := by
  unfold SlotTable.unset
  cases hi : t.indexOf hash k with
  | none =>
    show Good hash t ∧ ∀ k', t.get hash k' = if k' = k then none else t.get hash k'
    refine ⟨hg, fun k' => ?_⟩
    split
    · rename_i hk
      cases hget : t.get hash k' with
      | none => rfl
      | some v =>
        obtain ⟨j, e, he, hek, -⟩ := hg.get_iff.mp hget
        exact absurd (hek.trans hk) (hg.indexOf_none hi j e he)
    · rfl
  | some i =>
    obtain ⟨e, he, rfl⟩ := indexOf_some hi
    have hlt := he.lt
    have hslot : t.slots[i]? = some (some e) := he
    have hget : t.slots[i] = some e := (List.getElem?_eq_some_iff.mp hslot).2
    have hnew : ∀ {j f}, At (⟨t.n - 1, t.slots.set i none⟩ : SlotTable κ ν η) j f ↔ j ≠ i ∧ At t j f := by
      intro j f
      rw [at_set hlt]
      simp
    have hg' : Good hash (⟨t.n - 1, t.slots.set i none⟩ : SlotTable κ ν η) := by
      refine ⟨?_, by simpa using hg.nonempty, fun j f h => hg.hashed j f (hnew.mp h).2,
        fun j j' f f' h h' => hg.distinct j j' f f' (hnew.mp h).2 (hnew.mp h').2⟩
      rw [List.countP_set hlt, hget, hg.count]
      simp
    refine ⟨hg', fun k' => Option.ext fun v' => ?_⟩
    rw [hg'.get_iff]
    split
    · rename_i hk'
      refine iff_of_false (fun hm => ?_) (by simp)
      obtain ⟨j, f, hf, hfk, -⟩ := hm
      obtain ⟨hji, hat⟩ := hnew.mp hf
      exact hji (hg.distinct j i f e hat he (hfk.trans hk'))
    · rename_i hk'
      rw [hg.get_iff]
      constructor
      · intro hm
        obtain ⟨j, f, hf, hfk, hfv⟩ := hm
        exact ⟨j, f, (hnew.mp hf).2, hfk, hfv⟩
      · intro hm
        obtain ⟨j, f, hf, hfk, hfv⟩ := hm
        refine ⟨j, f, hnew.mpr ⟨fun hji => ?_, hf⟩, hfk, hfv⟩
        subst hji
        have hsame : some (some e) = some (some f) := hslot.symm.trans hf
        obtain rfl := Option.some.inj (Option.some.inj hsame)
        exact hk' hfk.symm

/-! ## The count -/

/-- `n` is the number of keys with a value. -/
theorem Good.n_eq (hg : Good hash t) : t.n = Set.ncard {k | (t.get hash k).isSome = true} := by
  have hmem : ∀ k, k ∈ t.slots.filterMap (Option.map (·.key)) ↔ (t.get hash k).isSome = true := by
    intro k
    rw [List.mem_filterMap, Option.isSome_iff_exists]
    constructor
    · intro h
      obtain ⟨s, hs, hk⟩ := h
      obtain ⟨e, rfl, rfl⟩ := Option.map_eq_some_iff.mp hk
      obtain ⟨i, hi⟩ := List.mem_iff_getElem?.mp hs
      exact ⟨e.val, hg.get_iff.mpr ⟨i, e, hi, rfl, rfl⟩⟩
    · intro h
      obtain ⟨v, hv⟩ := h
      obtain ⟨i, e, he, rfl, -⟩ := hg.get_iff.mp hv
      exact ⟨some e, List.mem_of_getElem? he, rfl⟩
  have hnodup : (t.slots.filterMap (Option.map (·.key))).Nodup := by
    refine List.pairwise_filterMap.mpr (List.pairwise_iff_getElem.mpr fun i j hi hj hij k hk k' hk' => ?_)
    obtain ⟨e, he, rfl⟩ := Option.map_eq_some_iff.mp hk
    obtain ⟨f, hf, rfl⟩ := Option.map_eq_some_iff.mp hk'
    intro heq
    have := hg.distinct i j e f (List.getElem?_eq_some_iff.mpr ⟨hi, he⟩) (List.getElem?_eq_some_iff.mpr ⟨hj, hf⟩) heq
    omega
  have hlen : (t.slots.filterMap (Option.map (·.key))).length = t.slots.countP Option.isSome := by
    rw [List.length_filterMap_eq_countP]
    exact List.countP_congr fun s _ => by cases s <;> simp
  have hset : {k | (t.get hash k).isSome = true} = ((t.slots.filterMap (Option.map (·.key))).toFinset : Set κ) := by
    ext k
    rw [Set.mem_ofPred_eq, ← hmem, Finset.mem_coe, List.mem_toFinset]
  rw [hset, Set.ncard_coe_finset, List.toFinset_card_of_nodup hnodup, hlen, hg.count]

/-! ## Sizes -/

theorem set_sizes {t' : SlotTable κ ν η} (h : t.set hash k v = some t') : t'.n ≤ t.n + 1 ∧
    (t'.slots.length = t.slots.length ∨ t.n = t.slots.length ∧ t'.slots.length = 2 * t.slots.length) := by
  unfold SlotTable.set at h
  split at h
  · obtain rfl := Option.some.inj h
    unfold SlotTable.replace
    split
    · exact ⟨Nat.le_succ _, .inl List.length_set⟩
    · exact ⟨Nat.le_succ _, .inl rfl⟩
  · obtain ⟨i, -, rfl⟩ := Option.map_eq_some_iff.mp h
    have hgrown : t.grow.n = t.n ∧
        (t.grow.slots.length = t.slots.length ∨ t.n = t.slots.length ∧ t.grow.slots.length = 2 * t.slots.length) := by
      unfold SlotTable.grow
      split
      case isTrue hfull =>
        refine ⟨rfl, .inr ⟨hfull, ?_⟩⟩
        rw [List.length_append, List.length_replicate, Nat.two_mul]
      case isFalse => exact ⟨rfl, .inl rfl⟩
    refine ⟨Nat.le_of_eq (congrArg (· + 1) hgrown.1), ?_⟩
    rw [List.length_set]
    exact hgrown.2

theorem unset_sizes (t : SlotTable κ ν η) (k : κ) :
    (t.unset hash k).n ≤ t.n ∧ (t.unset hash k).slots.length = t.slots.length := by
  unfold SlotTable.unset
  split
  · exact ⟨Nat.sub_le t.n 1, List.length_set⟩
  · exact ⟨Nat.le_refl _, rfl⟩

end SlotTable

end Ddm.Lib
