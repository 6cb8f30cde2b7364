/-
  Ddm.Registry.UthashMap — a table of `uthash.h` as a map from keys to items, and the
  register mapping on it.

  Proved: over any adds of new keys, changes of items in place and deletes, a look-up
  finds what `Lib.HashTable` says, an iteration goes through all items in the order of
  the adds, no count overflows, and nothing but a call of malloc that fails ends the
  process (`uthash_refines`); so the register mapping on it has the last list of each
  path (`mapping_on_uthash`).
-/

import Ddm.Registry.Mapping
import Ddm.Registry.Uthash

namespace Ddm.Registry.Uthash

open Ddm.Lib
open DoublyLinked (Links)

variable {ι κ : Type}

section Refinement

variable {key : ι → κ} {hash : κ → UInt32} {malloc : Nat → Nat → Bool} {m : Mem ι} {t : Table} {l : List Nat}
  {a : Nat} {i : ι} {abs : List ι}

/-! ## The table as a map -/

/-- The table of the items `abs`, the newest first, which are those of `l`. -/
structure Tabled (key : ι → κ) (hash : κ → UInt32) (m : Mem ι) (abs : List ι) (t : Table) (l : List Nat) : Prop where
  tbl : m.tbl = some t
  ne : l ≠ []
  stores : Stores key hash m t l (· ∈ l)
  content : l.reverse.map m.item = abs.map some

/-- An empty table is a NULL `head`. -/
inductive Holds (key : ι → κ) (hash : κ → UInt32) (m : Mem ι) : List ι → Prop
  | null : m.head = none → m.tbl = none → Holds key hash m []
  | table {abs : List ι} (t : Table) (l : List Nat) : Tabled key hash m abs t l → Holds key hash m abs

theorem Tabled.head (h : Tabled key hash m abs t l) : ∃ first, m.head = some first := by
  rw [DoublyLinked.chain_head h.stores.order.forward]
  exact Option.isSome_iff_exists.mp (by rw [List.isSome_head?]; simpa using h.ne)

theorem Tabled.item_mem (h : Tabled key hash m abs t l) (ha : a ∈ l) (hi : m.item a = some i) : i ∈ abs := by
  have hin : some i ∈ l.reverse.map m.item := List.mem_map.mpr ⟨a, List.mem_reverse.mpr ha, hi⟩
  rw [h.content] at hin
  obtain ⟨j, hj, hji⟩ := List.mem_map.mp hin
  exact Option.some.inj hji ▸ hj

theorem Tabled.mem_item (h : Tabled key hash m abs t l) (hi : i ∈ abs) : ∃ a ∈ l, m.item a = some i := by
  have hin : some i ∈ abs.map some := List.mem_map_of_mem hi
  rw [← h.content] at hin
  obtain ⟨a, ha, hai⟩ := List.mem_map.mp hin
  exact ⟨a, List.mem_reverse.mp ha, hai⟩

theorem Tabled.length (h : Tabled key hash m abs t l) : l.length = abs.length := by
  have hlength := congrArg List.length h.content
  simpa using hlength

theorem added_holds {m' : Mem ι} (h : Added key hash m l m') (hne : l ≠ [])
    (hitems : l.reverse.map m.item = abs.map some) : Holds key hash m' abs := by
  obtain ⟨hitem, t, ht, hs⟩ := h
  exact .table t l ⟨ht, hne, hs, hitem ▸ hitems⟩

theorem add_holds (hmalloc : Limited malloc) (h : Holds key hash m abs) (size : Nat) (i : ι) :
    Safe malloc (fun m => Holds key hash m (i :: abs))
      (newItem malloc size i m >>= fun r => hashAdd key hash malloc r.2 r.1) := by
  unfold newItem
  split
  case isFalse hfull => exact Bool.eq_false_iff.mpr hfull
  case isTrue =>
    set m' : Mem ι := { m with item := Function.update m.item m.mallocs (some i), mallocs := m.mallocs + 1 } with hm'
    have hi : m'.item m.mallocs = some i := Function.update_self ..
    show Safe malloc _ (hashAdd key hash malloc m' m.mallocs)
    cases h with
    | null hhead =>
      refine (add_first (m := m') hmalloc hhead hi (Nat.lt_succ_self _)).imp fun _ hadded =>
        added_holds hadded (by simp) ?_
      rw [List.reverse_singleton, List.map_singleton, hi]
      rfl
    | table t l h =>
      have hnot : m.mallocs ∉ l := fun hin => Nat.lt_irrefl _ (h.stores.named _ hin)
      have hsame : ∀ a ∈ l, m'.item a = m.item a := fun a ha => Function.update_of_ne (ne_of_mem_of_not_mem ha hnot) ..
      have hstores : Stores key hash m' t l (· ∈ l) := by
        refine ⟨h.stores.order, h.stores.num, h.stores.size, h.stores.small, h.stores.spread, fun a ha => ?_,
          fun a ha => ?_⟩
        · rw [hsame a ha]
          exact h.stores.hashed a ha
        · exact Nat.lt_succ_of_lt (h.stores.named a ha)
      obtain ⟨first, hfirst⟩ := h.head
      have hsome : m'.head.isSome = true := by rw [show m'.head = some first from hfirst]; rfl
      refine (add_next hmalloc hstores h.tbl hsome hi (Nat.lt_succ_self _) hnot).imp fun _ hadded =>
        added_holds hadded (by simp) ?_
      rw [List.reverse_append, List.reverse_singleton, List.singleton_append, List.map_cons, hi, List.map_cons]
      rw [List.map_congr_left fun a ha => hsame a (List.mem_reverse.mp ha), h.content]

variable [DecidableEq κ] {k : κ}

theorem findInBkt_chain {c : List Nat} {fuel : Nat} {head : Option Nat} (h : LinkedList.Chain m.hh.next head c)
    (hfuel : c.length ≤ fuel) :
    findInBkt key m k fuel head = .ok (c.find? fun a => (m.item a).map key = some k) := by
  induction h generalizing fuel with
  | nil => cases fuel <;> rfl
  | @cons a c _ ih =>
    cases fuel with
    | zero => cases hfuel
    | succ fuel =>
      rw [findInBkt]
      split
      case isTrue hk => rw [List.find?_cons_of_pos (by simpa using hk)]
      case isFalse hk => rw [List.find?_cons_of_neg (by simpa using hk), ih (Nat.le_of_succ_le_succ hfuel)]

/-- What `HASH_FIND` finds in a table. -/
theorem Tabled.find (h : Tabled key hash m abs t l) (hl : HashTable.Distinct key abs) (k : κ) :
    (hashFind key hash m k = .ok none ∧ HashTable.find key abs k = none) ∨
      ∃ a ∈ l, ∃ i, hashFind key hash m k = .ok (some a) ∧ m.item a = some i ∧ HashTable.find key abs k = some i := by
  obtain ⟨first, hfirst⟩ := h.head
  obtain ⟨b, hb⟩ := h.stores.spread.has h.stores.size (hash k)
  obtain ⟨c, hfiled⟩ := h.stores.spread.bucket _ b hb
  have hlength : c.length ≤ t.numItems := h.stores.num ▸ hfiled.length_le
  obtain ⟨⟨last, hlinked⟩, -, hmem⟩ := hfiled
  have hfind : hashFind key hash m k = .ok (c.find? fun a => (m.item a).map key = some k) := by
    simp only [hashFind, hfirst, h.tbl, hb]
    exact findInBkt_chain hlinked.forward hlength
  rw [hfind]
  cases hc : c.find? fun a => (m.item a).map key = some k with
  | none =>
    refine .inl ⟨rfl, HashTable.find_eq_none.mpr fun i hi hk => ?_⟩
    obtain ⟨a, ha, hai⟩ := h.mem_item hi
    obtain ⟨j, hj, hhash⟩ := h.stores.hashed a ha
    obtain rfl : i = j := Option.some.inj (hai.symm.trans hj)
    have hin : a ∈ c := (hmem a).mpr ⟨ha, by rw [hhash, hk]⟩
    have hnone := List.find?_eq_none.mp hc a hin
    rw [hai, Option.map_some, hk] at hnone
    exact hnone (decide_eq_true rfl)
  | some a =>
    have ha := ((hmem a).mp (List.mem_of_find?_eq_some hc)).1
    have hkey := List.find?_some hc
    rw [decide_eq_true_eq] at hkey
    obtain ⟨i, hi, hk⟩ := Option.map_eq_some_iff.mp hkey
    exact .inr ⟨a, ha, i, rfl, hi, hl.find_iff.mpr ⟨h.item_mem ha hi, hk⟩⟩

omit [DecidableEq κ] in
/-- One item has one place. -/
theorem Tabled.unique (h : Tabled key hash m abs t l) (hl : HashTable.Distinct key abs) {b : Nat} (ha : a ∈ l)
    (hb : b ∈ l) (hsame : m.item a = m.item b) : a = b := by
  have hnodup : (l.reverse.map m.item).Nodup := by
    rw [h.content]
    exact (List.Nodup.of_map _ hl).map (Option.some_injective ι)
  exact List.inj_on_of_nodup_map hnodup (List.mem_reverse.mpr ha) (List.mem_reverse.mpr hb) hsame

/-- The found item's place in the table and in the map. -/
theorem Tabled.place (h : Tabled key hash m abs t l) (hl : HashTable.Distinct key abs) (ha : a ∈ l)
    (hi : m.item a = some i) (hfind : HashTable.find key abs k = some i) : ∃ x y u v, l = x ++ a :: y ∧
      y.reverse.map m.item = v.map some ∧ x.reverse.map m.item = u.map some ∧
      (∀ f, HashTable.modify key abs k f = v ++ f i :: u) ∧ HashTable.del key abs k = v ++ u := by
  obtain ⟨v, u, hsplit, hmodify, hdel⟩ := HashTable.find_split hfind
  have hcontent := h.content
  rw [hsplit, List.map_append, List.map_cons] at hcontent
  obtain ⟨before, rest, hrev, hbefore, hrest⟩ := List.map_eq_append_iff.mp hcontent
  obtain ⟨b, behind, rfl, hb, hbehind⟩ := List.map_eq_cons_iff.mp hrest
  have hsplit : l = behind.reverse ++ b :: before.reverse := by
    have hflip := congrArg List.reverse hrev
    simpa using hflip
  have hin : b ∈ l := hsplit ▸ List.mem_append_right _ List.mem_cons_self
  obtain rfl : b = a := h.unique hl hin ha (hb.trans hi.symm)
  exact ⟨behind.reverse, before.reverse, u, v, hsplit, by rw [List.reverse_reverse, hbefore],
    by rw [List.reverse_reverse, hbehind], hmodify, hdel⟩

theorem set_holds {new : ι} (h : Tabled key hash m abs t l) (hl : HashTable.Distinct key abs) (ha : a ∈ l)
    (hi : m.item a = some i) (hfind : HashTable.find key abs k = some i) (hkey : key new = k) :
    Holds key hash { m with item := Function.update m.item a (some new) }
      (HashTable.modify key abs k fun _ => new) := by
  obtain ⟨x, y, u, v, rfl, hy, hx, hmodify, -⟩ := h.place hl ha hi hfind
  have hnot : a ∉ x ++ y := (List.nodup_cons.mp (List.nodup_middle.mp h.stores.order.nodup)).1
  have hsame : ∀ z ∈ x ++ y, Function.update m.item a (some new) z = m.item z := fun z hz =>
    Function.update_of_ne (ne_of_mem_of_not_mem hz hnot) ..
  refine .table t (x ++ a :: y) ⟨h.tbl, h.ne, ⟨h.stores.order, h.stores.num, h.stores.size, h.stores.small,
    h.stores.spread, ?_, h.stores.named⟩, ?_⟩
  · intro z hz
    obtain ⟨j, hj, hhash⟩ := h.stores.hashed z hz
    by_cases hza : z = a
    · subst hza
      obtain rfl : j = i := Option.some.inj (hj.symm.trans hi)
      exact ⟨new, Function.update_self .., by rw [hhash, hkey, (HashTable.find_key hfind).2]⟩
    · exact ⟨j, (Function.update_of_ne hza ..).trans hj, hhash⟩
  · rw [hmodify, List.reverse_append, List.reverse_cons, List.append_assoc, List.singleton_append, List.map_append,
      List.map_cons, List.map_append, List.map_cons]
    show y.reverse.map (Function.update m.item a (some new)) ++ Function.update m.item a (some new) a ::
      x.reverse.map (Function.update m.item a (some new)) = _
    rw [Function.update_self,
      List.map_congr_left fun z hz => hsame z (List.mem_append_right x (List.mem_reverse.mp hz)),
      List.map_congr_left fun z hz => hsame z (List.mem_append_left y (List.mem_reverse.mp hz)), hx, hy]

theorem del_holds (h : Tabled key hash m abs t l) (hl : HashTable.Distinct key abs) (ha : a ∈ l)
    (hi : m.item a = some i) (hfind : HashTable.find key abs k = some i) :
    ∃ m', hashDelete m a = .ok m' ∧ Holds key hash m' (HashTable.del key abs k) := by
  obtain ⟨x, y, u, v, rfl, hy, hx, -, hdel⟩ := h.place hl ha hi hfind
  have hcontent : (x ++ y).reverse.map m.item = (v ++ u).map some := by
    rw [List.reverse_append, List.map_append, List.map_append, hx, hy]
  rw [hdel]
  by_cases hne : x ++ y = []
  · rw [hne] at hcontent
    obtain ⟨rfl, rfl⟩ := List.append_eq_nil_iff.mp hne
    rw [List.map_eq_nil_iff.mp hcontent.symm]
    exact ⟨_, delete_last h.stores.order, .null rfl rfl⟩
  · obtain ⟨m', hm', hadded⟩ := delete_ok h.stores h.tbl hne
    exact ⟨m', hm', added_holds hadded hne hcontent⟩

omit [DecidableEq κ] in
theorem iterFrom_chain {app : Links Nat} {head : Option Nat} {fuel : Nat} (h : LinkedList.Chain app.next head l)
    (hfuel : l.length ≤ fuel) : iterFrom app fuel head = .ok l := by
  induction h generalizing fuel with
  | nil => cases fuel <;> rfl
  | cons _ ih =>
    cases fuel with
    | zero => cases hfuel
    | succ fuel =>
      rw [iterFrom, ih (Nat.le_of_succ_le_succ hfuel)]
      rfl

omit [DecidableEq κ] in
theorem Holds.iter (h : Holds key hash m abs) : hashCount m = .ok abs.length ∧
    ∃ els, hashIter m = .ok els ∧ els.map m.item = abs.reverse.map some := by
  cases h with
  | null hhead =>
    refine ⟨by rw [hashCount, hhead]; rfl, [], ?_, rfl⟩
    rw [hashIter, hashCount, hhead]
    rfl
  | table t l h =>
    obtain ⟨first, hfirst⟩ := h.head
    have hcount : hashCount m = .ok t.numItems := by rw [hashCount, hfirst, h.tbl]
    refine ⟨by rw [hcount, h.stores.num, h.length], l, ?_, ?_⟩
    · rw [hashIter, hcount]
      exact iterFrom_chain h.stores.order.forward (Nat.le_of_eq h.stores.num.symm)
    · rw [← List.reverse_inj, ← List.map_reverse, ← List.map_reverse, List.reverse_reverse, h.content]

theorem Holds.find (h : Holds key hash m abs) (hl : HashTable.Distinct key abs) (k : κ) :
    ∃ found, hashFind key hash m k = .ok found ∧ found.map m.item = (HashTable.find key abs k).map some := by
  cases h with
  | null hhead => exact ⟨none, by rw [hashFind, hhead], rfl⟩
  | table t l h =>
    rcases h.find hl k with ⟨hnone, hfind⟩ | ⟨a, -, i, hsome, hi, hfind⟩
    · exact ⟨none, hnone, by rw [hfind]; rfl⟩
    · exact ⟨some a, hsome, by rw [hfind, Option.map_some, hi]; rfl⟩

/-! ## A run -/

theorem modify_absent (f : ι → ι) (h : HashTable.find key abs k = none) : HashTable.modify key abs k f = abs := by
  induction abs with
  | nil => rfl
  | cons j abs ih =>
    have hall := HashTable.find_eq_none.mp h
    rw [HashTable.modify, if_neg (hall j List.mem_cons_self),
      ih (HashTable.find_eq_none.mpr fun x hx => hall x (List.mem_cons_of_mem _ hx))]

theorem del_absent (h : HashTable.find key abs k = none) : HashTable.del key abs k = abs :=
  List.eraseP_of_forall_not fun j hj => by simpa using HashTable.find_eq_none.mp h j hj

theorem distinct_step (hl : HashTable.Distinct key abs) (op : Op ι κ) :
    HashTable.Distinct key (listStep key abs op) := by
  cases op with
  | add i =>
    rw [listStep]
    split
    case isTrue => exact hl
    case isFalse hnot => exact hl.add (Option.not_isSome_iff_eq_none.mp hnot)
  | set i =>
    rw [listStep]
    cases hi : HashTable.find key abs (key i) with
    | some old =>
      obtain ⟨x, y, hsplit, hmodify, -⟩ := HashTable.find_split hi
      rw [HashTable.Distinct, hmodify, List.map_append, List.map_cons, ← (HashTable.find_key hi).2]
      rwa [HashTable.Distinct, hsplit, List.map_append, List.map_cons] at hl
    | none => rwa [modify_absent _ hi]
  | del k => exact hl.del k

/-- A look-up and what the caller makes of it. -/
theorem Holds.look {P : Mem ι → Prop} {f : Option Nat → Except Exit (Mem ι)} (h : Holds key hash m abs)
    (hl : HashTable.Distinct key abs) (k : κ) (hnone : HashTable.find key abs k = none → Safe malloc P (f none))
    (hsome : ∀ t l a i, Tabled key hash m abs t l → a ∈ l → m.item a = some i → HashTable.find key abs k = some i →
      Safe malloc P (f (some a))) : Safe malloc P (hashFind key hash m k >>= f) := by
  cases h with
  | null hhead =>
    rw [hashFind, hhead]
    exact hnone rfl
  | table t l h =>
    rcases h.find hl k with ⟨hfound, hfind⟩ | ⟨a, ha, i, hfound, hi, hfind⟩
    · rw [hfound]
      exact hnone hfind
    · rw [hfound]
      exact hsome t l a i h ha hi hfind

theorem step_holds (hmalloc : Limited malloc) (h : Holds key hash m abs) (hl : HashTable.Distinct key abs)
    (size : Nat) (op : Op ι κ) :
    Safe malloc (fun m => Holds key hash m (listStep key abs op)) (step key hash malloc size m op) := by
  cases op with
  | add i =>
    refine h.look hl (key i) (fun hfind => ?_) fun t l a j _ _ _ hfind => ?_
    · rw [listStep, hfind]
      exact add_holds hmalloc h size i
    · rw [listStep, hfind]
      exact h
  | set i =>
    refine h.look hl (key i) (fun hfind => ?_) fun t l a j ht ha hj hfind => ?_
    · rw [listStep, modify_absent _ hfind]
      exact h
    · exact set_holds ht hl ha hj hfind rfl
  | del k =>
    refine h.look hl k (fun hfind => ?_) fun t l a j ht ha hj hfind => ?_
    · rw [listStep, del_absent hfind]
      exact h
    · obtain ⟨m', hm', hholds⟩ := del_holds ht hl ha hj hfind
      show Safe malloc _ (hashDelete m a)
      rw [hm']
      exact hholds

theorem length_step (abs : List ι) (op : Op ι κ) : (listStep key abs op).length ≤ abs.length + 1 := by
  cases op with
  | add i =>
    rw [listStep]
    split
    · exact Nat.le_succ _
    · exact Nat.le_refl _
  | set i =>
    rw [listStep]
    cases hi : HashTable.find key abs (key i) with
    | some old =>
      obtain ⟨x, y, hsplit, hmodify, -⟩ := HashTable.find_split hi
      rw [hmodify, hsplit, List.length_append, List.length_append]
      exact Nat.le_succ _
    | none =>
      rw [modify_absent _ hi]
      exact Nat.le_succ _
  | del k => exact Nat.le_succ_of_le (List.length_eraseP_le)

theorem length_run (ops : List (Op ι κ)) : ∀ abs, (ops.foldl (listStep key) abs).length ≤ abs.length + ops.length := by
  induction ops with
  | nil => exact fun abs => Nat.le_refl _
  | cons op ops ih =>
    intro abs
    have hone : (listStep key abs op).length ≤ abs.length + 1 := length_step abs op
    have hrest := ih (listStep key abs op)
    rw [List.foldl_cons, List.length_cons]
    omega

omit [DecidableEq κ] in
theorem Holds.fits (h : Holds key hash m abs) (hcount : abs.length < 2 ^ 28) : m.Fits := by
  intro t ht
  cases h with
  | null _ htbl =>
    rw [htbl] at ht
    cases ht
  | table t' l h =>
    obtain rfl : t' = t := Option.some.inj (h.tbl.symm.trans ht)
    refine ⟨h.stores.small, ?_⟩
    rw [h.stores.num, h.length]
    exact hcount

theorem run_holds (hmalloc : Limited malloc) (size : Nat) (ops : List (Op ι κ)) :
    ∀ {m : Mem ι} {abs : List ι}, Holds key hash m abs → HashTable.Distinct key abs →
    Safe malloc (fun m => Holds key hash m (ops.foldl (listStep key) abs) ∧
        HashTable.Distinct key (ops.foldl (listStep key) abs))
      (ops.foldlM (step key hash malloc size) m) := by
  induction ops with
  | nil => exact fun h hl => ⟨h, hl⟩
  | cons op ops ih =>
    intro m abs h hl
    rw [List.foldlM_cons]
    exact (step_holds hmalloc h hl size op).bind fun _ h' => ih h' (distinct_step hl op)

/-- The table of `uthash.h` is the map its uses describe, whatever the hashes and however
    often it grows; only a call of malloc that fails ends the process. -/
theorem uthash_refines (key : ι → κ) (hash : κ → UInt32) (hmalloc : Limited malloc) (size : Nat) {ops : List (Op ι κ)}
    (hops : ops.length < 2 ^ 28) :
    Safe malloc (fun m => m.Fits ∧
        (∀ k, ∃ found, hashFind key hash m k = .ok found ∧
          found.map m.item = (HashTable.find key (ops.foldl (listStep key) []) k).map some) ∧
        (∃ els, hashIter m = .ok els ∧ els.map m.item = (ops.foldl (listStep key) []).reverse.map some) ∧
        hashCount m = .ok (ops.foldl (listStep key) []).length ∧
        HashTable.Distinct key (ops.foldl (listStep key) []))
      (ops.foldlM (step key hash malloc size) Mem.init) :=
  (run_holds hmalloc size ops (.null rfl rfl) List.nodup_nil).imp fun _ h =>
    ⟨h.1.fits (Nat.lt_of_le_of_lt (length_run ops []) (by rwa [List.length_nil, Nat.zero_add])),
      h.1.find h.2, h.1.iter.2, h.1.iter.1, h.2⟩

end Refinement

/-- Any malloc below 32 GiB. -/
def enough (_call size : Nat) : Bool := size < 2 ^ 35

theorem enough_limited : Limited enough := fun _ _ hlarge => decide_eq_false (Nat.not_lt.mpr hlarge)

def sampleOps : List (Op (Nat × Nat) Nat) := [.add (1, 10), .add (2, 20), .set (1, 11), .add (3, 30), .del 2]

/-- In one bucket: an item changed, and the one between the others deleted. -/
theorem uthash_refines_sample : ∃ m, sampleOps.foldlM (step Prod.fst (fun _ => 0) enough 72) Mem.init = .ok m ∧
    (∃ found, hashFind Prod.fst (fun _ => 0) m 1 = .ok found ∧ found.map m.item = some (some (1, 11))) ∧
    (∃ els, hashIter m = .ok els ∧ els.map m.item = [some (1, 11), some (3, 30)]) ∧ hashCount m = .ok 2 := by
  have hsafe := @uthash_refines _ _ enough _ Prod.fst (fun _ => 0) enough_limited 72 sampleOps (by decide)
  have hgoes : (sampleOps.foldlM (step Prod.fst (fun _ => 0) enough 72) Mem.init).isOk = true := by decide
  obtain ⟨m, hrun, -, hfind, hiter, hcount, -⟩ := hsafe.of_isOk hgoes
  exact ⟨m, hrun, hfind 1, hiter, hcount⟩

def tenAdds : List (Op Nat Nat) := (List.range 10).map .add

/-- The tenth item in one bucket doubles the buckets. -/
example : ((tenAdds.foldlM (step id (fun _ => 0) enough 64) Mem.init).toOption.bind Mem.tbl).map (·.buckets.length) =
    some 64 := by decide

/-! ## The register mapping -/

/-- `sizeof(register_map_item)` -/
abbrev sizeofRegisterMapItem : Nat := 128

/-- `register_mapping_put` on the table. -/
def mappingPut (hash : CStr → UInt32) (malloc : Nat → Nat → Bool) (m : Mem RegisterMapItem) (put : Put) :
    Except Exit (Mem RegisterMapItem) := do
  match ← hashFind RegisterMapItem.key hash m put.1 with
  | some a =>
    return { m with item := Function.update m.item a ((m.item a).map fun item => { item with infoArray := put.2 }) }
  | none =>
    newItem malloc sizeofRegisterMapItem ⟨snprintf providerKeyLen put.1, put.2⟩ m >>= fun r =>
      hashAdd RegisterMapItem.key hash malloc r.2 r.1

/-- `register_mapping_find` -/
def mappingFind (hash : CStr → UInt32) (m : Mem RegisterMapItem) (path : CStr) :
    Except Exit (Option RegisterInfoArray) :=
  (hashFind RegisterMapItem.key hash m path).map fun found => (found.bind m.item).bind (·.infoArray)

section Mapping

variable {hash : CStr → UInt32} {malloc : Nat → Nat → Bool} {m : Mem RegisterMapItem} {abs : List RegisterMapItem}

theorem mappingPut_holds (hmalloc : Limited malloc) (h : Holds RegisterMapItem.key hash m abs)
    (hl : HashTable.Distinct RegisterMapItem.key abs) (put : Put) :
    Safe malloc (fun m => Holds RegisterMapItem.key hash m (registerMappingPut abs put.1 put.2))
      (mappingPut hash malloc m put) := by
  refine h.look hl put.1 (fun hfind => ?_) fun t l a old ht ha hi hfind => ?_
  · rw [registerMappingPut, registerMappingFindItem, hfind]
    exact add_holds hmalloc h _ _
  · obtain ⟨-, hkey⟩ := HashTable.find_key hfind
    obtain ⟨x, y, -, hmodify, -⟩ := HashTable.find_split hfind
    have hset : Holds RegisterMapItem.key hash
        { m with item := Function.update m.item a (some { old with infoArray := put.2 }) } _ :=
      set_holds ht hl ha hi hfind hkey
    rw [hmodify] at hset
    rw [registerMappingPut, registerMappingFindItem, hfind]
    show Holds _ hash { m with item := Function.update m.item a ((m.item a).map _) } _
    rw [hi, hmodify]
    exact hset

theorem length_putAll (puts : List Put) : (putAll puts).length ≤ puts.length := by
  induction puts using List.reverseRecOn with
  | nil => exact Nat.le_refl 0
  | append_singleton puts put ih =>
    have hkeys := congrArg List.length (keys_put (putAll puts) put.1 put.2)
    rw [List.length_map] at hkeys
    rw [putAll_concat, hkeys, List.length_append, List.length_singleton]
    split
    · rw [List.length_map]
      exact Nat.le_succ_of_le ih
    · rw [List.length_cons, List.length_map]
      exact Nat.succ_le_succ ih

theorem mappingFind_holds (h : Holds RegisterMapItem.key hash m abs) (hl : HashTable.Distinct RegisterMapItem.key abs)
    (path : CStr) : mappingFind hash m path = .ok (registerMappingFind abs path) := by
  obtain ⟨found, hfound, hitem⟩ := h.find hl path
  rw [mappingFind, hfound, registerMappingFind, registerMappingFindItem]
  show Except.ok ((found.bind m.item).bind _) = _
  cases found with
  | none =>
    rw [Option.map_none] at hitem
    rw [Option.map_eq_none_iff.mp hitem.symm]
    rfl
  | some a =>
    obtain ⟨i, hi, hai⟩ := Option.map_eq_some_iff.mp hitem.symm
    rw [hi, Option.bind_some, ← hai]

end Mapping

/-- Where no path is too long for a key, the mapping on its table finds the last list put
    for each path. -/
theorem mapping_on_uthash (hash : CStr → UInt32) {malloc : Nat → Nat → Bool} (hmalloc : Limited malloc)
    {puts : List Put} (hputs : puts.length < 2 ^ 28) (hfit : ∀ x ∈ puts, x.1.length < providerKeyLen) :
    Safe malloc (fun m => m.Fits ∧ ∀ path, mappingFind hash m path = .ok (lastPut puts path))
      (puts.foldlM (mappingPut hash malloc) Mem.init) := by
  have hapart : ∀ {l : List Put}, (∀ x ∈ l, x.1.length < providerKeyLen) → l.Pairwise KeyApart := fun hl =>
    List.pairwise_iff_forall_sublist.mpr fun hsub hlong => absurd (hl _ (hsub.mem (by simp))) hlong
  have hrun : Safe malloc (fun m => Holds RegisterMapItem.key hash m (putAll puts))
      (puts.foldlM (mappingPut hash malloc) Mem.init) := by
    clear hputs
    induction puts using List.reverseRecOn with
    | nil => exact Holds.null rfl rfl
    | append_singleton puts put ih =>
      have hfits : ∀ x ∈ puts, x.1.length < providerKeyLen := fun x hx => hfit x (List.mem_append_left _ hx)
      rw [List.foldlM_append, putAll_concat]
      refine (ih hfits).bind fun m h => ?_
      rw [List.foldlM_cons]
      exact (mappingPut_holds hmalloc h ((distinct_iff puts).mpr (hapart hfits)) put).bind fun _ h' => h'
  refine hrun.imp fun m h => ⟨h.fits (Nat.lt_of_le_of_lt (length_putAll puts) hputs), fun path => ?_⟩
  rw [mappingFind_holds h ((distinct_iff puts).mpr (hapart hfit)),
    find_law (hapart hfit) fun x hx hlong => absurd (hfit x hx) hlong]

def samplePuts : List Put :=
  [(.lit "/g/providers", some []), (.lit "/h/providers", some []), (.lit "/g/providers", none)]

/-- All hashes are equal and all memory is there: two items are added, in four calls of
    malloc, and the first gets its second list. -/
theorem mapping_on_uthash_sample :
    ∃ m, samplePuts.foldlM (mappingPut (fun _ => 0) enough) Mem.init = .ok m ∧ m.mallocs = 4 ∧
      mappingFind (fun _ => 0) m (.lit "/g/providers") = .ok none ∧
      mappingFind (fun _ => 0) m (.lit "/h/providers") = .ok (some []) := by
  have hsafe := @mapping_on_uthash (fun _ => 0) enough enough_limited samplePuts (by decide) (by decide)
  have hgoes : (samplePuts.foldlM (mappingPut (fun _ => 0) enough) Mem.init).isOk = true := by decide
  have hcalls : (samplePuts.foldlM (mappingPut (fun _ => 0) enough) Mem.init).toOption.map Mem.mallocs = some 4 := by
    decide
  obtain ⟨m, hrun, -, hfind⟩ := hsafe.of_isOk hgoes
  rw [hrun] at hcalls
  exact ⟨m, hrun, Option.some.inj hcalls, (hfind _).trans rfl, (hfind _).trans rfl⟩

end Ddm.Registry.Uthash
