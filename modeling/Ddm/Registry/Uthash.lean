/-
  Ddm.Registry.Uthash — the tables of `uthash.h` under the agent's registry, down to the
  links of their items.

  An item is in two doubly linked lists: that of all items, by `prev` and `next`, in the
  order of the adds, and that of its bucket, by `hh_prev` and `hh_next`, the newest first.
  An add to a bucket that has become too long doubles the number of buckets and links
  every item anew, which turns buckets round. A block has the number of the call of
  malloc that gave it for its address. The hash function is any, and so are the calls of
  malloc that fail, as long as those for 2^35 bytes and more do: no other limit keeps
  `num_buckets`, an `unsigned`, from 2^32 (sizes are those of a 64-bit machine).

  Proved: an add, with its expansion, and a delete keep the two lists and the counts, and
  nothing but a call of malloc that fails ends the process (`add_first`, `add_next`,
  `delete_last`, `delete_ok`).
-/

import Mathlib.Algebra.Order.Ring.Int
import Mathlib.Data.List.Perm.Subperm
import Mathlib.Tactic.ByContra
import Mathlib.Tactic.Set
import Mathlib.Tactic.Tauto
import Ddm.Lib.DoublyLinked
import Ddm.Lib.HashTable

namespace Ddm.Registry.Uthash

open Ddm.Lib
open DoublyLinked (Links Linked)

variable {ι κ : Type}

/-! ## The table -/

structure Bucket where
  hhHead : Option Nat
  count : Nat
  expandMult : Nat

structure Table where
  /-- `num_buckets` of them. -/
  buckets : List Bucket
  log2NumBuckets : Nat
  numItems : Nat
  tail : Nat
  idealChainMaxlen : Nat
  nonidealItems : Nat
  ineffExpands : Nat
  noexpand : Bool

/-- The items with their handles, and a table of them. -/
structure Mem (ι : Type) where
  item : Nat → Option ι
  hashv : Nat → UInt32
  /-- `prev` and `next` -/
  app : Links Nat
  /-- `hh_prev` and `hh_next` -/
  hh : Links Nat
  head : Option Nat
  /-- `head->hh.tbl` -/
  tbl : Option Table
  /-- The calls of malloc so far. -/
  mallocs : Nat

def Mem.init : Mem ι where
  item _ := none
  hashv _ := 0
  app := ⟨fun _ => none, fun _ => none⟩
  hh := ⟨fun _ => none, fun _ => none⟩
  head := none
  tbl := none
  mallocs := 0

inductive Exit where
  /-- `uthash_fatal`, when a call of malloc for so many bytes has failed. -/
  | outOfMemory (call size : Nat)
  /-- The caller writes its new item through NULL. -/
  | nullItem (call size : Nat)
  /-- A division by zero, an index behind the buckets, a null pointer followed, a walk
      that does not end. -/
  | fault

abbrev hashInitialNumBuckets : Nat := 32
abbrev hashInitialNumBucketsLog2 : Nat := 5
abbrev hashBktCapacityThresh : Nat := 10

/-- `sizeof(UT_hash_table)` -/
abbrev sizeofTable : Nat := 64

/-- `sizeof(struct UT_hash_bucket)` -/
abbrev sizeofBucket : Nat := 16

def hashToBkt (hashv : UInt32) (numBkts : Nat) : Nat := hashv.toNat &&& (numBkts - 1)

def emptyBuckets (n : Nat) : List Bucket := List.replicate n ⟨none, 0, 0⟩

/-! ## Buckets -/

/-- The new buckets of an expansion, as far as they are filled. -/
structure Filled where
  hh : Links Nat
  buckets : List Bucket
  nonidealItems : Nat

/-- One item of the loop of `HASH_EXPAND_BUCKETS`. -/
def place (hashv : Nat → UInt32) (numBkts ideal : Nat) (s : Filled) (thh : Nat) : Except Exit Filled :=
  let bkt := hashToBkt (hashv thh) numBkts
  match s.buckets[bkt]? with
  | none => .error .fault
  | some b =>
    let hh := DoublyLinked.pushFront s.hh b.hhHead thh
    if b.count + 1 > ideal then
      if ideal = 0 then .error .fault
      else .ok ⟨hh, s.buckets.set bkt ⟨some thh, b.count + 1, (b.count + 1) / ideal⟩, s.nonidealItems + 1⟩
    else .ok ⟨hh, s.buckets.set bkt ⟨some thh, b.count + 1, b.expandMult⟩, s.nonidealItems⟩

/-- `while (_he_thh)`; the bound is on the items of one bucket. -/
def placeChain (hashv : Nat → UInt32) (numBkts ideal : Nat) : Nat → Option Nat → Filled → Except Exit Filled
  | _, none, s => .ok s
  | 0, some _, _ => .error .fault
  | fuel + 1, some thh, s =>
    let nxt := s.hh.next thh
    place hashv numBkts ideal s thh >>= placeChain hashv numBkts ideal fuel nxt

/-- `HASH_DEL_IN_BKT` -/
def delInBkt (hh : Links Nat) (b : Bucket) (del : Nat) : Bucket :=
  { b with count := b.count - 1, hhHead := if b.hhHead = some del then hh.next del else b.hhHead }

/-! ## The macros -/

section Operations

variable [DecidableEq κ] (key : ι → κ) (hash : κ → UInt32) (malloc : Nat → Nat → Bool)

/-- `uthash_malloc`, and the check behind each of its uses. -/
def uthashMalloc (size : Nat) (m : Mem ι) : Except Exit (Mem ι) :=
  if malloc m.mallocs size then .ok { m with mallocs := m.mallocs + 1 } else .error (.outOfMemory m.mallocs size)

def hashExpandBuckets (m : Mem ι) (t : Table) : Except Exit (Mem ι) := do
  let n := 2 * t.buckets.length
  let m ← uthashMalloc malloc (n * sizeofBucket) m
  let ideal := (t.numItems >>> (t.log2NumBuckets + 1)) + if t.numItems &&& (n - 1) ≠ 0 then 1 else 0
  let s ← t.buckets.foldlM (fun s b => placeChain m.hashv n ideal t.numItems b.hhHead s) ⟨m.hh, emptyBuckets n, 0⟩
  let ineff := if s.nonidealItems > t.numItems >>> 1 then t.ineffExpands + 1 else 0
  return { m with
    hh := s.hh
    tbl := some { t with
      buckets := s.buckets
      log2NumBuckets := t.log2NumBuckets + 1
      idealChainMaxlen := ideal
      nonidealItems := s.nonidealItems
      ineffExpands := ineff
      noexpand := t.noexpand || ineff > 1 } }

def hashMakeTable (m : Mem ι) (head : Nat) : Except Exit (Mem ι × Table) := do
  let m ← uthashMalloc malloc sizeofTable m
  let m ← uthashMalloc malloc (hashInitialNumBuckets * sizeofBucket) m
  return (m, ⟨emptyBuckets hashInitialNumBuckets, hashInitialNumBucketsLog2, 0, head, 0, 0, 0, false⟩)

/-- `HASH_ADD_TO_BKT` of the item's bucket. -/
def hashAddToBkt (m : Mem ι) (t : Table) (add : Nat) : Except Exit (Mem ι) :=
  let bkt := hashToBkt (m.hashv add) t.buckets.length
  match t.buckets[bkt]? with
  | none => .error .fault
  | some b =>
    let t := { t with buckets := t.buckets.set bkt ⟨some add, b.count + 1, b.expandMult⟩ }
    let m := { m with hh := DoublyLinked.pushFront m.hh b.hhHead add, tbl := some t }
    if b.count + 1 ≥ (b.expandMult + 1) * hashBktCapacityThresh ∧ t.noexpand = false then
      hashExpandBuckets malloc m t
    else .ok m

/-- `HASH_ADD`: the list of all items, `num_items` and `hashv`; then the bucket. -/
def hashAdd (m : Mem ι) (add : Nat) : Except Exit (Mem ι) := do
  let (m, t) ← match m.head, m.tbl with
    | none, _ => hashMakeTable malloc { m with head := some add, app := (m.app.setNext add none).setPrev add none } add
    | some _, none => .error .fault
    | some _, some t => .ok ({ m with app := DoublyLinked.pushBack m.app t.tail add }, { t with tail := add })
  match m.item add with
  | none => .error .fault
  | some i =>
    hashAddToBkt malloc { m with hashv := Function.update m.hashv add (hash (key i)) }
      { t with numItems := t.numItems + 1 } add

/-- The `while` of `HASH_FIND_IN_BKT`. -/
def findInBkt (m : Mem ι) (k : κ) : Nat → Option Nat → Except Exit (Option Nat)
  | _, none => .ok none
  | 0, some _ => .error .fault
  | fuel + 1, some out =>
    if (m.item out).map key = some k then .ok (some out) else findInBkt m k fuel (m.hh.next out)

def hashFind (m : Mem ι) (k : κ) : Except Exit (Option Nat) :=
  match m.head, m.tbl with
  | none, _ => .ok none
  | some _, none => .error .fault
  | some _, some t =>
    match t.buckets[hashToBkt (hash k) t.buckets.length]? with
    | none => .error .fault
    | some b => findInBkt key m k t.numItems b.hhHead

/-- `tbl->tail`, once the item is gone. -/
def tailWithout (m : Mem ι) (t : Table) (del : Nat) : Except Exit Nat :=
  if del = t.tail then
    match m.app.prev del with
    | some p => .ok p
    | none => .error .fault
  else .ok t.tail

def hashDelete (m : Mem ι) (del : Nat) : Except Exit (Mem ι) :=
  if m.app.prev del = none ∧ m.app.next del = none then .ok { m with head := none, tbl := none }
  else
    match m.tbl with
    | none => .error .fault
    | some t => do
      let tail ← tailWithout m t del
      let bkt := hashToBkt (m.hashv del) t.buckets.length
      match t.buckets[bkt]? with
      | none => .error .fault
      | some b =>
        return { m with
          head := if m.app.prev del = none then m.app.next del else m.head
          app := DoublyLinked.unlink m.app del
          hh := DoublyLinked.unlink m.hh del
          tbl := some { t with
            tail := tail
            buckets := t.buckets.set bkt (delInBkt m.hh b del)
            numItems := t.numItems - 1 } }

def hashCount (m : Mem ι) : Except Exit Nat :=
  match m.head, m.tbl with
  | none, _ => .ok 0
  | some _, none => .error .fault
  | some _, some t => .ok t.numItems

def iterFrom (app : Links Nat) : Nat → Option Nat → Except Exit (List Nat)
  | _, none => .ok []
  | 0, some _ => .error .fault
  | fuel + 1, some el => (iterFrom app fuel (app.next el)).map (el :: ·)

/-- What `HASH_ITER` goes through. -/
def hashIter (m : Mem ι) : Except Exit (List Nat) := hashCount m >>= fun n => iterFrom m.app n m.head

/-! ## The uses of a table -/

/-- The caller's `malloc` of an item, which it does not check, and its writes to it. -/
def newItem (size : Nat) (i : ι) (m : Mem ι) : Except Exit (Nat × Mem ι) :=
  if malloc m.mallocs size then
    .ok (m.mallocs, { m with item := Function.update m.item m.mallocs (some i), mallocs := m.mallocs + 1 })
  else .error (.nullItem m.mallocs size)

/-- `set` changes an item in place, to one with its key. -/
inductive Op (ι κ : Type) where
  | add (i : ι)
  | set (i : ι)
  | del (k : κ)

/-- The callers look for the key first. -/
def step (size : Nat) (m : Mem ι) : Op ι κ → Except Exit (Mem ι)
  | .add i => do
    match ← hashFind key hash m (key i) with
    | some _ => return m
    | none => newItem malloc size i m >>= fun r => hashAdd key hash malloc r.2 r.1
  | .set i => do
    match ← hashFind key hash m (key i) with
    | some a => return { m with item := Function.update m.item a (some i) }
    | none => return m
  | .del k => do
    match ← hashFind key hash m k with
    | some a => hashDelete m a
    | none => return m

/-- The same on the list of the items, the newest first. -/
def listStep (t : List ι) : Op ι κ → List ι
  | .add i => if (HashTable.find key t (key i)).isSome then t else HashTable.add t i
  | .set i => HashTable.modify key t (key i) fun _ => i
  | .del k => HashTable.del key t k

end Operations

/-- The process goes on, and `P` holds, or a call of malloc has failed. -/
def Safe {α : Type} (malloc : Nat → Nat → Bool) (P : α → Prop) : Except Exit α → Prop
  | .ok x => P x
  | .error (.outOfMemory call size) => malloc call size = false
  | .error (.nullItem call size) => malloc call size = false
  | .error .fault => False

/-- No malloc gives 32 GiB. -/
def Limited (malloc : Nat → Nat → Bool) : Prop := ∀ call size, 2 ^ 35 ≤ size → malloc call size = false

/-- `2 * num_buckets` and `(expand_mult + 1) * HASH_BKT_CAPACITY_THRESH` are `unsigned`s,
    as no bucket's count is above `num_items`. -/
def Mem.Fits (m : Mem ι) : Prop := ∀ t, m.tbl = some t → t.buckets.length < 2 ^ 31 ∧ t.numItems < 2 ^ 28

/-! ## The items in their buckets -/

section Spread

variable {hashv hashv' : Nat → UInt32} {hh hh' : Links Nat} {n a : Nat} {bs : List Bucket} {b : Bucket}
  {S S' : Nat → Prop}

theorem hashToBkt_lt (hashv : UInt32) {n k : Nat} (hn : n = 2 ^ k) : hashToBkt hashv n < n := by
  rw [hashToBkt, hn, Nat.and_two_pow_sub_one_eq_mod]
  exact Nat.mod_lt _ (Nat.two_pow_pos k)

/-- A bucket with its own of the items in `S`. -/
def Filed (hashv : Nat → UInt32) (hh : Links Nat) (n : Nat) (S : Nat → Prop) (j : Nat) (b : Bucket) (c : List Nat) :
    Prop :=
  (∃ last, Linked hh b.hhHead last c) ∧ b.count = c.length ∧ ∀ a, a ∈ c ↔ S a ∧ hashToBkt (hashv a) n = j

/-- The items in `S` are in the buckets, each in its own. -/
structure Spread (hashv : Nat → UInt32) (hh : Links Nat) (n : Nat) (bs : List Bucket) (S : Nat → Prop) : Prop where
  length : bs.length = n
  bucket : ∀ j b, bs[j]? = some b → ∃ c, Filed hashv hh n S j b c

theorem spread_empty (hS : ∀ a, ¬S a) : Spread hashv hh n (emptyBuckets n) S := by
  refine ⟨List.length_replicate, fun j b hb => ⟨[], ?_⟩⟩
  obtain rfl := List.eq_of_mem_replicate (List.mem_of_getElem? hb)
  exact ⟨⟨none, DoublyLinked.linked_nil⟩, rfl, fun a => by simp [hS a]⟩

theorem Spread.congr (h : Spread hashv hh n bs S) (hS : ∀ a, S' a ↔ S a)
    (hkeep : ∀ a, S a → hashv' a = hashv a ∧ hh'.prev a = hh.prev a ∧ hh'.next a = hh.next a) :
    Spread hashv' hh' n bs S' := by
  refine ⟨h.length, fun j b hb => ?_⟩
  obtain ⟨c, ⟨last, hlinked⟩, hcount, hmem⟩ := h.bucket j b hb
  refine ⟨c, ⟨last, hlinked.congr fun a ha => (hkeep a ((hmem a).mp ha).1).2⟩, hcount, fun a => ?_⟩
  rw [hmem, hS]
  exact and_congr_right fun ha => by rw [(hkeep a ha).1]

theorem Spread.has {k : Nat} (h : Spread hashv hh n bs S) (hn : n = 2 ^ k) (v : UInt32) :
    ∃ b, bs[hashToBkt v n]? = some b :=
  ⟨_, List.getElem?_eq_getElem (by rw [h.length]; exact hashToBkt_lt v hn)⟩

/-- A bucket is replaced, and the others are as they were. -/
theorem Spread.set {j : Nat} {c : List Nat} {d : Bucket} (h : Spread hashv hh n bs S)
    (hown : Filed hashv hh' n S' j d c)
    (hother : ∀ k (c : List Nat), k ≠ j → (∀ a, a ∈ c ↔ S a ∧ hashToBkt (hashv a) n = k) →
      (∀ a ∈ c, hh'.prev a = hh.prev a ∧ hh'.next a = hh.next a) ∧ ∀ a, hashToBkt (hashv a) n = k → (S' a ↔ S a)) :
    Spread hashv hh' n (bs.set j d) S' := by
  refine ⟨by rw [List.length_set]; exact h.length, fun k b hb => ?_⟩
  rw [List.getElem?_set] at hb
  split at hb
  case isTrue he =>
    subst he
    split at hb
    · obtain rfl := Option.some.inj hb
      exact ⟨c, hown⟩
    · cases hb
  case isFalse hne =>
    obtain ⟨e, ⟨last, hlinked⟩, hcount, hmem⟩ := h.bucket k b hb
    obtain ⟨hlinks, hsame⟩ := hother k e (Ne.symm hne) hmem
    refine ⟨e, ⟨last, hlinked.congr hlinks⟩, hcount, fun a => ?_⟩
    rw [hmem]
    exact and_congr_left fun ha => (hsame a ha).symm

theorem Spread.push (h : Spread hashv hh n bs S) (hb : bs[hashToBkt (hashv a) n]? = some b) (ha : ¬S a) (mult : Nat) :
    Spread hashv (DoublyLinked.pushFront hh b.hhHead a) n (bs.set (hashToBkt (hashv a) n) ⟨some a, b.count + 1, mult⟩)
      fun x => x = a ∨ S x := by
  obtain ⟨c, ⟨last, hlinked⟩, hcount, hmem⟩ := h.bucket _ b hb
  have hnot : a ∉ c := fun hin => ha ((hmem a).mp hin).1
  refine h.set (c := a :: c) ⟨hlinked.pushFront hnot, congrArg (· + 1) hcount, fun x => ?_⟩ fun k e hk he => ⟨?_, ?_⟩
  · rw [List.mem_cons, hmem]
    constructor
    · intro hx
      rcases hx with rfl | ⟨hx, hbkt⟩
      · exact ⟨.inl rfl, rfl⟩
      · exact ⟨.inr hx, hbkt⟩
    · intro hx
      obtain ⟨rfl | hx, hbkt⟩ := hx
      · exact .inl rfl
      · exact .inr ⟨hx, hbkt⟩
  · intro x hx
    obtain ⟨hin, hbkt⟩ := (he x).mp hx
    refine hlinked.pushFront_frame (fun hxc => hk (hbkt.symm.trans ((hmem x).mp hxc).2)) ?_
    exact fun hxa => ha (hxa ▸ hin)
  · intro x hbkt
    exact or_iff_right fun hxa => hk (by rw [← hbkt, hxa])

theorem Spread.remove (h : Spread hashv hh n bs S) (hb : bs[hashToBkt (hashv a) n]? = some b) (ha : S a) :
    Spread hashv (DoublyLinked.unlink hh a) n (bs.set (hashToBkt (hashv a) n) (delInBkt hh b a))
      fun x => S x ∧ x ≠ a := by
  obtain ⟨c, ⟨last, hlinked⟩, hcount, hmem⟩ := h.bucket _ b hb
  obtain ⟨x, y, rfl⟩ := List.append_of_mem ((hmem a).mpr ⟨ha, rfl⟩)
  have hnodup := List.nodup_middle.mp hlinked.nodup
  obtain ⟨hnot, -⟩ := List.nodup_cons.mp hnodup
  have hhead : b.hhHead = some a ↔ x = [] := by
    rw [DoublyLinked.chain_head hlinked.forward]
    cases x with
    | nil => exact iff_of_true rfl rfl
    | cons z x =>
      refine iff_of_false (fun hz => hnot ?_) (List.cons_ne_nil z x)
      obtain rfl : z = a := Option.some.inj hz
      exact List.mem_cons_self
  have hgone : ∃ last, Linked (DoublyLinked.unlink hh a) (delInBkt hh b a).hhHead last (x ++ y) := by
    refine ⟨if y = [] then hh.prev a else last, ?_⟩
    simp only [delInBkt, hhead]
    exact hlinked.unlink
  refine h.set (c := x ++ y) ⟨hgone, ?_, fun z => ?_⟩ fun k e hk he => ⟨?_, ?_⟩
  · rw [delInBkt, hcount]
    simp
  · have hz := hmem z
    rw [List.mem_append, List.mem_cons] at hz
    constructor
    · intro hin
      obtain ⟨hS, hbkt⟩ := hz.mp ((List.mem_append.mp hin).imp id .inr)
      exact ⟨⟨hS, fun e => hnot (e ▸ hin)⟩, hbkt⟩
    · intro hin
      obtain ⟨⟨hS, hne⟩, hbkt⟩ := hin
      exact List.mem_append.mpr ((hz.mpr ⟨hS, hbkt⟩).imp id fun hor => hor.resolve_left hne)
  · intro z hz
    exact hlinked.unlink_frame fun hin => hk (((he z).mp hz).2.symm.trans ((hmem z).mp hin).2)
  · intro z hbkt
    exact and_iff_left fun hza => hk (by rw [← hbkt, hza])

/-! ## The expansion -/

variable {ideal k : Nat} {s : Filled}

theorem place_ok (h : Spread hashv s.hh n s.buckets S) (hn : n = 2 ^ k) (hideal : ideal ≠ 0) (ha : ¬S a) :
    ∃ s', place hashv n ideal s a = .ok s' ∧ Spread hashv s'.hh n s'.buckets (fun x => x = a ∨ S x) ∧
      ∀ x, x ≠ a → s'.hh.next x = s.hh.next x := by
  obtain ⟨b, hb⟩ := h.has hn (hashv a)
  simp only [place, hb, if_neg hideal]
  split
  · exact ⟨_, rfl, h.push hb ha _, fun x hx => DoublyLinked.pushFront_next hx⟩
  · exact ⟨_, rfl, h.push hb ha _, fun x hx => DoublyLinked.pushFront_next hx⟩

theorem placeChain_ok (hn : n = 2 ^ k) (hideal : ideal ≠ 0) (r : List Nat) :
    ∀ {fuel : Nat} {head : Option Nat} {s : Filled} {S : Nat → Prop}, LinkedList.Chain s.hh.next head r →
      r.length ≤ fuel → Spread hashv s.hh n s.buckets S → (∀ a ∈ r, ¬S a) →
      ∃ s', placeChain hashv n ideal fuel head s = .ok s' ∧ Spread hashv s'.hh n s'.buckets (fun x => x ∈ r ∨ S x) ∧
        ∀ x ∉ r, s'.hh.next x = s.hh.next x := by
  induction r with
  | nil =>
    intro fuel head s S hchain _ h _
    cases hchain
    refine ⟨s, by cases fuel <;> rfl, h.congr (fun a => by simp) fun a _ => ⟨rfl, rfl, rfl⟩, fun x _ => rfl⟩
  | cons a r ih =>
    intro fuel head s S hchain hfuel h hnew
    have hnot : a ∉ r := (List.nodup_cons.mp hchain.nodup).1
    cases fuel with
    | zero => cases hfuel
    | succ fuel =>
      cases hchain with
      | cons hchain =>
        obtain ⟨s₁, hs₁, hspread, hnext⟩ := place_ok h hn hideal (hnew a List.mem_cons_self)
        have hrest : LinkedList.Chain s₁.hh.next (s.hh.next a) r :=
          hchain.congr fun x hx => hnext x (ne_of_mem_of_not_mem hx hnot)
        obtain ⟨s₂, hs₂, hall, hkeep⟩ := ih hrest (Nat.le_of_succ_le_succ hfuel) hspread fun x hx hor =>
          hor.elim (ne_of_mem_of_not_mem hx hnot) (hnew x (List.mem_cons_of_mem a hx))
        refine ⟨s₂, ?_, ?_, fun x hx => ?_⟩
        · rw [placeChain, hs₁]
          exact hs₂
        · refine hall.congr (fun x => ?_) fun x _ => ⟨rfl, rfl, rfl⟩
          rw [List.mem_cons]
          tauto
        · rw [List.mem_cons, not_or] at hx
          exact (hkeep x hx.2).trans (hnext x hx.1)

/-- The loop over the old buckets, with those in `pre` done. -/
theorem placeAll_ok {old : List Bucket} {m fuel : Nat} (hold : Spread hashv hh m old S) (hn : n = 2 ^ k)
    (hideal : ideal ≠ 0) (hfuel : ∀ j b c, old[j]? = some b → Filed hashv hh m S j b c → c.length ≤ fuel) (post : List Bucket) :
    ∀ {pre : List Bucket} {s : Filled}, old = pre ++ post →
      Spread hashv s.hh n s.buckets (fun a => S a ∧ hashToBkt (hashv a) m < pre.length) →
      (∀ a, S a → pre.length ≤ hashToBkt (hashv a) m → s.hh.next a = hh.next a) →
      ∃ s', post.foldlM (fun s b => placeChain hashv n ideal fuel b.hhHead s) s = .ok s' ∧
        Spread hashv s'.hh n s'.buckets fun a => S a ∧ hashToBkt (hashv a) m < old.length := by
  induction post with
  | nil =>
    intro pre s hsplit h _
    rw [List.append_nil] at hsplit
    exact ⟨s, rfl, hsplit ▸ h⟩
  | cons b post ih =>
    intro pre s hsplit h hnext
    have hb : old[pre.length]? = some b := by
      rw [hsplit, List.getElem?_append_right (Nat.le_refl _), Nat.sub_self]
      rfl
    obtain ⟨c, hfiled⟩ := hold.bucket _ b hb
    have hlength := hfuel _ b c hb hfiled
    obtain ⟨⟨last, hlinked⟩, -, hmem⟩ := hfiled
    have hchain : LinkedList.Chain s.hh.next b.hhHead c := hlinked.forward.congr fun a ha =>
      hnext a ((hmem a).mp ha).1 (Nat.le_of_eq ((hmem a).mp ha).2.symm)
    obtain ⟨s₁, hs₁, hspread, hkeep⟩ := placeChain_ok hn hideal c hchain hlength h fun a ha hdone =>
      absurd ((hmem a).mp ha).2 (Nat.ne_of_lt hdone.2)
    have hlen : (pre ++ [b]).length = pre.length + 1 := by rw [List.length_append, List.length_singleton]
    obtain ⟨s₂, hs₂, hall⟩ := @ih (pre ++ [b]) s₁ (by rw [hsplit, List.append_assoc]; rfl)
      (hspread.congr (fun a => by
        rw [hmem, hlen, Nat.lt_succ_iff_lt_or_eq]
        tauto) fun a _ => ⟨rfl, rfl, rfl⟩)
      (fun a ha hle => by
        rw [hlen] at hle
        rw [hkeep a fun hac => by have := ((hmem a).mp hac).2; omega]
        exact hnext a ha (by omega))
    refine ⟨s₂, ?_, hall⟩
    rw [List.foldlM_cons, hs₁]
    exact hs₂

end Spread

/-! ## The operations -/

section Refinement

variable {key : ι → κ} {hash : κ → UInt32} {malloc : Nat → Nat → Bool} {m : Mem ι} {t : Table} {l x y : List Nat}
  {a : Nat} {i : ι} {abs : List ι}

/-- The items `l` in the order of the adds; those in `S` are in their buckets. -/
structure Stores (key : ι → κ) (hash : κ → UInt32) (m : Mem ι) (t : Table) (l : List Nat) (S : Nat → Prop) : Prop where
  order : Linked m.app m.head (some t.tail) l
  num : t.numItems = l.length
  size : t.buckets.length = 2 ^ t.log2NumBuckets
  small : t.buckets.length < 2 ^ 31
  spread : Spread m.hashv m.hh t.buckets.length t.buckets S
  hashed : ∀ a ∈ l, ∃ i, m.item a = some i ∧ m.hashv a = hash (key i)
  named : ∀ a ∈ l, a < m.mallocs

/-- What an add comes to. -/
def Added (key : ι → κ) (hash : κ → UInt32) (m : Mem ι) (l : List Nat) (m' : Mem ι) : Prop :=
  m'.item = m.item ∧ ∃ t, m'.tbl = some t ∧ Stores key hash m' t l (· ∈ l)

theorem Safe.bind {α β : Type} {P : α → Prop} {Q : β → Prop} {x : Except Exit α} {f : α → Except Exit β}
    (hx : Safe malloc P x) (hf : ∀ a, P a → Safe malloc Q (f a)) : Safe malloc Q (x >>= f) := by
  cases x with
  | ok a => exact hf a hx
  | error e => cases e <;> exact hx

theorem Safe.imp {α : Type} {P Q : α → Prop} {x : Except Exit α} (hx : Safe malloc P x) (hpq : ∀ a, P a → Q a) :
    Safe malloc Q x := by
  cases x with
  | ok a => exact hpq a hx
  | error e => cases e <;> exact hx

theorem Safe.of_isOk {α : Type} {P : α → Prop} {x : Except Exit α} (hx : Safe malloc P x) (hok : x.isOk = true) :
    ∃ a, x = .ok a ∧ P a := by
  cases x with
  | ok a => exact ⟨a, rfl, hx⟩
  | error e => cases hok

theorem malloc_safe (size : Nat) (m : Mem ι) :
    Safe malloc (fun m' => m' = { m with mallocs := m.mallocs + 1 } ∧ malloc m.mallocs size = true)
      (uthashMalloc malloc size m) := by
  unfold uthashMalloc
  split
  case isTrue hgiven => exact ⟨rfl, hgiven⟩
  case isFalse hfull => exact Bool.eq_false_iff.mpr hfull

theorem make_safe (m : Mem ι) (head : Nat) :
    Safe malloc (fun r => r = ({ m with mallocs := m.mallocs + 2 },
      ⟨emptyBuckets hashInitialNumBuckets, hashInitialNumBucketsLog2, 0, head, 0, 0, 0, false⟩))
      (hashMakeTable malloc m head) := by
  unfold hashMakeTable
  refine (malloc_safe _ m).bind fun m₁ hm₁ => (malloc_safe _ m₁).bind fun m₂ hm₂ => ?_
  obtain ⟨rfl, -⟩ := hm₁
  obtain ⟨rfl, -⟩ := hm₂
  rfl

theorem ideal_pos {num k : Nat} (hnum : num ≠ 0) :
    (num >>> k) + (if num &&& (2 ^ k - 1) ≠ 0 then 1 else 0) ≠ 0 := by
  rw [Nat.and_two_pow_sub_one_eq_mod, Nat.shiftRight_eq_div_pow]
  have hdiv := Nat.div_add_mod num (2 ^ k)
  intro hzero
  obtain ⟨hquot, hrest⟩ := Nat.add_eq_zero_iff.mp hzero
  have hmod : num % 2 ^ k = 0 := by
    by_contra hne
    rw [if_pos hne] at hrest
    cases hrest
  rw [hquot, hmod, Nat.mul_zero] at hdiv
  exact hnum hdiv.symm

/-- A bucket holds no more than all items. -/
theorem Filed.length_le {hashv : Nat → UInt32} {hh : Links Nat} {n j : Nat} {b : Bucket} {c : List Nat}
    (h : Filed hashv hh n (· ∈ l) j b c) : c.length ≤ l.length := by
  obtain ⟨⟨last, hlinked⟩, -, hmem⟩ := h
  exact (List.subperm_of_subset hlinked.nodup fun a ha => ((hmem a).mp ha).1).length_le

theorem expand_safe (hmalloc : Limited malloc) (h : Stores key hash m t l (· ∈ l)) (hne : l ≠ []) :
    Safe malloc (Added key hash m l) (hashExpandBuckets malloc m t) := by
  have hn : 2 * t.buckets.length = 2 ^ (t.log2NumBuckets + 1) := by rw [h.size, Nat.pow_succ, Nat.mul_comm]
  have hnum : t.numItems ≠ 0 := by
    rw [h.num]
    exact fun hzero => hne (List.eq_nil_of_length_eq_zero hzero)
  have hideal : t.numItems >>> (t.log2NumBuckets + 1) +
      (if t.numItems &&& (2 * t.buckets.length - 1) ≠ 0 then 1 else 0) ≠ 0 := hn ▸ ideal_pos hnum
  have hempty : Spread m.hashv m.hh (2 * t.buckets.length) (emptyBuckets (2 * t.buckets.length))
      fun a => a ∈ l ∧ hashToBkt (m.hashv a) t.buckets.length < ([] : List Bucket).length :=
    spread_empty fun a ha => absurd ha.2 (Nat.not_lt_zero _)
  have hfuel : ∀ j b c, t.buckets[j]? = some b → Filed m.hashv m.hh t.buckets.length (· ∈ l) j b c →
      c.length ≤ t.numItems := fun j b c _ hfiled => h.num ▸ hfiled.length_le
  obtain ⟨s, hs, hspread⟩ := @placeAll_ok m.hashv m.hh _ (· ∈ l) _ _ t.buckets _ t.numItems h.spread hn hideal hfuel
    t.buckets [] ⟨m.hh, emptyBuckets (2 * t.buckets.length), 0⟩ rfl hempty fun a _ _ => rfl
  unfold hashExpandBuckets
  refine (malloc_safe _ m).bind fun m' hm => ?_
  obtain ⟨rfl, hgiven⟩ := hm
  have hsmall : 2 * t.buckets.length * sizeofBucket < 2 ^ 35 := by
    by_contra hlarge
    rw [hmalloc _ _ (Nat.not_lt.mp hlarge)] at hgiven
    cases hgiven
  have hlength : s.buckets.length < 2 ^ 31 := by
    rw [hspread.length]
    exact Nat.lt_of_mul_lt_mul_right (Nat.lt_of_lt_of_eq hsmall rfl)
  dsimp only
  rw [hs]
  refine ⟨rfl, _, rfl, h.order, h.num, hspread.length.trans hn, hlength, ?_, h.hashed,
    fun a ha => Nat.lt_succ_of_lt (h.named a ha)⟩
  show Spread m.hashv s.hh s.buckets.length s.buckets (· ∈ l)
  rw [hspread.length]
  exact hspread.congr (fun a => (and_iff_left (hashToBkt_lt _ h.size)).symm) fun a _ => ⟨rfl, rfl, rfl⟩

theorem addToBkt_safe (hmalloc : Limited malloc) (h : Stores key hash m t (l ++ [a]) (· ∈ l)) (ha : a ∉ l) :
    Safe malloc (Added key hash m (l ++ [a])) (hashAddToBkt malloc m t a) := by
  obtain ⟨b, hb⟩ := h.spread.has h.size (m.hashv a)
  have hpush : Spread m.hashv (DoublyLinked.pushFront m.hh b.hhHead a) t.buckets.length
      (t.buckets.set (hashToBkt (m.hashv a) t.buckets.length) ⟨some a, b.count + 1, b.expandMult⟩) (· ∈ l ++ [a]) :=
    (h.spread.push hb ha b.expandMult).congr (fun x => by rw [List.mem_append, List.mem_singleton, or_comm])
      fun x _ => ⟨rfl, rfl, rfl⟩
  set t' : Table := { t with
    buckets := t.buckets.set (hashToBkt (m.hashv a) t.buckets.length) ⟨some a, b.count + 1, b.expandMult⟩ } with ht'
  have hlength : t'.buckets.length = t.buckets.length := List.length_set
  have hstores : Stores key hash { m with hh := DoublyLinked.pushFront m.hh b.hhHead a, tbl := some t' } t' (l ++ [a])
      (· ∈ l ++ [a]) := by
    refine ⟨h.order, h.num, hlength.trans h.size, lt_of_eq_of_lt hlength h.small, ?_, h.hashed, h.named⟩
    rw [hlength]
    exact hpush
  simp only [hashAddToBkt, hb]
  split
  · exact expand_safe hmalloc hstores (by simp)
  · exact ⟨rfl, t', rfl, hstores⟩

theorem update_hashed (h : ∀ a ∈ l, ∃ i, m.item a = some i ∧ m.hashv a = hash (key i)) (hi : m.item a = some i) :
    ∀ x ∈ l ++ [a], ∃ i', m.item x = some i' ∧ Function.update m.hashv a (hash (key i)) x = hash (key i') := by
  intro x hx
  by_cases hxa : x = a
  · subst hxa
    exact ⟨i, hi, Function.update_self ..⟩
  · rw [Function.update_of_ne hxa]
    exact h x ((List.mem_append.mp hx).resolve_right fun hin => hxa (List.mem_singleton.mp hin))

/-- `HASH_ADD` to a NULL head. -/
theorem add_first (hmalloc : Limited malloc) (hhead : m.head = none) (hi : m.item a = some i) (ha : a < m.mallocs) :
    Safe malloc (Added key hash m [a]) (hashAdd key hash malloc m a) := by
  unfold hashAdd
  rw [hhead]
  refine (make_safe _ a).bind fun r hr => ?_
  subst hr
  dsimp only
  rw [hi]
  refine addToBkt_safe (l := []) hmalloc ⟨⟨?_, ?_⟩, rfl, List.length_replicate, ?_, ?_, ?_, ?_⟩ List.not_mem_nil
  · refine .cons ?_
    show LinkedList.Chain _ (Function.update m.app.next a none a) []
    rw [Function.update_self]
    exact .nil
  · refine .cons ?_
    show LinkedList.Chain _ (Function.update m.app.prev a none a) []
    rw [Function.update_self]
    exact .nil
  · show (emptyBuckets hashInitialNumBuckets).length < 2 ^ 31
    rw [emptyBuckets, List.length_replicate]
    decide
  · show Spread _ _ (emptyBuckets hashInitialNumBuckets).length _ _
    rw [emptyBuckets, List.length_replicate]
    exact spread_empty fun a => List.not_mem_nil
  · exact update_hashed (fun x hx => absurd hx List.not_mem_nil) hi
  · intro x hx
    obtain rfl := List.mem_singleton.mp hx
    exact Nat.lt_add_right 2 ha

/-- `HASH_ADD` to a table. -/
theorem add_next (hmalloc : Limited malloc) (h : Stores key hash m t l (· ∈ l)) (ht : m.tbl = some t)
    (hhead : m.head.isSome = true) (hi : m.item a = some i) (ha : a < m.mallocs) (hnot : a ∉ l) :
    Safe malloc (Added key hash m (l ++ [a])) (hashAdd key hash malloc m a) := by
  obtain ⟨first, hfirst⟩ := Option.isSome_iff_exists.mp hhead
  unfold hashAdd
  rw [hfirst, ht]
  show Safe malloc _ (match m.item a with | none => _ | some i => _)
  rw [hi]
  refine addToBkt_safe (l := l) hmalloc ⟨?_, ?_, h.size, h.small, ?_, update_hashed h.hashed hi, ?_⟩ hnot
  · rw [← hfirst]
    exact h.order.pushBack hnot
  · show t.numItems + 1 = _
    rw [h.num, List.length_append, List.length_singleton]
  · refine h.spread.congr (fun _ => Iff.rfl) fun x hx => ⟨?_, rfl, rfl⟩
    exact Function.update_of_ne (ne_of_mem_of_not_mem hx hnot) ..
  · intro x hx
    rcases List.mem_append.mp hx with hx | hx
    · exact h.named x hx
    · obtain rfl := List.mem_singleton.mp hx
      exact ha

/-- The last of the list, once an item is gone. -/
theorem tail_ok (h : Linked m.app m.head (some t.tail) (x ++ a :: y))
    (hmore : ¬(m.app.prev a = none ∧ m.app.next a = none)) :
    ∃ tail, tailWithout m t a = .ok tail ∧ (if y = [] then m.app.prev a else some t.tail) = some tail := by
  obtain ⟨-, hnext⟩ := h.around
  have hlast : some t.tail = (x ++ a :: y).getLast? := by
    rw [DoublyLinked.chain_head h.backward, List.head?_reverse]
  cases y with
  | nil =>
    rw [List.getLast?_concat] at hlast
    obtain hta : t.tail = a := Option.some.inj hlast
    obtain ⟨p, hp⟩ := Option.ne_none_iff_exists'.mp fun hprev => hmore ⟨hprev, hnext⟩
    exact ⟨p, by rw [tailWithout, if_pos hta.symm, hp], by rw [if_pos rfl, hp]⟩
  | cons b y =>
    have hne : a ≠ t.tail := by
      intro hat
      have hin : a ∈ b :: y := by
        rw [List.append_cons, List.getLast?_append_cons, ← hat] at hlast
        exact List.mem_of_getLast? hlast.symm
      exact (List.nodup_cons.mp (List.nodup_append.mp h.nodup).2.1).1 hin
    exact ⟨t.tail, if_neg hne, if_neg (List.cons_ne_nil b y)⟩

theorem delete_last (h : Linked m.app m.head (some t.tail) [a]) :
    hashDelete m a = .ok { m with head := none, tbl := none } := if_pos (DoublyLinked.Linked.around (x := []) h)

theorem delete_ok (h : Stores key hash m t (x ++ a :: y) (· ∈ x ++ a :: y)) (ht : m.tbl = some t) (hne : x ++ y ≠ []) :
    ∃ m', hashDelete m a = .ok m' ∧ Added key hash m (x ++ y) m' := by
  obtain ⟨hprev, hnext⟩ := h.order.around
  have hmore : ¬(m.app.prev a = none ∧ m.app.next a = none) := by
    rw [hprev, hnext, List.getLast?_eq_none_iff, List.head?_eq_none_iff]
    exact fun hnil => hne (List.append_eq_nil_iff.mpr hnil)
  obtain ⟨tail, htail, hlast⟩ := tail_ok h.order hmore
  obtain ⟨b, hb⟩ := h.spread.has h.size (m.hashv a)
  have hnot : a ∉ x ++ y := (List.nodup_cons.mp (List.nodup_middle.mp h.order.nodup)).1
  have hsub : ∀ z, z ∈ x ++ y ↔ z ∈ x ++ a :: y ∧ z ≠ a := by
    intro z
    rw [List.mem_append, List.mem_append, List.mem_cons]
    constructor
    · intro hz
      exact ⟨hz.imp id .inr, fun e => hnot (List.mem_append.mpr (e ▸ hz))⟩
    · intro hz
      exact hz.1.imp id fun hor => hor.resolve_left hz.2
  have horder := h.order.unlink
  rw [hlast] at horder
  have hhead : (if x = [] then m.app.next a else m.head) = if m.app.prev a = none then m.app.next a else m.head := by
    rw [hprev]
    simp only [List.getLast?_eq_none_iff]
  rw [hhead] at horder
  have hremove := (h.spread.remove hb (List.mem_append_right x List.mem_cons_self)).congr hsub fun z _ =>
    ⟨rfl, rfl, rfl⟩
  set t' : Table := { t with
    tail := tail
    buckets := t.buckets.set (hashToBkt (m.hashv a) t.buckets.length) (delInBkt m.hh b a)
    numItems := t.numItems - 1 } with ht'
  have hlength : t'.buckets.length = t.buckets.length := List.length_set
  refine ⟨{ m with
    head := if m.app.prev a = none then m.app.next a else m.head
    app := DoublyLinked.unlink m.app a
    hh := DoublyLinked.unlink m.hh a
    tbl := some t' }, ?_, rfl, t', rfl, horder, ?_, hlength.trans h.size, lt_of_eq_of_lt hlength h.small, ?_, ?_,
    ?_⟩
  · rw [hashDelete, if_neg hmore, ht]
    dsimp only
    rw [htail]
    show (match t.buckets[hashToBkt (m.hashv a) t.buckets.length]? with
      | none => _
      | some b => _) = _
    rw [hb]
    rfl
  · show t.numItems - 1 = _
    rw [h.num]
    simp
  · rw [hlength]
    exact hremove
  · exact fun z hz => h.hashed z ((hsub z).mp hz).1
  · exact fun z hz => h.named z ((hsub z).mp hz).1

end Refinement

end Ddm.Registry.Uthash
