/-
  Ddm.Registry.Points — the tables between the single updates inside `resource_add` and
  `resource_delete`.

  A point is a place in a call at which no update is under way. One point lies inside a
  critical section: `service_resource_delete` takes the string out of the item's array
  and then, if that was the last, the item out of the table, both under
  `services_pool_lock`.

  Proved: at every point of every sequence of calls a node key of a service is a node's,
  no array holds a key twice and no table has two items with one key, and no array is
  empty but that of the item in its critical section (`tables_integrity`); between
  calls no node is without a service. The exception is real (`emptied_item_in_table`).
-/

import Ddm.Registry.ResourceMgt

namespace Ddm.Registry

open Ddm.Lib

/-! ## Calls and their points -/

inductive Call where
  | add (a : Registration)
  | delete (a : Registration)

def Call.run (t : Tables) : Call → Tables
  | .add a => resourceAdd t a
  | .delete a => resourceDelete t a

structure Point where
  tables : Tables
  /-- The key of the item whose array was just cut, in its critical section. -/
  cut : Option CStr

/-- After `string_array_delete`, before the test of the array's size. -/
def serviceResourceCut (t : Tables) (item : ServiceResource) (nodeKey : CStr) : Tables :=
  { t with servicesResourcePool := HashTable.modify ServiceResource.key t.servicesResourcePool item.key fun e =>
      { e with nodeKeyArray := stringArrayDelete e.nodeKeyArray nodeKey } }

def cutPoints (t : Tables) (a : Registration) : List Point :=
  match serviceResourceGet t a.group a.service a.version with
  | some item => [⟨serviceResourceCut t item a.nodeKey.str, some item.key⟩]
  | none => []

/-- The points of a call on `t`, its entry first and its return last. -/
def Call.points (t : Tables) : Call → List Point
  | .add a =>
    let t₁ := nodeResourceAdd t a.host a.port
    [⟨t, none⟩, ⟨t₁, none⟩, ⟨serviceResourceAdd t₁ a, none⟩]
  | .delete a =>
    let t₁ := serviceResourceDelete t a
    ⟨t, none⟩ :: cutPoints t a ++ [⟨t₁, none⟩, ⟨resourceDelete t a, none⟩]

def allPoints : Tables → List Call → List Point
  | t, [] => [⟨t, none⟩]
  | t, c :: calls => c.points t ++ allPoints (c.run t) calls

/-- The pair of keys a call is about. -/
def Call.pair : Call → CStr × CStr
  | .add a | .delete a => (a.serviceKey.str, a.nodeKey.str)

/-! ## The cut item -/

variable {t : Tables} {R : Set (CStr × CStr)} {e : ServiceResource} {n : CStr}

/-- With a key left the critical section ends here. -/
theorem cut_eq_shrink (h : (stringArrayDelete e.nodeKeyArray n).keys ≠ []) :
    serviceResourceCut t e n = serviceResourceShrink t e n := by
  have hsize : ¬stringArraySize (stringArrayDelete e.nodeKeyArray n) = 0 := fun h0 => h (size_eq_zero.mp h0)
  simp only [serviceResourceShrink, if_neg hsize, serviceResourceCut]

/-- The items after the cut: the others as they were, and the cut one. -/
theorem mem_cut (hd : HashTable.Distinct ServiceResource.key t.servicesResourcePool) (he : e ∈ t.servicesResourcePool)
    {i : ServiceResource} : i ∈ (serviceResourceCut t e n).servicesResourcePool ↔
      (i ∈ t.servicesResourcePool ∧ i.key ≠ e.key) ∨
        i = { e with nodeKeyArray := stringArrayDelete e.nodeKeyArray n } := by
  have hm := hd.mem_modify (k := e.key) (j := i)
    (f := fun e => { e with nodeKeyArray := stringArrayDelete e.nodeKeyArray n })
  refine hm.trans (or_congr_right ⟨?_, fun hi => ⟨e, he, rfl, hi⟩⟩)
  intro h
  obtain ⟨x, hx, hk, rfl⟩ := h
  rw [hd.unique hx he hk]

/-! ## Integrity -/

/-- What holds at every point. -/
structure Integrity (p : Point) : Prop where
  resolves : ∀ i ∈ p.tables.servicesResourcePool, ∀ n ∈ i.nodeKeyArray.keys, ∃ x ∈ p.tables.nodesResourcePool, x.key = n
  nodup : ∀ i ∈ p.tables.servicesResourcePool, i.nodeKeyArray.keys.Nodup
  services : HashTable.Distinct ServiceResource.key p.tables.servicesResourcePool
  nodes : HashTable.Distinct NodeResource.key p.tables.nodesResourcePool
  nonempty : ∀ i ∈ p.tables.servicesResourcePool, p.cut ≠ some i.key → i.nodeKeyArray.keys ≠ []

/-- Every node is some service's. -/
def NoOrphan (t : Tables) : Prop :=
  ∀ x ∈ t.nodesResourcePool, ∃ i ∈ t.servicesResourcePool, x.key ∈ i.nodeKeyArray.keys

/-- Tables whose nodes are at least those of the relation. -/
theorem integrity_of_rep {N : Set CStr} (hs : RepServices t.servicesResourcePool R) (hn : RepNodes t.nodesResourcePool N)
    (hsub : ∀ s n, (s, n) ∈ R → n ∈ N) : Integrity ⟨t, none⟩ :=
  ⟨fun i hi n hm => (hn.mem n).mpr (hsub i.key n ((hs.entry i hi n).mp hm)), hs.nodup, hs.distinct, hn.distinct,
    fun i hi _ => hs.nonempty i hi⟩

theorem Rep.integrity (h : Rep t R) : Integrity ⟨t, none⟩ :=
  integrity_of_rep h.services h.nodes fun s _ hR => ⟨s, hR⟩

theorem Rep.noOrphan (h : Rep t R) : NoOrphan t := fun x hx => by
  obtain ⟨s, hs⟩ := (h.nodes.mem x.key).mp ⟨x, hx, rfl⟩
  obtain ⟨i, hi, rfl⟩ := h.services.dom s x.key hs
  exact ⟨i, hi, (h.services.entry i hi x.key).mpr hs⟩

theorem run_rep (h : Rep t R) (c : Call) : ∃ R', Rep (c.run t) R' ∧ ∀ x ∈ R, (∃ a, c = .delete a) ∧ c.pair = x ∨ x ∈ R' := by
  cases c with
  | add a => exact ⟨_, resourceAdd_rep h a, fun x hx => Or.inr (Set.mem_insert_of_mem _ hx)⟩
  | delete a =>
    refine ⟨_, resourceDelete_rep h a, fun x hx => ?_⟩
    by_cases hp : (Call.delete a).pair = x
    · exact Or.inl ⟨⟨a, rfl⟩, hp⟩
    · exact Or.inr ⟨hx, fun hm => hp (Set.mem_singleton_iff.mp hm).symm⟩

theorem cut_integrity (h : Rep t R) (he : e ∈ t.servicesResourcePool) (n : CStr) :
    Integrity ⟨serviceResourceCut t e n, some e.key⟩ := by
  have hmem := fun i => mem_cut (t := t) (n := n) h.services.distinct he (i := i)
  have hold := h.integrity
  refine ⟨fun i hi m hm => ?_, fun i hi => ?_, h.services.distinct.modify fun _ => rfl, h.nodes.distinct, fun i hi hc => ?_⟩
  · cases (hmem i).mp hi with
    | inl hi => exact hold.resolves i hi.1 m hm
    | inr hi =>
      rw [hi, mem_keys_delete (h.services.nodup e he)] at hm
      exact hold.resolves e he m hm.2
  · cases (hmem i).mp hi with
    | inl hi => exact hold.nodup i hi.1
    | inr hi => exact hi ▸ nodup_keys_delete (h.services.nodup e he)
  · cases (hmem i).mp hi with
    | inl hi => exact h.services.nonempty i hi.1
    | inr hi => exact absurd (congrArg some (hi ▸ rfl : e.key = i.key)) hc

theorem points_integrity (h : Rep t R) (c : Call) : ∀ p ∈ c.points t, Integrity p := by
  cases c with
  | add a =>
    have hnodes := h.nodes.add a.host a.port
    intro p hp
    simp only [Call.points, List.mem_cons, List.not_mem_nil, or_false] at hp
    rcases hp with rfl | rfl | rfl
    · exact h.integrity
    · refine integrity_of_rep (R := R) (by rw [services_nodeResourceAdd]; exact h.services) hnodes fun s n hR => ?_
      exact Set.mem_insert_of_mem _ ⟨s, hR⟩
    · exact (resourceAdd_rep h a).integrity
  | delete a =>
    intro p hp
    simp only [Call.points, List.cons_append, List.mem_cons, List.mem_append, List.not_mem_nil, or_false] at hp
    rcases hp with rfl | hp | rfl | rfl
    · exact h.integrity
    · simp only [cutPoints] at hp
      split at hp
      · rename_i e hf
        rw [List.mem_singleton.mp hp]
        exact cut_integrity h (HashTable.find_key hf).1 a.nodeKey.str
      · cases hp
    · refine integrity_of_rep (serviceResourceDelete_rep (a := a) h.services)
        (N := {n | ∃ s, (s, n) ∈ R}) (by rw [nodes_serviceResourceDelete]; exact h.nodes) fun s n hR => ⟨s, hR.1⟩
    · exact (resourceDelete_rep h a).integrity

/-- At every point of every sequence of calls. -/
theorem tables_integrity (calls : List Call) :
    (∀ p ∈ allPoints .init calls, Integrity p) ∧ NoOrphan (calls.foldl Call.run .init) := by
  suffices ∀ (calls : List Call) (t : Tables) (R : Set (CStr × CStr)), Rep t R →
      (∀ p ∈ allPoints t calls, Integrity p) ∧ NoOrphan (calls.foldl Call.run t) from
    this calls .init ∅ Rep.init
  intro calls
  induction calls with
  | nil => exact fun t R h => ⟨fun p hp => List.mem_singleton.mp hp ▸ h.integrity, h.noOrphan⟩
  | cons c calls ih =>
    intro t R h
    obtain ⟨R', h', -⟩ := run_rep h c
    obtain ⟨hpoints, hend⟩ := ih (c.run t) R' h'
    refine ⟨fun p hp => ?_, hend⟩
    cases List.mem_append.mp hp with
    | inl hp => exact points_integrity h c p hp
    | inr hp => exact hpoints p hp

def sampleRegistration : Registration := ⟨.lit "g", .lit "s", .lit "v", .lit "h", 80⟩

/-- Between the two updates of its critical section the item of the last node is in the
    table with an empty array. -/
theorem emptied_item_in_table : ¬∀ calls, ∀ p ∈ allPoints .init calls,
    ∀ i ∈ p.tables.servicesResourcePool, i.nodeKeyArray.keys ≠ [] := by
  intro hall
  have hrun : (allPoints .init [.add sampleRegistration, .delete sampleRegistration]).any (fun p =>
      p.tables.servicesResourcePool.any fun i => i.nodeKeyArray.keys.isEmpty) = true := by decide +kernel
  obtain ⟨p, hp, hi⟩ := List.any_eq_true.mp hrun
  obtain ⟨i, hi, hempty⟩ := List.any_eq_true.mp hi
  exact hall _ p hp i hi (List.isEmpty_iff.mp hempty)

end Ddm.Registry
