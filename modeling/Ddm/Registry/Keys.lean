/-
  Ddm.Registry.Keys — when two keys of the tables are equal.

  A key joins its fields with '#'. Fields without a '#' are read back from their key
  (`serviceKeyText_injective`, `nodeKeyText_injective`), and as a key with as many '#'
  as joints has none inside a field, one clean side is enough for services. A key made
  of fields that fit their records fits its own buffer (`serviceKey_padded`).
-/

import Ddm.Registry.ResourceMgt

namespace Ddm.Registry

open Ddm.Lib

/-- The separator's byte. -/
def sep : UInt8 := 35

def NoSep (s : CStr) : Prop := sep ∉ s.chars

instance : DecidablePred NoSep := fun s => inferInstanceAs (Decidable (sep ∉ s.chars))

theorem sep_append (s t : CStr) : (s ++ keySeparator ++ t).chars = s.chars ++ sep :: t.chars := by
  simp [keySeparator, CStr.lit, sep]; decide

theorem chars_serviceKeyText (g s v : CStr) :
    (serviceKeyText g s v).chars = g.chars ++ sep :: (s.chars ++ sep :: v.chars) := by
  rw [serviceKeyText, CStr.append_assoc, CStr.append_assoc, ← CStr.append_assoc s, sep_append, sep_append]

theorem length_serviceKeyText (g s v : CStr) :
    (serviceKeyText g s v).length = g.length + s.length + v.length + 2 := by
  simp only [CStr.length, chars_serviceKeyText, List.length_append, List.length_cons]; omega

theorem chars_nodeKeyText (host : CStr) (port : Int) :
    (nodeKeyText host port).chars = host.chars ++ sep :: (decimal port).chars := sep_append host (decimal port)

theorem length_nodeKeyText (host : CStr) (port : Int) :
    (nodeKeyText host port).length = host.length + (decimal port).length + 1 := by
  simp only [CStr.length, chars_nodeKeyText, List.length_append, List.length_cons]; omega

/-! ## Reading the fields back -/

/-- The part before the first separator is determined. -/
theorem append_sep_injective {a a' r r' : Bytes} (ha : sep ∉ a) (ha' : sep ∉ a') (h : a ++ sep :: r = a' ++ sep :: r') :
    a = a' ∧ r = r' := by
  induction a generalizing a' with
  | nil =>
    cases a' with
    | nil => exact ⟨rfl, (List.cons.inj h).2⟩
    | cons x a' => exact absurd ((List.cons.inj h).1 ▸ List.mem_cons_self) ha'
  | cons x a ih =>
    cases a' with
    | nil => exact absurd ((List.cons.inj h).1 ▸ List.mem_cons_self) ha
    | cons x' a' =>
      obtain ⟨rfl, ht⟩ := List.cons.inj h
      obtain ⟨rfl, hr⟩ := ih (fun hm => ha (List.mem_cons_of_mem _ hm)) (fun hm => ha' (List.mem_cons_of_mem _ hm)) ht
      exact ⟨rfl, hr⟩

theorem serviceKeyText_injective {g s v g' s' v' : CStr} (hg : NoSep g) (hs : NoSep s) (hv : NoSep v)
    (h : serviceKeyText g' s' v' = serviceKeyText g s v) : g' = g ∧ s' = s ∧ v' = v := by
  have h := congrArg CStr.chars h
  rw [chars_serviceKeyText, chars_serviceKeyText] at h
  -- both sides have two separators, so the left's are its joints too
  have hc := congrArg (List.count sep) h
  simp only [List.count_append, List.count_cons_self, List.count_eq_zero_of_not_mem hg,
    List.count_eq_zero_of_not_mem hs, List.count_eq_zero_of_not_mem hv] at hc
  have hg' : sep ∉ g'.chars := List.count_eq_zero.mp (by omega)
  have hs' : sep ∉ s'.chars := List.count_eq_zero.mp (by omega)
  obtain ⟨h1, h⟩ := append_sep_injective hg' hg h
  obtain ⟨h2, h3⟩ := append_sep_injective hs' hs h
  exact ⟨CStr.ext h1, CStr.ext h2, CStr.ext h3⟩

theorem nodeKeyText_injective {host host' : CStr} {port port' : Int} (h1 : NoSep host) (h2 : NoSep host')
    (h : nodeKeyText host port = nodeKeyText host' port') : host = host' ∧ port = port' := by
  have h := congrArg CStr.chars h
  rw [chars_nodeKeyText, chars_nodeKeyText] at h
  obtain ⟨hh, hp⟩ := append_sep_injective h1 h2 h
  exact ⟨CStr.ext hh, decimal_injective (CStr.ext hp)⟩

/-- A key with a separator inside a field is another triple's key too. -/
theorem serviceKeyText_ambiguous {g s v : CStr} (h : ¬(NoSep g ∧ NoSep s ∧ NoSep v)) :
    ∃ g' s' v', (g', s', v') ≠ (g, s, v) ∧ serviceKeyText g' s' v' = serviceKeyText g s v := by
  have cut : ∀ x : CStr, ¬NoSep x → ∃ a b : CStr, x = a ++ keySeparator ++ b := fun x hx => by
    obtain ⟨a, b, e⟩ := List.append_of_mem (not_not.mp hx)
    have hn := x.noNul
    rw [e] at hn
    refine ⟨⟨a, fun h => hn (by simp [h])⟩, ⟨b, fun h => hn (by simp [h])⟩, CStr.ext ?_⟩
    rw [e, sep_append]
  by_cases hg : NoSep g
  · by_cases hs : NoSep s
    · obtain ⟨a, b, rfl⟩ := cut v fun hv => h ⟨hg, hs, hv⟩
      refine ⟨g ++ keySeparator ++ s, a, b, fun e => ?_, by simp only [serviceKeyText, CStr.append_assoc]⟩
      have := congrArg (fun t => t.1.length) e
      simp [keySeparator, CStr.length, CStr.lit] at this
    · obtain ⟨a, b, rfl⟩ := cut s hs
      refine ⟨g ++ keySeparator ++ a, b, v, fun e => ?_, by simp only [serviceKeyText, CStr.append_assoc]⟩
      have := congrArg (fun t => t.1.length) e
      simp [keySeparator, CStr.length, CStr.lit] at this
  · obtain ⟨a, b, rfl⟩ := cut g hg
    refine ⟨a, b, s ++ keySeparator ++ v, fun e => ?_, by simp only [serviceKeyText, CStr.append_assoc]⟩
    have := congrArg (fun t => t.1.length) e
    simp [keySeparator, CStr.length, CStr.lit] at this

/-! ## Padded fields -/

theorem serviceKey_padded (i : ServiceInfo) :
    (serviceResourceConstructKey i.groupValue.str i.serviceValue.str i.versionValue.str serviceKeyLen).str =
      serviceKeyText i.groupValue.str i.serviceValue.str i.versionValue.str := by
  refine snprintf_str ?_
  have := i.groupValue.fits
  have := i.serviceValue.fits
  have := i.versionValue.fits
  rw [length_serviceKeyText]
  simp only [serviceKeyLen, fieldGroupLen, fieldServiceLen, fieldVersionLen] at *
  omega

theorem nodeKey_fits {host : CStr} {port : Int} (hh : host.length < fieldHostLen) (hp : (decimal port).length ≤ 5) :
    (nodeResourceConstructKey host port nodeKeyLen).str = nodeKeyText host port := by
  refine snprintf_str ?_
  rw [length_nodeKeyText]
  simp only [nodeKeyLen, fieldHostLen] at *
  omega

end Ddm.Registry
