/-
  Ddm.Provider.NodePath — `make_sure_node_path` and `make_sure_enode` against a tree of
  nodes: the ancestors of a node are made before it.

  The loop cuts the path in place at each separator, asks for the node at the cut path,
  creates it if it is missing, and puts the separator back. It stops behind the last
  separator, which is why `make_sure_enode` hands it the parent's path with the separator
  still at the end. A create succeeds if and only if the parent exists and the node does
  not; the root always exists. `Ddm.Provider.Register` has the same loop with answers left
  open (`makeSureLoop_cuts`).

  Proved: for a path of two components or more exactly the missing ancestors are created,
  from the top, then the node itself, ephemeral; and the path's buffer is as before
  (`make_sure_enode_creates`).
-/

import Mathlib.Data.List.Infix
import Ddm.Provider.Register
import Ddm.Lib.Memory

namespace Ddm.Provider.NodePath

open Ddm.Lib

/-! ## The tree -/

inductive NodeType where
  | normal
  | ephemeral
  deriving DecidableEq

/-- One `zoo_create` and its answer. -/
structure Create where
  path : Bytes
  value : Option CStr
  type : NodeType
  ok : Bool
  deriving DecidableEq

/-- The nodes below the root, and the creates so far. -/
structure Zk where
  nodes : List Bytes
  creates : List Create
  deriving DecidableEq

def root : Bytes := [slash]

/-- The path up to the last separator. -/
def parentOf (path : Bytes) : Bytes :=
  let up := (path.rdropWhile (· != slash)).dropLast
  if up = [] then root else up

def existNode (zk : Zk) (path : Bytes) : Bool := path = root ∨ path ∈ zk.nodes

def createNode (zk : Zk) (path : Bytes) (value : Option CStr) (type : NodeType) : Int × Zk :=
  if existNode zk (parentOf path) && !existNode zk path then
    (0, ⟨zk.nodes ++ [path], zk.creates ++ [⟨path, value, type, true⟩]⟩)
  else (-1, { zk with creates := zk.creates ++ [⟨path, value, type, false⟩] })

/-! ## The loop -/

/-- `strchr(mem + i, c)`: the place of the first `c` before the terminator, if there is one. -/
def strchr (mem : Bytes) (i : Nat) (c : UInt8) : Option (Option Nat) :=
  (stringAt mem i).map fun s => if c ∈ s then some (i + (s.takeWhile (· != c)).length) else none

def makeSureNode (zk : Zk) (path : Bytes) : Zk :=
  if existNode zk path then zk else (createNode zk path none .normal).2

/-- One turn: the node at the path cut at `pos`. -/
def makeSureTurn (zk : Zk) (mem : Bytes) (pos : Nat) : Option (Zk × Bytes) := do
  let mem ← writeAt mem pos [0]
  let path ← stringAt mem 0
  let zk := makeSureNode zk path
  let mem ← writeAt mem pos [slash]
  some (zk, mem)

/-- From the component at `strPtr`; every turn moves it on by a byte at least. -/
def makeSureLoop : Nat → Zk → Bytes → Nat → Option (Zk × Bytes)
  | 0, _, _, _ => none
  | fuel + 1, zk, mem, strPtr => do
    match ← strchr mem strPtr slash with
    | none => some (zk, mem)
    | some pos =>
      if pos = strPtr then some (zk, mem)
      else do
        let (zk, mem) ← makeSureTurn zk mem pos
        makeSureLoop fuel zk mem (pos + 1)

/-- `mem` is the buffer of `path`; no result means an access outside it. -/
def makeSureNodePath (zk : Zk) (mem : Bytes) : Option (Int × Zk × Bytes) := do
  let path ← stringAt mem 0
  if path.length ≤ 1 then some (-1, zk, mem)
  else do
    let (zk, mem) ← makeSureLoop mem.length zk mem 1
    some (0, zk, mem)

def makeSureEnode (zk : Zk) (path : CStr) (value : Option CStr) : Option (Int × Zk) :=
  match strrchr path slash with
  | none => some (-1, zk)
  | some 0 => some (-1, zk)
  | some delim => do
    let parentPathBuf := (path.take (delim + 1)).chars ++ [0]
    let (_, zk, _) ← makeSureNodePath zk parentPathBuf
    some (createNode zk path.chars value .ephemeral)

/-! ## The places of the cuts -/

/-- Where the loop cuts a text whose byte at `i` is the first given; the component started
    at `strPtr`. -/
def cuts (strPtr i : Nat) : Bytes → List Nat
  | [] => []
  | c :: rest =>
    if c = slash then if i = strPtr then [] else i :: cuts (i + 1) (i + 1) rest
    else cuts strPtr (i + 1) rest

/-- The loop with the answers left open goes through the same places. -/
theorem makeSureLoop_cuts (answers : Answers) (path : CStr) (strPtr i : Nat) (rest : Bytes) (zh : ZkHandle) :
    Provider.makeSureLoop answers path strPtr i rest zh =
      (cuts strPtr i rest).foldl (fun zh i => Provider.makeSureNode answers zh (path.take i)) zh := by
  induction rest generalizing strPtr i zh with
  | nil => rfl
  | cons c rest ih =>
    unfold Provider.makeSureLoop cuts
    split
    · split
      · rfl
      · exact ih ..
    · exact ih ..

theorem cuts_none {s : Bytes} (h : slash ∉ s) (strPtr i : Nat) : cuts strPtr i s = [] := by
  induction s generalizing i with
  | nil => rfl
  | cons c s ih =>
    have hc := List.ne_of_not_mem_cons h
    rw [cuts, if_neg (Ne.symm hc), ih (List.not_mem_of_not_mem_cons h)]

theorem cuts_component {comp : Bytes} (h : slash ∉ comp) (rest : Bytes) (strPtr i : Nat) :
    cuts strPtr i (comp ++ slash :: rest) =
      if i + comp.length = strPtr then []
      else (i + comp.length) :: cuts (i + comp.length + 1) (i + comp.length + 1) rest := by
  induction comp generalizing i with
  | nil =>
    rw [List.nil_append, cuts, if_pos rfl]
    rfl
  | cons c comp ih =>
    have hc := List.ne_of_not_mem_cons h
    have hlen : i + (c :: comp).length = i + 1 + comp.length := by
      rw [List.length_cons]
      omega
    rw [List.cons_append, cuts, if_neg (Ne.symm hc), ih (List.not_mem_of_not_mem_cons h), hlen]

theorem strchr_none {mem s : Bytes} {i : Nat} (h : Pending mem i s) (hs : slash ∉ s) :
    strchr mem i slash = some none := by
  rw [strchr, h.stringAt, Option.map_some, if_neg hs]

theorem strchr_component {mem comp rest : Bytes} {i : Nat} (h : Pending mem i (comp ++ slash :: rest))
    (hs : slash ∉ comp) : strchr mem i slash = some (some (i + comp.length)) := by
  have hall : ∀ b ∈ comp, (b != slash) = true := fun b hb => by
    have hne : b ≠ slash := fun e => hs (e ▸ hb)
    simpa using hne
  have htake : (comp ++ slash :: rest).takeWhile (· != slash) = comp := by
    rw [List.takeWhile_append_of_pos hall]
    simp
  rw [strchr, h.stringAt, Option.map_some, if_pos (by simp), htake]

/-- The separator is put back. -/
theorem makeSureTurn_eq (zk : Zk) {front : Bytes} (h : 0 ∉ front) (rest : Bytes) :
    makeSureTurn zk (front ++ slash :: rest) front.length = some (makeSureNode zk front, front ++ slash :: rest) := by
  have hcut : writeAt (front ++ slash :: rest) front.length [0] = some (front ++ 0 :: rest) := by
    rw [writeAt_append rfl (by simp)]
    simp
  have hback : writeAt (front ++ 0 :: rest) front.length [slash] = some (front ++ slash :: rest) := by
    rw [writeAt_append rfl (by simp)]
    simp
  have hread : stringAt (front ++ 0 :: rest) 0 = some front := @stringAt_append [] front rest h 0 rfl
  rw [makeSureTurn, hcut]
  simp only [Option.bind_eq_bind, Option.bind_some, hread, hback]

/-- The nodes at the cuts of the text in front of `i`, one after the other. -/
def makeSureAt (zk : Zk) (mem : Bytes) (places : List Nat) : Zk :=
  places.foldl (fun zk i => makeSureNode zk (mem.take i)) zk

/-- The loop makes sure of the nodes at its cuts, and leaves the buffer as it was. -/
theorem makeSureLoop_eq (fuel : Nat) : ∀ {zk : Zk} {front s after : Bytes}, 0 ∉ front → 0 ∉ s → s.length < fuel →
    makeSureLoop fuel zk (front ++ (s ++ 0 :: after)) front.length =
      some (makeSureAt zk (front ++ (s ++ 0 :: after)) (cuts front.length front.length s),
        front ++ (s ++ 0 :: after)) := by
  induction fuel with
  | zero => intro zk front s after _ _ hfuel; exact absurd hfuel (Nat.not_lt_zero _)
  | succ fuel ih =>
    intro zk front s after hfront hs hfuel
    have hpending : Pending (front ++ (s ++ 0 :: after)) front.length s := ⟨hs, front, after, rfl, rfl⟩
    rw [makeSureLoop]
    by_cases hslash : slash ∈ s
    · obtain ⟨comp, rest, rfl, hcomp⟩ := List.eq_append_cons_of_mem hslash
      rw [strchr_component hpending hcomp, cuts_component hcomp]
      simp only [Option.bind_eq_bind, Option.bind_some]
      split
      · rfl
      · have hcut : 0 ∉ front ++ comp := fun h =>
          (List.mem_append.mp h).elim hfront fun h => hs (List.mem_append_left _ h)
        have hrest : 0 ∉ rest := fun h => hs (List.mem_append_right _ (List.mem_cons_of_mem _ h))
        have hturn := makeSureTurn_eq zk hcut (rest ++ 0 :: after)
        have hsplit : front ++ (comp ++ slash :: rest ++ 0 :: after) =
            front ++ comp ++ slash :: (rest ++ 0 :: after) := by
          simp only [List.append_assoc, List.cons_append]
        have hnext : front ++ comp ++ slash :: (rest ++ 0 :: after) =
            (front ++ comp ++ [slash]) ++ (rest ++ 0 :: after) := by
          simp only [List.append_assoc, List.cons_append, List.nil_append]
        have hfront' : 0 ∉ front ++ comp ++ [slash] := fun h =>
          (List.mem_append.mp h).elim hcut fun h => absurd (List.mem_singleton.mp h) (by decide)
        have hlen : (front ++ comp ++ [slash]).length = front.length + comp.length + 1 := by
          simp only [List.length_append, List.length_singleton]
        rw [List.length_append, List.length_cons] at hfuel
        rw [List.length_append] at hturn
        rw [hsplit, hturn]
        simp only [Option.bind_some]
        rw [hnext, ← hlen, ih hfront' hrest (by omega), makeSureAt, makeSureAt, List.foldl_cons, hlen]
        rw [List.append_assoc (front ++ comp), ← List.length_append, List.take_left]
    · rw [strchr_none hpending hslash, cuts_none hslash]
      rfl

/-! ## Paths -/

/-- None is empty, and they are components of a C string. -/
def Clean (comps : List Bytes) : Prop := ∀ c ∈ comps, c ≠ [] ∧ slash ∉ c ∧ 0 ∉ c

instance (comps : List Bytes) : Decidable (Clean comps) := List.decidableBAll _ comps

/-- An absolute path. -/
structure AbsPath where
  comps : List Bytes
  clean : Clean comps

def text (comps : List Bytes) : Bytes := comps.flatMap (slash :: ·)

theorem text_concat (comps : List Bytes) (c : Bytes) : text (comps ++ [c]) = text comps ++ slash :: c := by
  simp [text]

/-- With the separator at the other end of each component. -/
theorem text_slash (comps : List Bytes) : text comps ++ [slash] = slash :: comps.flatMap (· ++ [slash]) := by
  induction comps with
  | nil => rfl
  | cons c comps ih =>
    show slash :: c ++ text comps ++ [slash] = _
    rw [List.append_assoc, ih, List.flatMap_cons]
    simp

theorem noNul_text {comps : List Bytes} (h : Clean comps) : 0 ∉ text comps := by
  intro h0
  obtain ⟨c, hc, hmem⟩ := List.mem_flatMap.mp h0
  rcases List.mem_cons.mp hmem with hslash | hmem
  · exact absurd hslash (by decide)
  · exact (h c hc).2.2 hmem

def AbsPath.str (p : AbsPath) : CStr := ⟨text p.comps, noNul_text p.clean⟩

/-- The paths of the first components, from one to all. -/
def prefixes (comps : List Bytes) : List (List Bytes) := comps.inits.tail

/-- The proper ancestors below the root, from the top. -/
def AbsPath.ancestors (p : AbsPath) : List Bytes := (prefixes p.comps.dropLast).map text

theorem prefixes_cons (c : Bytes) (comps : List Bytes) :
    prefixes (c :: comps) = [c] :: (prefixes comps).map (c :: ·) := by
  have hinits : comps.inits = [] :: prefixes comps := by
    cases comps with
    | nil => rfl
    | cons d comps => rfl
  show comps.inits.map (c :: ·) = _
  rw [hinits]
  rfl

/-- The loop's cuts of a path with a separator at its end. -/
theorem cuts_text (comps : List Bytes) : ∀ {done : List Bytes} {after : Bytes}, Clean comps →
    (cuts (text done ++ [slash]).length (text done ++ [slash]).length (comps.flatMap (· ++ [slash]))).map
        ((text done ++ [slash] ++ (comps.flatMap (· ++ [slash]) ++ after)).take ·) =
      (prefixes comps).map fun l => text (done ++ l) := by
  induction comps with
  | nil => intro done after _; rfl
  | cons c comps ih =>
    intro done after hclean
    obtain ⟨hne, hslash, -⟩ := hclean c List.mem_cons_self
    have hpos := List.length_pos_iff.mpr hne
    have hrest : Clean comps := fun d hd => hclean d (List.mem_cons_of_mem _ hd)
    have hfront : text (done ++ [c]) ++ [slash] = text done ++ [slash] ++ c ++ [slash] := by
      rw [text_concat]
      simp
    have hlen : (text (done ++ [c]) ++ [slash]).length = (text done ++ [slash]).length + c.length + 1 := by
      rw [hfront, List.length_append, List.length_append, List.length_singleton]
    have hcuts : cuts (text done ++ [slash]).length (text done ++ [slash]).length
        ((c :: comps).flatMap (· ++ [slash])) = ((text done ++ [slash]).length + c.length) ::
          cuts (text (done ++ [c]) ++ [slash]).length (text (done ++ [c]) ++ [slash]).length
            (comps.flatMap (· ++ [slash])) := by
      rw [List.flatMap_cons, List.append_assoc, List.singleton_append, cuts_component hslash, if_neg (by omega), hlen]
    have hmem : text done ++ [slash] ++ ((c :: comps).flatMap (· ++ [slash]) ++ after) =
        text (done ++ [c]) ++ [slash] ++ (comps.flatMap (· ++ [slash]) ++ after) := by
      rw [hfront, List.flatMap_cons]
      simp
    have hfirst : (text (done ++ [c]) ++ [slash] ++ (comps.flatMap (· ++ [slash]) ++ after)).take
        ((text done ++ [slash]).length + c.length) = text (done ++ [c]) := by
      have : (text done ++ [slash]).length + c.length = (text (done ++ [c])).length := by
        simp only [text_concat, List.length_append, List.length_cons, List.length_nil]
        omega
      rw [this, List.append_assoc, List.take_left]
    rw [hcuts, hmem, List.map_cons, hfirst, ih hrest, prefixes_cons, List.map_cons, List.map_map]
    refine congrArg _ (List.map_congr_left fun l _ => ?_)
    rw [List.append_assoc]
    rfl

/-! ## What is created -/

/-- The answer to a create of a missing node, whose parent is there. -/
def made (path : Bytes) : Create := ⟨path, none, .normal, true⟩

def missing (zk : Zk) (paths : List Bytes) : List Bytes := paths.filter fun path => !existNode zk path

/-- The node a path of one component more is below. -/
def above (done : List Bytes) : Bytes := if text done = [] then root else text done

theorem above_concat (done : List Bytes) (c : Bytes) : above (done ++ [c]) = text (done ++ [c]) :=
  if_neg fun h => by
    rw [text_concat] at h
    simp at h

theorem parentOf_text (done : List Bytes) {c : Bytes} (h : slash ∉ c) : parentOf (text (done ++ [c])) = above done := by
  have hall : ∀ b ∈ c.reverse, (b != slash) = true := fun b hb => by
    have hne : b ≠ slash := fun e => h (e ▸ List.mem_reverse.mp hb)
    simpa using hne
  have hup : (text (done ++ [c])).rdropWhile (· != slash) = text done ++ [slash] := by
    rw [text_concat, List.rdropWhile, List.reverse_append, List.reverse_cons, List.append_assoc,
      List.dropWhile_append_of_pos hall]
    simp
  rw [parentOf, hup, List.dropLast_concat]
  rfl

theorem existNode_append (zk : Zk) (path q : Bytes) (creates : List Create) :
    existNode ⟨zk.nodes ++ [path], creates⟩ q = (existNode zk q || decide (q = path)) := by
  simp only [existNode, List.mem_append, List.mem_singleton, Bool.decide_or, Bool.or_assoc]

/-- Below a node that is there, a create answers whether the node was missing. -/
theorem createNode_below {zk : Zk} {path : Bytes} (h : existNode zk (parentOf path) = true) (value : Option CStr)
    (type : NodeType) : createNode zk path value type = (if existNode zk path then -1 else 0,
      ⟨zk.nodes ++ missing zk [path], zk.creates ++ [⟨path, value, type, !existNode zk path⟩]⟩) := by
  cases hex : existNode zk path with
  | true => simp [createNode, missing, hex]
  | false => simp [createNode, missing, hex, h]

/-- One node, below one that is there. -/
theorem makeSureNode_eq {zk : Zk} {path : Bytes} (h : existNode zk (parentOf path) = true) : makeSureNode zk path =
    if existNode zk path then zk else ⟨zk.nodes ++ [path], zk.creates ++ [made path]⟩ := by
  unfold makeSureNode
  split
  · rfl
  · rename_i hnone
    rw [createNode_below h, missing, List.filter_cons_of_pos (by simpa using hnone), Bool.eq_false_of_not_eq_true hnone]
    rfl

theorem existNode_makeSureNode {zk : Zk} {path : Bytes} (h : existNode zk (parentOf path) = true) :
    existNode (makeSureNode zk path) path = true := by
  rw [makeSureNode_eq h]
  split
  · assumption
  · rw [existNode_append, decide_eq_true rfl, Bool.or_true]

theorem length_text_lt {done l comps : List Bytes} (h : l ∈ prefixes comps) :
    (text done).length < (text (done ++ l)).length := by
  have hne : l ≠ [] := by
    intro hnil
    subst hnil
    cases comps with
    | nil => cases h
    | cons c comps =>
      rw [prefixes_cons] at h
      simp at h
  obtain ⟨c, l, rfl⟩ := List.exists_cons_of_ne_nil hne
  simp only [text, List.flatMap_append, List.flatMap_cons, List.length_append, List.length_cons]
  omega

/-- From the top, each node below one that is there: the missing ones are created. -/
theorem makeSure_prefixes (comps : List Bytes) : ∀ {done : List Bytes} {zk : Zk}, Clean comps →
    existNode zk (above done) = true →
    ((prefixes comps).map fun l => text (done ++ l)).foldl makeSureNode zk =
        ⟨zk.nodes ++ missing zk ((prefixes comps).map fun l => text (done ++ l)),
          zk.creates ++ (missing zk ((prefixes comps).map fun l => text (done ++ l))).map made⟩ ∧
      existNode (((prefixes comps).map fun l => text (done ++ l)).foldl makeSureNode zk) (above (done ++ comps)) =
        true := by
  induction comps with
  | nil =>
    intro done zk _ habove
    refine ⟨?_, ?_⟩
    · show zk = ⟨zk.nodes ++ [], zk.creates ++ []⟩
      rw [List.append_nil, List.append_nil]
    · rw [List.append_nil]
      exact habove
  | cons c comps ih =>
    intro done zk hclean habove
    have hrest : Clean comps := fun d hd => hclean d (List.mem_cons_of_mem _ hd)
    have hparent : existNode zk (parentOf (text (done ++ [c]))) = true := by
      rw [parentOf_text done (hclean c List.mem_cons_self).2.1]
      exact habove
    have hpaths : ((prefixes (c :: comps)).map fun l => text (done ++ l)) =
        text (done ++ [c]) :: (prefixes comps).map fun l => text (done ++ [c] ++ l) := by
      rw [prefixes_cons, List.map_cons, List.map_map]
      refine congrArg _ (List.map_congr_left fun l _ => ?_)
      rw [List.append_assoc]
      rfl
    have habove' : existNode (makeSureNode zk (text (done ++ [c]))) (above (done ++ [c])) = true := by
      rw [above_concat]
      exact existNode_makeSureNode hparent
    -- the later paths are longer than this one
    have hsame :
        missing (makeSureNode zk (text (done ++ [c]))) ((prefixes comps).map fun l => text (done ++ [c] ++ l)) =
          missing zk ((prefixes comps).map fun l => text (done ++ [c] ++ l)) := by
      refine List.filter_congr fun q hq => ?_
      obtain ⟨l, hl, rfl⟩ := List.mem_map.mp hq
      have hne : text (done ++ [c] ++ l) ≠ text (done ++ [c]) := fun e =>
        absurd (congrArg List.length e) (Nat.ne_of_gt (length_text_lt hl))
      rw [makeSureNode_eq hparent]
      split
      · rfl
      · rw [existNode_append, decide_eq_false hne, Bool.or_false]
    obtain ⟨hrun, hlast⟩ := ih hrest habove'
    rw [hpaths, List.foldl_cons, hrun]
    refine ⟨?_, ?_⟩
    · rw [hsame, makeSureNode_eq hparent]
      by_cases hex : existNode zk (text (done ++ [c])) = true
      · rw [if_pos hex, missing, missing, List.filter_cons_of_neg (by rw [hex]; decide)]
      · rw [if_neg hex, missing, missing, List.filter_cons_of_pos (by simpa using hex), List.append_assoc,
          List.append_assoc]
        rfl
    · have hcomps : done ++ c :: comps = done ++ [c] ++ comps := List.append_cons ..
      rw [← hrun, hcomps]
      exact hlast

/-! ## The two functions -/

theorem makeSureNodePath_eq (zk : Zk) {c : UInt8} {s after : Bytes} (hs : 0 ∉ c :: s) (hne : s ≠ []) :
    makeSureNodePath zk (c :: (s ++ 0 :: after)) =
      some (0, makeSureAt zk (c :: (s ++ 0 :: after)) (cuts 1 1 s), c :: (s ++ 0 :: after)) := by
  have hread : stringAt (c :: (s ++ 0 :: after)) 0 = some (c :: s) := @stringAt_append [] (c :: s) after hs 0 rfl
  have hc : 0 ∉ [c] := fun h0 => hs (List.mem_singleton.mp h0 ▸ List.mem_cons_self)
  have hrest : 0 ∉ s := fun h0 => hs (List.mem_cons_of_mem _ h0)
  have hfuel : s.length < (c :: (s ++ 0 :: after)).length := by
    rw [List.length_cons, List.length_append]
    omega
  have hloop : makeSureLoop (c :: (s ++ 0 :: after)).length zk (c :: (s ++ 0 :: after)) 1 =
      some (makeSureAt zk (c :: (s ++ 0 :: after)) (cuts 1 1 s), c :: (s ++ 0 :: after)) :=
    @makeSureLoop_eq _ zk [c] s after hc hrest hfuel
  have hpos := List.length_pos_iff.mpr hne
  rw [makeSureNodePath, hread]
  simp only [Option.bind_eq_bind, Option.bind_some]
  rw [if_neg (by rw [List.length_cons]; omega), hloop]
  rfl

/-- Whatever the path, the buffer is as it was. -/
theorem makeSureNodePath_restores (zk : Zk) {mem : Bytes} (h : 0 ∈ mem) :
    ∃ ret zk', makeSureNodePath zk mem = some (ret, zk', mem) := by
  obtain ⟨s, after, rfl, hs⟩ := List.eq_append_cons_of_mem h
  by_cases hlong : s.length ≤ 1
  · have hread : stringAt (s ++ 0 :: after) 0 = some s := @stringAt_append [] s after hs 0 rfl
    refine ⟨-1, zk, ?_⟩
    rw [makeSureNodePath, hread]
    exact if_pos hlong
  · obtain ⟨c, s, rfl⟩ := List.exists_cons_of_ne_nil (List.ne_nil_of_length_pos (show 0 < s.length by omega))
    rw [List.length_cons] at hlong
    exact ⟨0, _, makeSureNodePath_eq zk hs (List.ne_nil_of_length_pos (by omega))⟩

/-- The parent's path, with the separator at its end. -/
theorem makeSureNodePath_text (zk : Zk) {comps : List Bytes} (hclean : Clean comps) (hne : comps ≠ []) :
    makeSureNodePath zk (text comps ++ [slash] ++ [0]) =
      some (0, ((prefixes comps).map text).foldl makeSureNode zk, text comps ++ [slash] ++ [0]) := by
  have hs : 0 ∉ slash :: comps.flatMap (· ++ [slash]) := by
    rw [← text_slash, List.mem_append, List.mem_singleton]
    exact fun h => h.elim (noNul_text hclean) fun h => absurd h (by decide)
  have hrest : comps.flatMap (· ++ [slash]) ≠ [] := by
    obtain ⟨c, comps, rfl⟩ := List.exists_cons_of_ne_nil hne
    simp
  have hcuts : (cuts 1 1 (comps.flatMap (· ++ [slash]))).map
      ((slash :: (comps.flatMap (· ++ [slash]) ++ [0])).take ·) = (prefixes comps).map text :=
    @cuts_text comps [] [0] hclean
  rw [text_slash]
  show makeSureNodePath zk (slash :: (comps.flatMap (· ++ [slash]) ++ [0])) = _
  rw [makeSureNodePath_eq zk hs hrest, makeSureAt, ← hcuts, List.foldl_map]
  rfl

theorem strrchr_text (p : AbsPath) {comps : List Bytes} {c : Bytes} (h : p.comps = comps ++ [c]) :
    strrchr p.str slash = some (text comps).length := by
  have hchars : p.str.chars = text comps ++ slash :: c := by
    rw [← text_concat, ← h]
    rfl
  have hc : slash ∉ c := (p.clean c (by rw [h]; simp)).2.1
  have hname : p.str.chars.rtakeWhile (· != slash) = c := childName_append hchars hc
  have hlen : p.str.length = (text comps).length + (c.length + 1) := by
    rw [CStr.length, hchars, List.length_append, List.length_cons]
  rw [strrchr, if_pos (by rw [hchars]; simp), hname, hlen]
  exact congrArg some (by omega)

/-- An ancestor is not the node itself. -/
theorem existNode_ancestors (zk : Zk) (creates : List Create) {comps : List Bytes} (c : Bytes) :
    existNode ⟨zk.nodes ++ missing zk ((prefixes comps).map text), creates⟩ (text (comps ++ [c])) =
      existNode zk (text (comps ++ [c])) := by
  have hnot : text (comps ++ [c]) ∉ missing zk ((prefixes comps).map text) := by
    intro h
    obtain ⟨l, hl, he⟩ := List.mem_map.mp (List.mem_of_mem_filter h)
    obtain ⟨t, rfl⟩ := (List.mem_inits l comps).mp (List.mem_of_mem_tail hl)
    have := congrArg List.length he
    simp only [text, List.flatMap_append, List.length_append, List.flatMap_cons, List.length_cons] at this
    omega
  simp only [existNode, List.mem_append, hnot, or_false]

/-- The call, for a path with a parent below the root. -/
theorem makeSureEnode_eq (zk : Zk) (p : AbsPath) (value : Option CStr) {comps : List Bytes} {c : Bytes}
    (h : p.comps = comps ++ [c]) (hne : comps ≠ []) : makeSureEnode zk p.str value =
      some (createNode (((prefixes comps).map text).foldl makeSureNode zk) p.str.chars value .ephemeral) := by
  have hclean : Clean comps := fun d hd => p.clean d (by rw [h]; exact List.mem_append_left _ hd)
  have hchars : p.str.chars = text comps ++ slash :: c := by
    rw [← text_concat, ← h]
    rfl
  have hbuf : (p.str.take ((text comps).length + 1)).chars = text comps ++ [slash] := by
    rw [CStr.chars_take, hchars, List.append_cons]
    exact List.take_left' (by rw [List.length_append, List.length_singleton])
  obtain ⟨n, hn⟩ : ∃ n, (text comps).length = n + 1 := by
    obtain ⟨d, comps, rfl⟩ := List.exists_cons_of_ne_nil hne
    exact ⟨_, rfl⟩
  have hparent := makeSureNodePath_text zk hclean hne
  rw [hn] at hbuf
  rw [makeSureEnode, strrchr_text p h, hn]
  simp only [hbuf, hparent, Option.bind_eq_bind, Option.bind_some]

theorem make_sure_enode_creates (zk : Zk) (p : AbsPath) (value : Option CStr) (h : 2 ≤ p.comps.length) :
    (∃ ret after, makeSureEnode zk p.str value = some (ret, after) ∧
      after.creates = zk.creates ++ (missing zk p.ancestors).map made ++
        [⟨p.str.chars, value, .ephemeral, !existNode zk p.str.chars⟩] ∧
      after.nodes = zk.nodes ++ missing zk p.ancestors ++ missing zk [p.str.chars] ∧
      (ret = 0 ↔ existNode zk p.str.chars = false)) ∧
    ∀ mem, 0 ∈ mem → ∃ ret zk', makeSureNodePath zk mem = some (ret, zk', mem) := by
  refine ⟨?_, fun mem hmem => makeSureNodePath_restores zk hmem⟩
  obtain ⟨comps, c, hcomps⟩ : ∃ comps c, p.comps = comps ++ [c] :=
    ⟨_, _, (List.dropLast_append_getLast (List.ne_nil_of_length_pos (by omega))).symm⟩
  have hne : comps ≠ [] := by
    intro hnil
    rw [hcomps, hnil] at h
    exact absurd h (by simp)
  have hclean : Clean comps := fun d hd => p.clean d (by rw [hcomps]; exact List.mem_append_left _ hd)
  have hchars : p.str.chars = text (comps ++ [c]) := by
    rw [← hcomps]
    rfl
  have hanc : p.ancestors = (prefixes comps).map text := by
    rw [AbsPath.ancestors, hcomps, List.dropLast_concat]
  obtain ⟨hrun, hlast⟩ := @makeSure_prefixes comps [] zk hclean (decide_eq_true (Or.inl rfl))
  have hparent : existNode (((prefixes comps).map text).foldl makeSureNode zk) (parentOf p.str.chars) = true := by
    rw [hchars, parentOf_text comps (p.clean c (by rw [hcomps]; simp)).2.1]
    exact hlast
  have hself : existNode (((prefixes comps).map text).foldl makeSureNode zk) p.str.chars =
      existNode zk p.str.chars := by
    rw [hchars]
    exact (congrArg (existNode · _) hrun).trans (existNode_ancestors zk _ c)
  have hmissing : missing (((prefixes comps).map text).foldl makeSureNode zk) [p.str.chars] =
      missing zk [p.str.chars] := by
    simp only [missing, List.filter_cons, List.filter_nil, hself]
  refine ⟨_, _, (makeSureEnode_eq zk p value hcomps hne).trans (congrArg some (createNode_below hparent value _)), ?_⟩
  rw [hmissing, hself, hanc]
  have hnodes := congrArg Zk.nodes hrun
  have hcreates := congrArg Zk.creates hrun
  simp only [List.nil_append] at hnodes hcreates
  refine ⟨congrArg (· ++ _) hcreates, congrArg (· ++ _) hnodes, ?_⟩
  cases existNode zk p.str.chars <;> simp

def samplePath : AbsPath := ⟨[(CStr.lit "g").chars, (CStr.lit "providers").chars, (CStr.lit "n").chars], by decide⟩

/-- Of the group's nodes only the first is there. -/
theorem make_sure_enode_creates_sample : ∃ ret after,
    makeSureEnode ⟨[(CStr.lit "/g").chars], []⟩ samplePath.str none = some (ret, after) ∧ ret = 0 ∧
      after.creates = [made (CStr.lit "/g/providers").chars,
        ⟨(CStr.lit "/g/providers/n").chars, none, .ephemeral, true⟩] := by
  obtain ⟨ret, after, hrun, hcreates, -, hret⟩ :=
    (make_sure_enode_creates ⟨[(CStr.lit "/g").chars], []⟩ samplePath none (by decide)).1
  exact ⟨ret, after, hrun, hret.mpr (by decide +kernel), hcreates.trans (by decide +kernel)⟩

end Ddm.Provider.NodePath
