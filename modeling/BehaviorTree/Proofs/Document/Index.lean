import BehaviorTree.Proofs.Document.Definitions
import BehaviorTree.Proofs.Text.Trim
import Mathlib.Data.List.Nodup
import Mathlib.Data.List.Induction

/-!
# The index represents the definitions

An index is filled definition by definition, each in the place of one that it replaces. What it
holds in the end can be said of the whole list of definitions. An identifier leads to the last
definition of it. Identifiers are listed in the order of their first definitions, and each is
spelled as in its last one (`TreeIndex.represents_definitions`).
-/

namespace BehaviorTree

namespace TreeIndex

/-! ## What several definitions define -/

/-- An element has an identifier that is not blank. -/
def HasId (tree : Element) (id : String) : Prop :=
  tree.attribute? "ID" = some id ∧ Text.trim id ≠ ""

/-- An element defines the tree of an identifier. The case of letters does not matter. -/
def Defines (tree : Element) (id : String) : Prop :=
  ∃ own, HasId tree own ∧ Text.sameName own id = true

/-- The last of several elements that define the tree of an identifier. -/
def IsLastOf (trees : List Element) (id : String) (tree : Element) : Prop :=
  ∃ before after, trees = before ++ tree :: after ∧ Defines tree id ∧
    ∀ other ∈ after, ¬ Defines other id

/-- Several elements begin with some that define the tree of one identifier but not that of
another. -/
def DefinedBefore (trees : List Element) (id other : String) : Prop :=
  ∃ before after, trees = before ++ after ∧ (∃ tree ∈ before, Defines tree id) ∧
    ∀ tree ∈ before, ¬ Defines tree other

/-- One identifier for each tree that several elements define, in the order of the first
definitions and spelled as in the last ones. -/
structure Lists (trees : List Element) (ids : List String) : Prop where
  /-- No two listed identifiers are the same up to the case of letters. -/
  differ : ids.Pairwise fun id other => Text.sameName id other = false
  /-- Every identifier that is defined is listed in some spelling. -/
  complete : ∀ tree ∈ trees, ∀ id, HasId tree id → ∃ listed ∈ ids, Text.sameName listed id = true
  /-- Every listed identifier is spelled as in its last definition. -/
  spelled : ∀ id ∈ ids, ∃ tree, IsLastOf trees id tree ∧ HasId tree id
  /-- An identifier that is defined earlier is listed earlier. -/
  ordered : ids.Pairwise (DefinedBefore trees)

/-- An element has one identifier. -/
theorem HasId.unique {tree : Element} {id other : String} (hid : HasId tree id)
    (hother : HasId tree other) : id = other :=
  Option.some.inj (hid.1.symm.trans hother.1)

/-- An element defines the tree of its own identifier. -/
theorem HasId.defines {tree : Element} {id : String} (hid : HasId tree id) : Defines tree id :=
  ⟨id, hid, Text.sameName_self id⟩

/-- The identifier that the index reads off an element is the one that it has. -/
theorem idOf?_eq_some_iff {tree : Element} {id : String} :
    idOf? tree = some id ↔ HasId tree id := by
  rw [idOf?, Option.filter_eq_some_iff, HasId, Ne, Text.trim_eq_empty_iff]
  simp

/-- A definition answers to an identifier exactly if it defines its tree. -/
theorem answersTo_iff_defines {tree : Element} {id : String} :
    answersTo id tree = true ↔ Defines tree id := by
  simp only [answersTo_iff, Defines, idOf?_eq_some_iff]

/-- What an element defines does not depend on the case of letters. -/
theorem defines_congr {id other : String} (hsame : Text.sameName id other = true)
    (tree : Element) : Defines tree id ↔ Defines tree other := by
  rw [← answersTo_iff_defines, ← answersTo_iff_defines, answersTo_congr hsame]

/-- Which definitions come first does not depend on the case of the first identifier. -/
theorem definedBefore_congr_left {trees : List Element} {id other later : String}
    (hsame : Text.sameName id other = true) :
    DefinedBefore trees id later ↔ DefinedBefore trees other later := by
  simp only [DefinedBefore, defines_congr hsame]

/-- Which definitions come first does not depend on the case of the second identifier. -/
theorem definedBefore_congr_right {trees : List Element} {earlier id other : String}
    (hsame : Text.sameName id other = true) :
    DefinedBefore trees earlier id ↔ DefinedBefore trees earlier other := by
  simp only [DefinedBefore, defines_congr hsame]

/-- Further definitions come later. -/
theorem DefinedBefore.append {trees : List Element} {id other : String}
    (hbefore : DefinedBefore trees id other) (rest : List Element) :
    DefinedBefore (trees ++ rest) id other := by
  obtain ⟨before, after, rfl, hid, hother⟩ := hbefore
  exact ⟨before, after ++ rest, List.append_assoc .., hid, hother⟩

/-- Of two identifiers at most one is defined before the other. -/
theorem DefinedBefore.asymm {trees : List Element} {id other : String}
    (hid : DefinedBefore trees id other) : ¬ DefinedBefore trees other id := by
  rintro ⟨before, after, htrees, ⟨tree, htree, hdefines⟩, hnone⟩
  obtain ⟨before', after', rfl, ⟨tree', htree', hdefines'⟩, hnone'⟩ := hid
  -- Of two beginnings of one list the shorter one is a beginning of the longer one.
  obtain hstarts | hstarts := List.prefix_or_prefix_of_prefix
    (List.prefix_append before' after') ⟨after, htrees.symm⟩
  · exact hnone tree' (hstarts.subset htree') hdefines'
  · exact hnone' tree (hstarts.subset htree) hdefines

/-- The last of several definitions stands at the position that is found for it. -/
theorem isLastOf_iff {trees : List Element} {id : String} {tree : Element} :
    IsLastOf trees id tree ↔
      ∃ position, lastAnswering? id trees = some position ∧ trees[position]? = some tree := by
  simp only [lastAnswering?_eq_some_iff, ← Bool.not_eq_true, answersTo_iff_defines]
  constructor
  · rintro ⟨before, after, rfl, hdefines, hnone⟩
    have htree : (before ++ tree :: after)[before.length]? = some tree := by simp
    refine ⟨before.length, ⟨tree, htree, hdefines, ?_⟩, htree⟩
    rwa [List.drop_length_add_append, List.drop_succ_cons, List.drop_zero]
  · rintro ⟨position, ⟨found, hfound, hdefines, hnone⟩, htree⟩
    cases hfound.symm.trans htree
    obtain ⟨hlt, rfl⟩ := List.getElem?_eq_some_iff.mp htree
    refine ⟨trees.take position, trees.drop (position + 1), ?_, hdefines, hnone⟩
    rw [List.getElem_cons_drop, List.take_append_drop]

/-- There is only one last definition, however the identifier is spelled. -/
theorem IsLastOf.unique {trees : List Element} {id other : String} {tree last : Element}
    (htree : IsLastOf trees id tree) (hlast : IsLastOf trees other last)
    (hsame : Text.sameName id other = true) : tree = last := by
  have hlast : IsLastOf trees id last := by
    simpa only [IsLastOf, defines_congr hsame] using hlast
  obtain ⟨position, hposition, htree⟩ := isLastOf_iff.mp htree
  obtain ⟨position', hposition', hlast⟩ := isLastOf_iff.mp hlast
  cases hposition.symm.trans hposition'
  exact Option.some.inj (htree.symm.trans hlast)

/-- The last of several definitions is one of them. -/
theorem IsLastOf.mem {trees : List Element} {id : String} {tree : Element}
    (hlast : IsLastOf trees id tree) : tree ∈ trees := by
  obtain ⟨before, after, rfl, _⟩ := hlast
  exact List.mem_append_right _ List.mem_cons_self

/-- Two listings of the same definitions hold the same identifiers. -/
theorem Lists.subset {trees : List Element} {ids others : List String} (hids : Lists trees ids)
    (hothers : Lists trees others) : ids ⊆ others := by
  intro id hid
  obtain ⟨tree, hlast, hown⟩ := hids.spelled id hid
  obtain ⟨listed, hlisted, hsame⟩ := hothers.complete tree hlast.mem id hown
  obtain ⟨tree', hlast', hown'⟩ := hothers.spelled listed hlisted
  cases hlast'.unique hlast hsame
  rwa [hown.unique hown']

/-- A listing holds no identifier twice. -/
theorem Lists.nodup {trees : List Element} {ids : List String} (hids : Lists trees ids) :
    ids.Nodup := by
  refine hids.differ.imp fun hdiffer heq => ?_
  rw [heq, Text.sameName_self] at hdiffer
  cases hdiffer

/-- What the definitions are decides how they are listed. -/
theorem Lists.unique {trees : List Element} {ids others : List String} (hids : Lists trees ids)
    (hothers : Lists trees others) : ids = others := by
  have hperm : ids.Perm others := (List.perm_ext_iff_of_nodup hids.nodup hothers.nodup).mpr
    fun id => ⟨fun hid => hids.subset hothers hid, fun hid => hothers.subset hids hid⟩
  exact hperm.eq_of_pairwise (fun _ _ _ _ hle hge => absurd hge hle.asymm)
    hids.ordered hothers.ordered

/-! ## Filling an index -/

/-- The index of a document is that of its definitions. -/
theorem ofRoot_eq (root : Element) : (ofRoot root).1 = ofDefinitions (definitions root) := rfl

/-- Definitions may be added in two parts. -/
theorem addAll_append (index : TreeIndex) (trees rest : List Element) :
    (index.addAll (trees ++ rest)).1 = ((index.addAll trees).1.addAll rest).1 := by
  induction trees generalizing index with
  | nil => rfl
  | cons tree trees ih => exact ih (index.add tree).1

/-- One definition more at the end is added last. -/
theorem ofDefinitions_append_singleton (trees : List Element) (tree : Element) :
    ofDefinitions (trees ++ [tree]) = ((ofDefinitions trees).add tree).1 :=
  addAll_append _ trees [tree]

/-- An identifier is found with a tree exactly if this is the last definition of it. -/
theorem get?_ofDefinitions_eq_some_iff {trees : List Element} {id : String} {tree : Element} :
    (ofDefinitions trees).get? id = some tree ↔ IsLastOf trees id tree := by
  rw [get?_ofDefinitions, Option.bind_eq_some_iff, isLastOf_iff]

/-- An identifier is not found exactly if nothing defines it. -/
theorem get?_ofDefinitions_eq_none_iff_forall {trees : List Element} {id : String} :
    (ofDefinitions trees).get? id = none ↔ ∀ tree ∈ trees, ¬ Defines tree id := by
  simp only [get?_ofDefinitions_eq_none_iff, lastAnswering?_eq_none_iff, ← Bool.not_eq_true,
    answersTo_iff_defines]

/-- What can be looked up is listed in some spelling. -/
theorem exists_listed_of_get?_ne_none {index : TreeIndex} {id : String}
    (hget : index.get? id ≠ none) : ∃ listed ∈ index.ids, Text.sameName listed id = true := by
  obtain ⟨tree, hget⟩ := Option.ne_none_iff_exists'.mp hget
  obtain ⟨entry, hfind, _⟩ := Option.map_eq_some_iff.mp hget
  exact ⟨entry.1, List.mem_map_of_mem (List.mem_of_find?_eq_some hfind),
    by simpa using List.find?_some hfind⟩

/-- Every identifier that is defined is listed in some case of letters. -/
theorem complete_ofDefinitions {trees : List Element} {tree : Element} {id : String}
    (htree : tree ∈ trees) (hdefines : Defines tree id) :
    ∃ listed ∈ (ofDefinitions trees).ids, Text.sameName listed id = true :=
  exists_listed_of_get?_ne_none fun hnone =>
    get?_ofDefinitions_eq_none_iff_forall.mp hnone tree htree hdefines

/-- A listed identifier is spelled as in the last definition of it. -/
theorem spelled_ofDefinitions {trees : List Element} {id : String}
    (hid : id ∈ (ofDefinitions trees).ids) : ∃ tree, IsLastOf trees id tree ∧ HasId tree id := by
  obtain ⟨⟨_, tree⟩, hentry, rfl⟩ := List.mem_map.mp hid
  have hproper := isProper_ofDefinitions trees
  exact ⟨tree, get?_ofDefinitions_eq_some_iff.mp (hproper.get?_eq hentry),
    idOf?_eq_some_iff.mp (hproper.named _ hentry)⟩

/-- One more definition keeps the order of the first definitions. -/
theorem ordered_add {trees : List Element}
    (hordered : (ofDefinitions trees).ids.Pairwise (DefinedBefore trees)) (tree : Element) :
    ((ofDefinitions trees).add tree).1.ids.Pairwise (DefinedBefore (trees ++ [tree])) := by
  replace hordered : (ofDefinitions trees).ids.Pairwise (DefinedBefore (trees ++ [tree])) :=
    hordered.imp fun hbefore => hbefore.append [tree]
  unfold add
  cases idOf? tree with
  | none => exact hordered
  | some id =>
    refine pairwise_place definedBefore_congr_left definedBefore_congr_right hordered
      fun hdiffer listed hlisted => ?_
    -- A new identifier is defined by none of the earlier definitions, a listed one by some.
    obtain ⟨found, hlast, hown⟩ := spelled_ofDefinitions hlisted
    refine ⟨trees, [tree], rfl, ⟨found, hlast.mem, hown.defines⟩, fun found hfound hdefines => ?_⟩
    obtain ⟨existing, hexisting, hsame⟩ := complete_ofDefinitions hfound hdefines
    cases (hdiffer existing hexisting).symm.trans hsame

/-- Identifiers are listed in the order of their first definitions. -/
theorem ordered_ofDefinitions (trees : List Element) :
    (ofDefinitions trees).ids.Pairwise (DefinedBefore trees) := by
  induction trees using List.reverseRecOn with
  | nil => exact List.Pairwise.nil
  | append_singleton trees tree ih =>
    rw [ofDefinitions_append_singleton]
    exact ordered_add ih tree

/-- The identifiers of the index are a listing of the definitions. -/
theorem lists_ofDefinitions (trees : List Element) : Lists trees (ofDefinitions trees).ids where
  differ := List.pairwise_map.mpr (isProper_ofDefinitions trees).differ
  complete _ htree _ hid := complete_ofDefinitions htree hid.defines
  spelled _ hid := spelled_ofDefinitions hid
  ordered := ordered_ofDefinitions trees

/-- A later definition takes the place of the first one, under its own spelling. -/
example :
    (ofDefinitions [⟨"BehaviorTree", [⟨"ID", "Main"⟩], []⟩, ⟨"BehaviorTree", [⟨"ID", "Lib"⟩], []⟩,
      ⟨"BehaviorTree", [⟨"ID", "MAIN"⟩], []⟩]).ids = ["MAIN", "Lib"] := by rfl

/-- The index of a document represents its definitions. No two of its identifiers differ by no more
than the case of letters. An identifier leads to the last definition that has it, if there is one.
The identifiers are listed in the only way in which there is one for each defined tree, in the order
of the first definitions and spelled as in the last ones. -/
theorem represents_definitions (root : Element) :
    (ofRoot root).1.ids.Pairwise (fun id other => Text.sameName id other = false) ∧
    (∀ id tree, (ofRoot root).1.get? id = some tree ↔ IsLastOf (definitions root) id tree) ∧
    (∀ id, (ofRoot root).1.get? id = none ↔ ∀ tree ∈ definitions root, ¬ Defines tree id) ∧
    ∀ ids, Lists (definitions root) ids ↔ ids = (ofRoot root).1.ids := by
  rw [ofRoot_eq]
  have hlists := lists_ofDefinitions (definitions root)
  refine ⟨hlists.differ, fun _ _ => get?_ofDefinitions_eq_some_iff,
    fun _ => get?_ofDefinitions_eq_none_iff_forall, fun ids => ⟨fun hids => hids.unique hlists, ?_⟩⟩
  rintro rfl
  exact hlists

end TreeIndex

end BehaviorTree
