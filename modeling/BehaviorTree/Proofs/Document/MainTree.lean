import BehaviorTree.Proofs.Document.Definitions
import BehaviorTree.Proofs.Document.Outcome

/-!
# The choice of the main tree

The main tree of a document is the first definition with exactly the requested identifier, or
the first of all if there is none. A reference goes to the last definition with its identifier
in any case of letters. This file says when the two rules agree.
-/

namespace BehaviorTree

namespace Loader

open TreeIndex

variable {κ : Type} [Application κ]

/-- Whether a definition has exactly the given identifier. -/
def isNamed (name : String) (tree : Element) : Bool := tree.attribute? "ID" = some name

/-- The position of the definition that is loaded as the main tree. -/
def mainPosition? (root : Element) : Option Nat :=
  ((requestedTree? root).bind fun name => (definitions root).findIdx? (isNamed name)).or
    ((definitions root).head?.map fun _ => 0)

/-- The main tree is the definition at the position of the main tree. -/
theorem result_mainTree (root : Element) :
    (mainTree root).result =
      match (mainPosition? root).bind fun position => (definitions root)[position]? with
      | some main => .ok main
      | none => .error (.missingTree (root.children.map (·.name))) := by
  unfold mainTree mainPosition?
  rw [Load.result_ite_note_bind]
  split
  · next tree hfound =>
    obtain ⟨name, hrequest, hnamed⟩ := Option.bind_eq_some_iff.mp hfound
    change (definitions root).find? (isNamed name) = some tree at hnamed
    rw [List.find?_eq_bind_findIdx?_getElem?] at hnamed
    obtain ⟨position, hposition, hget⟩ := Option.bind_eq_some_iff.mp hnamed
    simp [hrequest, hposition, hget]
  · next hnone =>
    have hindex : ((requestedTree? root).bind fun name =>
        (definitions root).findIdx? (isNamed name)) = none := by
      refine Option.bind_eq_none_iff.mpr fun name hrequest => ?_
      have hunnamed : (definitions root).find? (isNamed name) = none :=
        Option.bind_eq_none_iff.mp hnone name hrequest
      rw [List.findIdx?_eq_none_iff]
      simpa using List.find?_eq_none.mp hunnamed
    rw [hindex, Option.none_or]
    split
    · next hempty =>
      have hdefinitions : definitions root = [] := hempty
      simp [hdefinitions]
    · next tree rest hfirst =>
      have hdefinitions : definitions root = tree :: rest := hfirst
      cases requestedTree? root <;> simp [hdefinitions, Except.bind]

/-- A main tree is found exactly if it is the definition at the main position. -/
theorem result_mainTree_eq_ok_iff {root main : Element} :
    (mainTree root).result = .ok main ↔
      ∃ position, mainPosition? root = some position ∧
        (definitions root)[position]? = some main := by
  rw [result_mainTree, ← Option.bind_eq_some_iff]
  split
  · next found hfound => simp [hfound]
  · next hnone => simp [hnone]

/-- The first position of a definition with exactly an identifier: no earlier definition has
it. -/
theorem findIdx?_isNamed_eq_some_iff {name : String} {trees : List Element} {position : Nat} :
    trees.findIdx? (isNamed name) = some position ↔
      ∃ tree, trees[position]? = some tree ∧ isNamed name tree = true ∧
        ∀ other ∈ trees.take position, isNamed name other = false := by
  induction trees generalizing position with
  | nil => simp
  | cons first rest ih =>
    rw [List.findIdx?_cons]
    cases position with
    | zero =>
      cases hfirst : isNamed name first <;> simp [hfirst]
    | succ position =>
      cases hfirst : isNamed name first with
      | true => simp [hfirst]
      | false => simp [hfirst, ih]

/-- An identifier that a definition answers to is not empty. -/
theorem ne_empty_of_answersTo {id : String} {tree : Element} (hanswers : answersTo id tree = true) :
    id ≠ "" := by
  rintro rfl
  obtain ⟨own, hown, hsame⟩ := answersTo_iff.mp hanswers
  obtain ⟨_, hblank⟩ := Option.filter_eq_some_iff.mp hown
  have hempty : own.toList = [] := by simpa using Text.sameName_iff.mp hsame
  simp [Text.isBlankText, hempty] at hblank

/-- A request is for the identifier that it gives, unless that is empty. -/
theorem mainPosition?_of_request {root : Element} {name : String}
    (hrequest : root.attribute? "main_tree_to_execute" = some name) (hname : name ≠ "") :
    mainPosition? root = ((definitions root).findIdx? (isNamed name)).or
      ((definitions root).head?.map fun _ => 0) := by
  have hrequested : requestedTree? root = some name := by
    simp [requestedTree?, hrequest, Option.filter_some, hname]
  rw [mainPosition?, hrequested, Option.bind_some]

/-- A reference that gives only an identifier is replaced by the root element of the tree that
the identifier refers to. -/
theorem resolve_of_get? {index : TreeIndex} {names : List String} {id : String} {tree : Element}
    (htrim : Text.trim id = id) (hid : id ≠ "") (hclosed : isOpen names id = false)
    (hget : index.get? id = some tree) :
    resolve index names ⟨"SubTree", [⟨"ID", id⟩], []⟩ =
      match tree.children with
      | [] => .error (.emptyTree id)
      | element :: _ => .ok (id, element) := by
  have hreference : referenceId? ⟨"SubTree", [⟨"ID", id⟩], []⟩ = some id := by
    simp [referenceId?, Element.attribute?, htrim, hid]
  unfold resolve
  simp only [hreference, hclosed, Bool.false_eq_true, if_false, hget]
  cases tree.children with
  | nil => rfl
  | cons element rest => rfl

/-- Whether the definition at a position is the main tree for a requested identifier: it is the
first that has exactly this identifier, or none has and it is the first of all. -/
def IsMainFor (root : Element) (name : String) (position : Nat) (tree : Element) : Prop :=
  (isNamed name tree = true ∧
    ∀ other ∈ (definitions root).take position, isNamed name other = false) ∨
  (position = 0 ∧ ∀ other ∈ definitions root, isNamed name other = false)

/-- The main position is that of the definition which is the main tree for the request. -/
theorem mainPosition?_eq_some_iff {root tree : Element} {name : String} {position : Nat}
    (hrequest : root.attribute? "main_tree_to_execute" = some name) (hname : name ≠ "")
    (htree : (definitions root)[position]? = some tree) :
    mainPosition? root = some position ↔ IsMainFor root name position tree := by
  rw [mainPosition?_of_request hrequest hname, IsMainFor]
  cases hindex : (definitions root).findIdx? (isNamed name) with
  | some first =>
    obtain ⟨main, hfirst, hnamed, _⟩ := findIdx?_isNamed_eq_some_iff.mp hindex
    have hsome : ¬ ∀ other ∈ definitions root, isNamed name other = false := by
      intro hnone
      simp [hnone main (List.mem_of_getElem? hfirst)] at hnamed
    rw [Option.some_or, ← hindex, findIdx?_isNamed_eq_some_iff]
    simp [htree, hsome]
  | none =>
    have hnone : ∀ other ∈ definitions root, isNamed name other = false := by
      simpa using List.findIdx?_eq_none_iff.mp hindex
    have hunnamed := hnone tree (List.mem_of_getElem? htree)
    obtain ⟨main, rest, hdefinitions⟩ := List.exists_cons_of_length_pos
      (Nat.zero_lt_of_lt (List.getElem?_eq_some_iff.mp htree).1)
    have hhead : (definitions root).head? = some main := by rw [hdefinitions]; rfl
    simp only [Option.none_or, hhead, Option.map_some, Option.some.injEq, hunnamed,
      Bool.false_eq_true, false_and, false_or, and_iff_left hnone]
    exact eq_comm

/-- A document with a definition has a main tree. -/
theorem exists_mainPosition? {root tree : Element} (htree : tree ∈ definitions root) :
    ∃ position main, mainPosition? root = some position ∧
      (definitions root)[position]? = some main := by
  cases hexact : (requestedTree? root).bind fun name =>
      (definitions root).findIdx? (isNamed name) with
  | some position =>
    obtain ⟨name, _, hindex⟩ := Option.bind_eq_some_iff.mp hexact
    obtain ⟨main, hmain, _⟩ := findIdx?_isNamed_eq_some_iff.mp hindex
    exact ⟨position, main, by rw [mainPosition?, hexact, Option.some_or], hmain⟩
  | none =>
    obtain ⟨first, rest, hdefinitions⟩ := List.exists_cons_of_ne_nil (List.ne_nil_of_mem htree)
    exact ⟨0, first, by rw [mainPosition?, hexact, hdefinitions]; rfl, by rw [hdefinitions]; rfl⟩

/-- A document that requests the tree of a known identifier loads the definition at some
position, and this is the definition that a reference goes to exactly if that one is the first
with the very identifier, or the first of all where none has the very identifier. -/
theorem load_requested_tree_iff (loader : Loader κ) {root tree : Element} {name : String}
    (hrequest : root.attribute? "main_tree_to_execute" = some name)
    (htrim : Text.trim name = name) (hget : (ofRoot root).1.get? name = some tree) :
    ∃ position chosen main,
      definitionAt? root name = some position ∧ (definitions root)[position]? = some tree ∧
      mainPosition? root = some chosen ∧ (definitions root)[chosen]? = some main ∧
      (loader.load root).result = (if Text.sameName root.name "root" then
        loader.outcomeOf root main else .error (.invalidRoot root.name)) ∧
      (∀ names, isOpen names name = false →
        resolve (ofRoot root).1 names ⟨"SubTree", [⟨"ID", name⟩], []⟩ =
          match tree.children with
          | [] => .error (.emptyTree name)
          | element :: _ => .ok (name, element)) ∧
      (chosen = position ↔ IsMainFor root name position tree) := by
  obtain ⟨position, hposition, htree⟩ := get?_ofRoot_eq_some_iff.mp hget
  obtain ⟨_, htree', hanswers, _⟩ := lastAnswering?_eq_some_iff.mp hposition
  cases htree.symm.trans htree'
  have hname := ne_empty_of_answersTo hanswers
  obtain ⟨chosen, main, hchosen, hmain⟩ := exists_mainPosition? (List.mem_of_getElem? htree)
  have hloaded := result_mainTree_eq_ok_iff.mpr ⟨chosen, hchosen, hmain⟩
  refine ⟨position, chosen, main, hposition, htree, hchosen, hmain, ?_, ?_, ?_⟩
  · rw [result_load, hloaded]
    rfl
  · intro names hclosed
    exact resolve_of_get? htrim hname hclosed hget
  · rw [← mainPosition?_eq_some_iff hrequest hname htree, hchosen, Option.some.injEq]

/-- A definition under the name of the main tree. -/
def laterMain : Element :=
  ⟨"BehaviorTree", [⟨"ID", "Main"⟩], [⟨"ForceFailure", [], []⟩]⟩

/-- A document that defines its main tree twice. -/
def redefinedMain : Element :=
  ⟨"root", [⟨"main_tree_to_execute", "Main"⟩],
    [⟨"BehaviorTree", [⟨"ID", "Main"⟩], [⟨"AlwaysSuccess", [], []⟩]⟩, laterMain]⟩

/-- A reference to the main tree of this document goes to the later definition. -/
theorem get?_redefinedMain : (ofRoot redefinedMain).1.get? "Main" = some laterMain := by rfl

/-- In this document the main tree is another one than a reference to its identifier finds. -/
theorem load_requested_tree_redefined :
    redefinedMain.attribute? "main_tree_to_execute" = some "Main" ∧
    Text.trim "Main" = "Main" ∧
    (ofRoot redefinedMain).1.get? "Main" = some laterMain ∧
    ∃ position chosen, definitionAt? redefinedMain "Main" = some position ∧
      mainPosition? redefinedMain = some chosen ∧ chosen ≠ position := by
  refine ⟨rfl, rfl, get?_redefinedMain, ?_⟩
  obtain ⟨position, chosen, _, hposition, _, hchosen, _, _, _, hagree⟩ :=
    load_requested_tree_iff (⟨.standard, {}⟩ : Loader Empty) (rfl : redefinedMain.attribute? _ = _)
      rfl get?_redefinedMain
  refine ⟨position, chosen, hposition, hchosen, fun heq => ?_⟩
  subst heq
  cases hposition
  rcases hagree.mp rfl with ⟨_, hnone⟩ | ⟨hzero, _⟩
  · cases hnone _ (List.mem_cons_self)
  · cases hzero

/-- The requested tree is not always the one that a reference of the same name goes to. -/
theorem not_requested_tree_is_reference_target :
    ¬ ∀ (loader : Loader Empty) (root tree : Element) (name : String),
      root.attribute? "main_tree_to_execute" = some name → Text.trim name = name →
      (ofRoot root).1.get? name = some tree →
      (loader.load root).result = loader.outcomeOf root tree := by
  intro h
  have hagree := h ⟨.standard, {}⟩ redefinedMain laterMain "Main" rfl rfl get?_redefinedMain
  have hload : ((⟨.standard, {}⟩ : Loader Empty).load redefinedMain).result =
      .ok ⟨"AlwaysSuccess", .alwaysSuccess, []⟩ := by rfl
  have htarget : (⟨.standard, {}⟩ : Loader Empty).outcomeOf redefinedMain laterMain =
      .ok ⟨"ForceFailure", .forceFailure, []⟩ := by rfl
  rw [hload, htarget] at hagree
  simp at hagree

end Loader

end BehaviorTree
