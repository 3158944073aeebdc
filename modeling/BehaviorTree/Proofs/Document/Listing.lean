import BehaviorTree.Proofs.Document.MainTree
import BehaviorTree.Proofs.Text.Trim

/-!
# References to the listed trees

The index lists identifiers as the definitions spell them, with any blanks at their ends. A
reference takes such blanks away before it looks the identifier up. So a reference that spells an
identifier as it is listed goes to the definition listed under it exactly if there are no blanks
at its ends (`listed_reference_iff`).
-/

namespace BehaviorTree

namespace Loader

open TreeIndex

variable {κ : Type} [Application κ]

/-- What a reference resolves to when the tree with its identifier is the given one. -/
def resolution (id : String) (reference tree : Element) : Except LoadError (String × Element) :=
  match tree.children with
  | [] => .error (.emptyTree id)
  | first :: _ => .ok (id, standIn reference first)

/-- A reference that closes no cycle resolves to what its identifier finds. -/
theorem resolve_of_referenceId? {index : TreeIndex} {names : List String} {reference : Element}
    {id : String} (hid : referenceId? reference = some id)
    (hclosed : isOpen names id = false) :
    resolve index names reference =
      match index.get? id with
      | none => .error (.subtreeNotFound id index.ids)
      | some tree => resolution id reference tree := by
  rw [resolve, hid]
  simp only [hclosed, Bool.false_eq_true, if_false]
  rfl

/-- A reference never gives a blank identifier where the attribute is not blank. -/
theorem referenceId?_of_attribute {reference : Element} {id : String}
    (hattribute : reference.attribute? "ID" = some id) (hblank : Text.isBlankText id = false) :
    referenceId? reference = some (Text.trim id) := by
  have hne : Text.trim id ≠ "" := by
    rw [Ne, Text.trim_eq_empty_iff, hblank]
    exact Bool.false_ne_true
  simp [referenceId?, hattribute, Option.filter_some, hne]

/-- The blanks at the ends of an identifier tell it from the trimmed one. -/
theorem sameName_trim_iff {id : String} :
    Text.sameName (Text.trim id) id = true ↔ Text.trim id = id := by
  constructor
  · intro hsame
    have hlength := congrArg List.length (Text.sameName_iff.mp hsame)
    rw [List.length_map, List.length_map] at hlength
    exact Text.trim_eq_self_of_length hlength
  · intro htrim
    rw [htrim, Text.sameName_self]

/-- Trimming leads to the same definition exactly if it takes nothing away. -/
theorem definitionAt?_trim_iff {root : Element} {id : String} {position : Nat}
    (hposition : definitionAt? root id = some position) :
    definitionAt? root (Text.trim id) = some position ↔ Text.trim id = id := by
  constructor
  · intro htrimmed
    exact sameName_trim_iff.mp (sameName_of_definitionAt?_eq htrimmed hposition)
  · intro htrim
    rw [htrim, hposition]

/-- Nothing is found under an identifier exactly if no definition answers to it. -/
theorem get?_ofRoot_eq_none_iff {root : Element} {id : String} :
    (ofRoot root).1.get? id = none ↔ definitionAt? root id = none :=
  get?_ofDefinitions_eq_none_iff

/-- A listed identifier is the one that its definition gives, and it is not blank. -/
theorem exists_listed {root : Element} {id : String} (hlisted : id ∈ (ofRoot root).1.ids) :
    ∃ position tree, (id, tree) ∈ (ofRoot root).1.trees ∧
      definitionAt? root id = some position ∧ (definitions root)[position]? = some tree ∧
      Text.isBlankText id = false := by
  obtain ⟨⟨_, tree⟩, hentry, rfl⟩ := List.mem_map.mp hlisted
  have hproper := isProper_ofRoot root
  obtain ⟨position, hposition, htree⟩ := get?_ofRoot_eq_some_iff.mp (hproper.get?_eq hentry)
  obtain ⟨_, hblank⟩ := Option.filter_eq_some_iff.mp (hproper.named _ hentry)
  exact ⟨position, tree, hentry, hposition, htree, by simpa using hblank⟩

/-- A reference is reported as one without an identifier exactly if it gives none. -/
theorem resolve_eq_missingSubtreeId_iff {index : TreeIndex} {names : List String}
    {reference : Element} :
    resolve index names reference = .error .missingSubtreeId ↔ referenceId? reference = none := by
  simp [resolve_eq_error_iff]

/-- A reference is reported as unknown exactly if its tree is not being built and no definition
answers to the identifier. -/
theorem resolve_eq_subtreeNotFound_iff {root reference : Element} {names available : List String}
    {id missing : String} (hid : referenceId? reference = some id) :
    resolve (ofRoot root).1 names reference = .error (.subtreeNotFound missing available) ↔
      missing = id ∧ available = (ofRoot root).1.ids ∧ isOpen names id = false ∧
        definitionAt? root id = none := by
  simp only [resolve_eq_error_iff, hid, get?_ofRoot_eq_none_iff]
  grind

/-- A reference that spells an identifier as it is listed goes to the definition that is listed
under it exactly if there are no blanks at its ends. It is then replaced by the first child of
this definition. Otherwise it goes to the definition of the trimmed identifier, and it is reported
as unknown exactly if there is none. -/
theorem listed_reference_iff (loader : Loader κ) {root reference : Element} {id : String}
    {names : List String} (hlisted : id ∈ (ofRoot root).1.ids)
    (hreference : isReference reference = true)
    (hattribute : reference.attribute? "ID" = some id) (hclosed : isOpen names id = false) :
    ∃ position tree, (id, tree) ∈ (ofRoot root).1.trees ∧
      definitionAt? root id = some position ∧ (definitions root)[position]? = some tree ∧
      resolve (ofRoot root).1 names reference ≠ .error .missingSubtreeId ∧
      (definitionAt? root (Text.trim id) = some position ↔ Text.trim id = id) ∧
      (Text.trim id = id →
        (loader.loadElement (loader.expandReference (ofRoot root).1 names) reference).result =
          (resolution id reference tree).bind fun found => (loader.loadElement
            (loader.expandReference (ofRoot root).1 (id :: names)) found.2).result) ∧
      (∀ target found, definitionAt? root (Text.trim id) = some target →
        (definitions root)[target]? = some found → isOpen names (Text.trim id) = false →
        resolve (ofRoot root).1 names reference = resolution (Text.trim id) reference found) ∧
      ∀ missing available,
        resolve (ofRoot root).1 names reference = .error (.subtreeNotFound missing available) ↔
          missing = Text.trim id ∧ available = (ofRoot root).1.ids ∧
            isOpen names (Text.trim id) = false ∧ definitionAt? root (Text.trim id) = none := by
  obtain ⟨position, tree, hentry, hposition, htree, hblank⟩ := exists_listed hlisted
  have hid := referenceId?_of_attribute hattribute hblank
  have hgoes (target : Nat) (found : Element)
      (htarget : definitionAt? root (Text.trim id) = some target)
      (hfound : (definitions root)[target]? = some found)
      (hclosed' : isOpen names (Text.trim id) = false) :
      resolve (ofRoot root).1 names reference = resolution (Text.trim id) reference found := by
    rw [resolve_of_referenceId? hid hclosed', get?_ofRoot_eq_some_iff.mpr ⟨target, htarget, hfound⟩]
  refine ⟨position, tree, hentry, hposition, htree, ?_, definitionAt?_trim_iff hposition, ?_, hgoes,
    fun _ _ => resolve_eq_subtreeNotFound_iff hid⟩
  · rw [Ne, resolve_eq_missingSubtreeId_iff, hid]
    nofun
  · intro htrim
    have hresolve := hgoes position tree (by rw [htrim, hposition]) htree (by rw [htrim, hclosed])
    rw [result_loadElement, if_pos hreference, result_expandReference, hresolve, htrim, resolution]
    cases tree.children <;> rfl

/-- A document with a tree that has blanks around its identifier, and a reference that spells the
identifier in the same way. -/
def padded : Element :=
  ⟨"root", [⟨"main_tree_to_execute", "Main"⟩],
    [⟨"BehaviorTree", [⟨"ID", "Main"⟩], [⟨"SubTree", [⟨"ID", " Lib "⟩], []⟩]⟩,
     ⟨"BehaviorTree", [⟨"ID", " Lib "⟩], [⟨"AlwaysSuccess", [], []⟩]⟩]⟩

/-- Identifiers are listed with their blanks. -/
theorem ids_padded : (ofRoot padded).1.ids = ["Main", " Lib "] := by rfl

/-- A reference with the blanks of a listed identifier is not found among those that are listed. -/
theorem listed_reference_iff_padded :
    " Lib " ∈ (ofRoot padded).1.ids ∧ isReference ⟨"SubTree", [⟨"ID", " Lib "⟩], []⟩ = true ∧
      (Element.mk "SubTree" [⟨"ID", " Lib "⟩] []).attribute? "ID" = some " Lib " ∧
      isOpen ["Main"] " Lib " = false ∧
      resolve (ofRoot padded).1 ["Main"] ⟨"SubTree", [⟨"ID", " Lib "⟩], []⟩ =
        .error (.subtreeNotFound "Lib" ["Main", " Lib "]) := by
  have hlisted : " Lib " ∈ (ofRoot padded).1.ids := by simp [ids_padded]
  refine ⟨hlisted, rfl, rfl, by decide, ?_⟩
  obtain ⟨_, _, _, _, _, _, _, _, _, hunknown⟩ :=
    listed_reference_iff (⟨.standard, {}⟩ : Loader Empty) hlisted
      (rfl : isReference ⟨"SubTree", [⟨"ID", " Lib "⟩], []⟩ = true) rfl
      (by decide : isOpen ["Main"] " Lib " = false)
  exact (hunknown _ _).mpr ⟨rfl, ids_padded.symm, by decide, by rfl⟩

/-- A reference that spells an identifier as it is listed may be reported as unknown. -/
theorem not_listed_reference_resolves :
    ¬ ∀ (root reference : Element) (id : String) (names : List String),
      id ∈ (ofRoot root).1.ids → isReference reference = true →
      reference.attribute? "ID" = some id → isOpen names id = false →
      ∀ missing available,
        resolve (ofRoot root).1 names reference ≠ .error (.subtreeNotFound missing available) := by
  intro h
  refine h padded ⟨"SubTree", [⟨"ID", " Lib "⟩], []⟩ " Lib " ["Main"] ?_ rfl rfl (by decide)
    "Lib" ["Main", " Lib "] (by rfl)
  simp [ids_padded]

end Loader

end BehaviorTree
