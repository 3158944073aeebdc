import BehaviorTree.Document.Reference

/-!
# The identifiers that a tree mentions

A tree mentions the identifiers that its references give. Only references outside other
references count, since a reference is replaced with everything that it encloses. The
identifiers that can be reached from a tree are those that it mentions, those that the trees
of these mention, and so on.
-/

namespace BehaviorTree

namespace Loader

mutual

/-- What the references in an element give as identifiers, in document order. A reference that
gives none counts as `none`. -/
def mentions : Element → List (Option String)
  | ⟨tag, attributes, children⟩ =>
    if isReference ⟨tag, attributes, children⟩ then [referenceId? ⟨tag, attributes, children⟩]
    else mentionsAll children

/-- What the references in several elements give as identifiers. -/
def mentionsAll : List Element → List (Option String)
  | [] => []
  | element :: rest => mentions element ++ mentionsAll rest

end

/-- A reference mentions the identifier that it gives, whatever it encloses. -/
theorem mentions_of_reference {element : Element} (hreference : isReference element = true) :
    mentions element = [referenceId? element] := by
  obtain ⟨tag, attributes, children⟩ := element
  rw [mentions, if_pos hreference]

/-- A node mentions what its children do. -/
theorem mentions_of_node {element : Element} (hnode : isReference element = false) :
    mentions element = mentionsAll element.children := by
  obtain ⟨tag, attributes, children⟩ := element
  rw [mentions, if_neg (by simp [hnode])]

/-- Each of several elements mentions no more than all of them. -/
theorem mentions_subset_mentionsAll {element : Element} {elements : List Element}
    (hmem : element ∈ elements) : mentions element ⊆ mentionsAll elements := by
  induction elements with
  | nil => simp at hmem
  | cons first rest ih =>
    rw [mentionsAll]
    rcases List.mem_cons.mp hmem with rfl | hrest
    · exact List.subset_append_left _ _
    · exact fun mention hmention => List.mem_append_right _ (ih hrest hmention)

/-- The element that stands for a reference mentions what the original does. -/
@[simp] theorem mentions_standIn (reference root : Element) :
    mentions (standIn reference root) = mentions root := by
  cases hroot : isReference root with
  | true => simp [mentions_of_reference, hroot]
  | false => simp [mentions_of_node, hroot]

/-- What is mentioned by some trees or by the trees that are reached from these. -/
inductive Reaches (index : TreeIndex) (start : List (Option String)) : Option String → Prop
  | mentioned {mention : Option String} : mention ∈ start → Reaches index start mention
  | through {id : String} {root : Element} {mention : Option String} :
      Reaches index start (some id) → index.Opens id root → mention ∈ mentions root →
      Reaches index start mention

/-- What is reached from some mentions is reached from more of them. -/
theorem Reaches.mono {index : TreeIndex} {start larger : List (Option String)}
    {mention : Option String} (hreach : Reaches index start mention) (hsubset : start ⊆ larger) :
    Reaches index larger mention := by
  induction hreach with
  | mentioned hmem => exact .mentioned (hsubset hmem)
  | through _ hopens hmention ih => exact .through ih hopens hmention

/-- Whatever a mentioned tree reaches is reached. -/
theorem Reaches.trans {index : TreeIndex} {start : List (Option String)} {id : String}
    {root : Element} {mention : Option String} (hid : Reaches index start (some id))
    (hopens : index.Opens id root) (hreach : Reaches index (mentions root) mention) :
    Reaches index start mention := by
  induction hreach with
  | mentioned hmem => exact .through hid hopens hmem
  | through _ hopens' hmention ih => exact .through ih hopens' hmention

/-- What is reached from several identifiers is the first of them, or is reached from the tree of
the first or from the others. -/
theorem Reaches.of_cons {index : TreeIndex} {rest : List (Option String)} {id : String}
    {root : Element} {mention : Option String} (hopens : index.Opens id root)
    (hreach : Reaches index (some id :: rest) mention) :
    mention = some id ∨ Reaches index (mentions root) mention ∨ Reaches index rest mention := by
  induction hreach with
  | mentioned hmem =>
    rcases List.mem_cons.mp hmem with hid | hrest
    · exact Or.inl hid
    · exact Or.inr (Or.inr (.mentioned hrest))
  | through _ hopens' hmention ih =>
    rcases ih with hid | hroot | hrest
    · cases hid
      cases hopens.unique hopens'
      exact Or.inr (Or.inl (.mentioned hmention))
    · exact Or.inr (Or.inl (.through hroot hopens' hmention))
    · exact Or.inr (Or.inr (.through hrest hopens' hmention))

/-- Nothing is reached where nothing is mentioned. -/
theorem not_reaches_nil {index : TreeIndex} {mention : Option String} :
    ¬ Reaches index [] mention := by
  intro hreach
  induction hreach with
  | mentioned hmem => cases hmem
  | through _ _ _ ih => exact ih

end Loader

end BehaviorTree
