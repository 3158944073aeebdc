import BehaviorTree.Document.Load

/-!
# Definitions and their positions

A document may define trees under equal identifiers, and even equal trees, so a definition is
told from the others by its position among the `BehaviorTree` elements. An identifier refers
to the last definition that answers to it. The main tree is the first one with exactly the
requested identifier, or else the first of all.
-/

namespace BehaviorTree

namespace TreeIndex

/-- The definitions of a document in order. -/
def definitions (root : Element) : List Element := root.elements "BehaviorTree"

/-- Whether a definition can be referred to by an identifier. -/
def answersTo (id : String) (tree : Element) : Bool :=
  (idOf? tree).any fun own => Text.sameName own id

/-- The position of the last of several definitions that answers to an identifier. -/
def lastAnswering? (id : String) : List Element → Option Nat
  | [] => none
  | tree :: rest =>
    match lastAnswering? id rest with
    | some position => some (position + 1)
    | none => if answersTo id tree then some 0 else none

/-- The position of the definition that an identifier refers to. -/
def definitionAt? (root : Element) (id : String) : Option Nat :=
  lastAnswering? id (definitions root)

/-- A definition answers to an identifier exactly if its own is the same but for the case of
letters. -/
theorem answersTo_iff {id : String} {tree : Element} :
    answersTo id tree = true ↔ ∃ own, idOf? tree = some own ∧ Text.sameName own id = true := by
  unfold answersTo
  cases idOf? tree <;> simp

/-- Whether a definition answers does not depend on the case of letters. -/
theorem answersTo_congr {id other : String} (hsame : Text.sameName id other = true)
    (tree : Element) : answersTo id tree = answersTo other tree := by
  unfold answersTo
  cases idOf? tree with
  | none => rfl
  | some own =>
    rw [Option.any_some, Option.any_some, Text.sameName_comm own id, Text.sameName_comm own other,
      Text.sameName_congr hsame]

/-- Only the class of an identifier up to the case of letters matters for what it refers to. -/
theorem definitionAt?_congr {id other : String} (hsame : Text.sameName id other = true)
    (root : Element) : definitionAt? root id = definitionAt? root other := by
  unfold definitionAt?
  induction definitions root with
  | nil => rfl
  | cons tree rest ih => rw [lastAnswering?, lastAnswering?, ih, answersTo_congr hsame]

/-- None of several definitions is found exactly if none answers. -/
theorem lastAnswering?_eq_none_iff {id : String} {trees : List Element} :
    lastAnswering? id trees = none ↔ ∀ tree ∈ trees, answersTo id tree = false := by
  induction trees with
  | nil => simp [lastAnswering?]
  | cons tree rest ih =>
    cases hrest : lastAnswering? id rest with
    | none =>
      simp only [lastAnswering?, hrest, List.forall_mem_cons, and_iff_left (ih.mp hrest)]
      cases answersTo id tree <;> simp
    | some position =>
      have hsome : ¬ ∀ tree ∈ rest, answersTo id tree = false := by
        intro hnone
        simp [ih.mpr hnone] at hrest
      simp [lastAnswering?, hrest, hsome]

/-- The position found answers to the identifier, and no later one does. -/
theorem lastAnswering?_eq_some_iff {id : String} {trees : List Element} {position : Nat} :
    lastAnswering? id trees = some position ↔
      ∃ tree, trees[position]? = some tree ∧ answersTo id tree = true ∧
        ∀ other ∈ trees.drop (position + 1), answersTo id other = false := by
  induction trees generalizing position with
  | nil => simp [lastAnswering?]
  | cons first rest ih =>
    cases position with
    | zero =>
      simp only [lastAnswering?, List.getElem?_cons_zero, Option.some.injEq, exists_eq_left',
        Nat.zero_add, List.drop_succ_cons, List.drop_zero, ← lastAnswering?_eq_none_iff]
      cases lastAnswering? id rest with
      | none => simp
      | some later => simp
    | succ position =>
      simp only [lastAnswering?, List.getElem?_cons_succ, List.drop_succ_cons, ← ih]
      cases lastAnswering? id rest with
      | none => simp
      | some later => simp

/-- The position of a definition is one among the definitions. -/
theorem definitionAt?_lt {root : Element} {id : String} {position : Nat}
    (hdefinition : definitionAt? root id = some position) :
    position < (definitions root).length := by
  obtain ⟨tree, htree, _⟩ := lastAnswering?_eq_some_iff.mp hdefinition
  exact (List.getElem?_eq_some_iff.mp htree).1

/-- Identifiers that refer to one definition differ by no more than the case of letters. -/
theorem sameName_of_definitionAt?_eq {root : Element} {id other : String} {position : Nat}
    (hid : definitionAt? root id = some position)
    (hother : definitionAt? root other = some position) : Text.sameName id other = true := by
  obtain ⟨tree, htree, hanswers, _⟩ := lastAnswering?_eq_some_iff.mp hid
  obtain ⟨tree', htree', hanswers', _⟩ := lastAnswering?_eq_some_iff.mp hother
  cases htree.symm.trans htree'
  obtain ⟨own, hown, hsame⟩ := answersTo_iff.mp hanswers
  obtain ⟨own', hown', hsame'⟩ := answersTo_iff.mp hanswers'
  cases hown.symm.trans hown'
  rw [← Text.sameName_congr hsame, hsame']

/-! ## What the index holds -/

/-- Placing a definition changes what its own identifier refers to and nothing else. -/
theorem get?_place (id other : String) (tree : Element) (trees : List (String × Element)) :
    (TreeIndex.mk (place id tree trees)).get? other =
      if Text.sameName id other then some tree else (TreeIndex.mk trees).get? other := by
  induction trees with
  | nil =>
    cases hsame : Text.sameName id other <;> simp [place, get?, hsame]
  | cons entry rest ih =>
    unfold get? at ih ⊢
    cases hentry : Text.sameName entry.1 id with
    | true =>
      have hcongr := Text.sameName_congr hentry other
      cases hsame : Text.sameName id other <;> simp [place, hentry, hcongr, hsame]
    | false =>
      cases hfirst : Text.sameName entry.1 other with
      | true =>
        have hsame : Text.sameName id other = false := by
          rw [Text.sameName_comm, ← Text.sameName_congr hfirst, hentry]
        simp [place, hentry, hfirst, hsame]
      | false => simpa [place, hentry, hfirst] using ih

/-- A definition that is added is found under the identifiers that it answers to, and hides nothing
else. -/
theorem get?_add (index : TreeIndex) (tree : Element) (id : String) :
    (index.add tree).1.get? id = if answersTo id tree then some tree else index.get? id := by
  unfold add answersTo
  cases idOf? tree with
  | none => rfl
  | some own => exact get?_place own id tree index.trees

/-- After several definitions the last one that answers to an identifier is what it refers to,
and an identifier that none answers to refers to what it did before. -/
theorem get?_addAll (index : TreeIndex) (trees : List Element) (id : String) :
    (index.addAll trees).1.get? id =
      match lastAnswering? id trees with
      | some position => trees[position]?
      | none => index.get? id := by
  induction trees generalizing index with
  | nil => rfl
  | cons tree rest ih =>
    change ((index.add tree).1.addAll rest).1.get? id = _
    rw [ih, lastAnswering?]
    cases hrest : lastAnswering? id rest with
    | some position => simp
    | none =>
      simp only [get?_add]
      cases answersTo id tree <;> simp

/-- The index of several definitions. -/
def ofDefinitions (trees : List Element) : TreeIndex := (TreeIndex.addAll ⟨[]⟩ trees).1

/-- The index finds the last definition that answers. -/
theorem get?_ofDefinitions (trees : List Element) (id : String) :
    (ofDefinitions trees).get? id =
      (lastAnswering? id trees).bind fun position => trees[position]? := by
  rw [ofDefinitions, get?_addAll]
  cases lastAnswering? id trees <;> rfl

/-- Nothing is found under an identifier exactly if no definition answers to it. -/
theorem get?_ofDefinitions_eq_none_iff {trees : List Element} {id : String} :
    (ofDefinitions trees).get? id = none ↔ lastAnswering? id trees = none := by
  rw [get?_ofDefinitions]
  cases hlast : lastAnswering? id trees with
  | none => simp
  | some position =>
    obtain ⟨tree, htree, _⟩ := lastAnswering?_eq_some_iff.mp hlast
    simp [htree]

/-- The index of a document holds for each identifier the last definition that answers
to it. -/
theorem get?_ofRoot (root : Element) (id : String) :
    (ofRoot root).1.get? id =
      (definitionAt? root id).bind fun position => (definitions root)[position]? :=
  get?_ofDefinitions (definitions root) id

/-- The index of a document finds exactly the definitions that identifiers refer to. -/
theorem get?_ofRoot_eq_some_iff {root tree : Element} {id : String} :
    (ofRoot root).1.get? id = some tree ↔
      ∃ position, definitionAt? root id = some position ∧
        (definitions root)[position]? = some tree := by
  rw [get?_ofRoot, Option.bind_eq_some_iff]

/-! ## What the index lists -/

/-- An entry after a placing is the new one or was there before. -/
theorem mem_place {id : String} {tree : Element} {trees : List (String × Element)}
    {entry : String × Element} (hmem : entry ∈ place id tree trees) :
    entry = (id, tree) ∨ entry ∈ trees := by
  induction trees with
  | nil => exact .inl (List.mem_singleton.mp hmem)
  | cons first rest ih =>
    rw [place] at hmem
    split at hmem
    · exact (List.mem_cons.mp hmem).imp_right (List.mem_cons_of_mem _)
    · obtain rfl | hmem := List.mem_cons.mp hmem
      · exact .inr List.mem_cons_self
      · exact (ih hmem).imp_right (List.mem_cons_of_mem _)

/-- The entries of an index are definitions under the identifiers that they give, and these differ
by more than the case of letters. -/
structure IsProper (index : TreeIndex) : Prop where
  /-- An entry stands under the identifier that its element gives. -/
  named : ∀ entry ∈ index.trees, idOf? entry.2 = some entry.1
  /-- No two entries have the same identifier up to the case of letters. -/
  differ : index.trees.Pairwise fun entry other => Text.sameName entry.1 other.1 = false

/-- A definition takes the place of the one with the same identifier, or comes last if there is
none. -/
theorem ids_place_cases (id : String) (tree : Element) (trees : List (String × Element)) :
    (∃ before existing after, (TreeIndex.mk trees).ids = before ++ existing :: after ∧
      Text.sameName existing id = true ∧
      (TreeIndex.mk (place id tree trees)).ids = before ++ id :: after) ∨
    (∀ existing ∈ (TreeIndex.mk trees).ids, Text.sameName existing id = false) ∧
      (TreeIndex.mk (place id tree trees)).ids = (TreeIndex.mk trees).ids ++ [id] := by
  unfold ids
  induction trees with
  | nil => exact .inr ⟨List.forall_mem_nil _, rfl⟩
  | cons first rest ih =>
    cases hsame : Text.sameName first.1 id with
    | true => exact .inl ⟨[], first.1, rest.map (·.1), rfl, hsame, by simp [place, hsame]⟩
    | false =>
      have hplace : place id tree (first :: rest) = first :: place id tree rest := by
        simp [place, hsame]
      rw [hplace]
      obtain ⟨before, existing, after, hrest, hexisting, hids⟩ | ⟨hdiffer, hids⟩ := ih
      · exact .inl ⟨first.1 :: before, existing, after, congrArg (first.1 :: ·) hrest, hexisting,
          congrArg (first.1 :: ·) hids⟩
      · exact .inr ⟨List.forall_mem_cons.mpr ⟨hsame, hdiffer⟩, congrArg (first.1 :: ·) hids⟩

/-- What holds between the identifiers of an index, however they are spelled, still holds with one
more definition, if it holds between each of them and one that is new. -/
theorem pairwise_place {R : String → String → Prop} {id : String} {tree : Element}
    {trees : List (String × Element)}
    (hleft : ∀ {a b c : String}, Text.sameName a b = true → (R a c ↔ R b c))
    (hright : ∀ {a b c : String}, Text.sameName b c = true → (R a b ↔ R a c))
    (htrees : (TreeIndex.mk trees).ids.Pairwise R)
    (hnew : (∀ existing ∈ (TreeIndex.mk trees).ids, Text.sameName existing id = false) →
      ∀ existing ∈ (TreeIndex.mk trees).ids, R existing id) :
    (TreeIndex.mk (place id tree trees)).ids.Pairwise R := by
  obtain ⟨before, existing, after, hids, hsame, hplace⟩ | ⟨hdiffer, hplace⟩ :=
    ids_place_cases id tree trees
  · rw [hids] at htrees
    rw [hplace]
    simpa only [List.pairwise_append, List.pairwise_cons, List.forall_mem_cons, hleft hsame,
      hright hsame] using htrees
  · rw [hplace]
    refine List.pairwise_append.mpr ⟨htrees, List.pairwise_singleton _ _, ?_⟩
    intro listed hlisted other hother
    cases List.mem_singleton.mp hother
    exact hnew hdiffer listed hlisted

/-- Adding a definition leaves the entries proper. -/
theorem IsProper.add {index : TreeIndex} (hproper : index.IsProper) (tree : Element) :
    (index.add tree).1.IsProper := by
  unfold TreeIndex.add
  cases hid : idOf? tree with
  | none => exact hproper
  | some id =>
    have hids : index.ids.Pairwise fun own other => Text.sameName own other = false :=
      List.pairwise_map.mpr hproper.differ
    refine ⟨fun entry hmem => ?_, List.pairwise_map.mp (pairwise_place ?_ ?_ hids fun hnew => hnew)⟩
    · obtain rfl | hmem := mem_place hmem
      · exact hid
      · exact hproper.named entry hmem
    · intro a b c hsame
      rw [Text.sameName_congr hsame]
    · intro a b c hsame
      rw [Text.sameName_comm a, Text.sameName_comm a, Text.sameName_congr hsame]

/-- Adding several definitions leaves the entries proper. -/
theorem IsProper.addAll {index : TreeIndex} (hproper : index.IsProper) (trees : List Element) :
    (index.addAll trees).1.IsProper := by
  induction trees generalizing index with
  | nil => exact hproper
  | cons tree rest ih => exact ih (hproper.add tree)

/-- The entries of an index of definitions are proper. -/
theorem isProper_ofDefinitions (trees : List Element) : (ofDefinitions trees).IsProper :=
  IsProper.addAll ⟨List.forall_mem_nil _, List.Pairwise.nil⟩ trees

/-- The entries of the index of a document are proper. -/
theorem isProper_ofRoot (root : Element) : (ofRoot root).1.IsProper :=
  isProper_ofDefinitions (definitions root)

/-- What an index lists under an identifier is what the identifier refers to. -/
theorem IsProper.get?_eq {index : TreeIndex} (hproper : index.IsProper) {id : String}
    {tree : Element} (hmem : (id, tree) ∈ index.trees) : index.get? id = some tree := by
  obtain ⟨trees⟩ := index
  have hdiffer := hproper.differ
  rw [get?]
  induction trees with
  | nil => cases hmem
  | cons first rest ih =>
    obtain ⟨hfirst, hrest⟩ := List.pairwise_cons.mp hdiffer
    obtain rfl | hmem := List.mem_cons.mp hmem
    · simp
    · have hnamed : ∀ entry ∈ rest, idOf? entry.2 = some entry.1 := fun entry hentry =>
        hproper.named entry (List.mem_cons_of_mem _ hentry)
      rw [List.find?_cons_of_neg (by simp [hfirst _ hmem])]
      exact ih ⟨hnamed, hrest⟩ hmem hrest

end TreeIndex

end BehaviorTree
