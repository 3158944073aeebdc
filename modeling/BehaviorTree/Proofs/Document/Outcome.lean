import BehaviorTree.Document.Load

/-!
# What loading gives

Loading keeps a journal, but whether it fails and which tree it gives can be told without it.
This file says so for every part of the loader, as equations between results.
-/

namespace BehaviorTree

namespace Load

variable {α β : Type}

/-- A value that needs no loading is the result. -/
@[simp] theorem result_pure (value : α) : (Pure.pure value : Load α).result = .ok value := rfl

/-- Loading in two steps gives what the second gives for the value of the first, or the first
failure. -/
@[simp] theorem result_bind (load : Load α) (next : α → Load β) :
    (load >>= next).result = load.result.bind fun value => (next value).result := by
  obtain ⟨journal, result⟩ := load
  cases result <;> rfl

/-- Loading that is given up results in its error. -/
@[simp] theorem result_fail (error : LoadError) : (fail error : Load α).result = .error error := rfl

/-- The outcome of a step that only computes is what it computes. -/
@[simp] theorem result_ofExcept (result : Except LoadError α) : (ofExcept result).result = result :=
  rfl

/-- Keeping a journal gives no value and cannot fail. -/
@[simp] theorem result_note (happenings : List Happening) : (note happenings).result = .ok () := rfl

/-- The position that entries are moved to has no bearing on the result. -/
@[simp] theorem result_under (index : Nat) (load : Load α) :
    (load.under index).result = load.result := rfl

/-- Reporting something first does not change what a load gives. -/
@[simp] theorem result_ite_note_bind (condition : Prop) [Decidable condition]
    (happenings : List Happening) (load : Load α) :
    (do if condition then note happenings
        load).result = load.result := by
  split <;> rfl

end Load

/-- A sequence of two computations fails if the first does or the second does. -/
theorem Except.bind_eq_error_iff {ε α β : Type} {first : Except ε α} {next : α → Except ε β}
    {error : ε} :
    first.bind next = .error error ↔
      first = .error error ∨ ∃ value, first = .ok value ∧ next value = .error error := by
  cases first <;> simp [Except.bind]

/-- Two steps succeed exactly if both do, the second one with the value of the first. -/
theorem Except.bind_eq_ok_iff {ε α β : Type} {first : Except ε α} {next : α → Except ε β}
    {result : β} :
    first.bind next = .ok result ↔ ∃ value, first = .ok value ∧ next value = .ok result := by
  cases first <;> simp [Except.bind]

namespace Loader

variable {κ : Type} [Application κ]

/-- The kind of an element is the registered one with the settings of its attributes. -/
theorem result_loadKind (loader : Loader κ) (element : Element) (name : String) :
    (loader.loadKind element name).result = (loader.registry.create element.name).map fun kind =>
      (configureAll loader.context name kind.properties kind element.attributes).1 := by
  unfold loadKind
  cases hkind : loader.registry.create element.name with
  | error error => simp [Except.bind, Except.map]
  | ok kind => simp [Except.bind, Except.map]

/-- The only thing that can be wrong with the name of a type is that it is not registered. -/
theorem eq_unknownNode_of_loadKind {loader : Loader κ} {element : Element} {name : String}
    {error : LoadError} (herror : (loader.loadKind element name).result = .error error) :
    error = .unknownNode element.name loader.registry.names := by
  rw [result_loadKind, Registry.create] at herror
  split at herror <;> cases herror
  rfl

/-- The number of children is right exactly if it is the one that a kind asks for, where it asks for
one that is not zero. -/
theorem arityError?_eq_none_iff {kind : Kind κ} {element : Element} {name : String} :
    arityError? kind element name = none ↔
      ∀ limit, kind.arity = .exactly limit → limit ≠ 0 → element.children.length = limit := by
  unfold arityError?
  cases kind.arity with
  | any => simp
  | exactly expected =>
    simp only [ite_eq_left_iff, reduceCtorEq, imp_false, Decidable.not_not, Arity.exactly.injEq,
      forall_eq']
    exact Decidable.or_iff_not_imp_left

/-- An error in the number of children tells the number that is there. -/
theorem exists_of_arityError?_eq_some {kind : Kind κ} {element : Element} {name : String}
    {error : LoadError} (herror : arityError? kind element name = some error) :
    ∃ expected, error = .childCount name element.name expected element.children.length := by
  unfold arityError? at herror
  split at herror
  · cases herror
  · next expected _ =>
    split at herror <;> cases herror
    exact ⟨expected, rfl⟩

/-- What can be wrong with a reference: it gives no identifier, or the tree of its identifier is
being built, or is not known, or has no root element. -/
theorem resolve_eq_error_iff {index : TreeIndex} {names : List String} {element : Element}
    {error : LoadError} :
    resolve index names element = .error error ↔
      (referenceId? element = none ∧ LoadError.missingSubtreeId = error) ∨
      ∃ id, referenceId? element = some id ∧
        ((TreeIndex.isOpen names id = true ∧ .subtreeCycle (id :: names).reverse = error) ∨
          TreeIndex.isOpen names id = false ∧
            ((index.get? id = none ∧ .subtreeNotFound id index.ids = error) ∨
              ∃ tree, index.get? id = some tree ∧ tree.children = [] ∧ .emptyTree id = error)) := by
  unfold resolve
  cases referenceId? element with
  | none => simp
  | some id =>
    cases hused : TreeIndex.isOpen names id with
    | true => simp [hused]
    | false =>
      cases hget : index.get? id with
      | none => simp [hused, hget]
      | some tree => cases hchildren : tree.children <;> simp [hused, hget, hchildren]

/-- A child is adopted exactly if the node takes one more. -/
theorem result_adopt (kind : Kind κ) (element name : String) (count : Nat) (child : Tree κ) :
    (adopt kind element name count child).result =
      if kind.admits count then .ok () else .error (.childRefused element) := by
  unfold adopt
  split <;> simp [Except.bind]

/-- A reference gives what its expansion gives, and any other element a node. -/
theorem result_loadElement (loader : Loader κ) (expand : Element → Load (Tree κ))
    (element : Element) :
    (loader.loadElement expand element).result =
      if isReference element then (expand element).result
      else (loader.loadKind element (nodeName element)).result.bind fun kind =>
        if kind.arity = .exactly 0 then .ok ⟨nodeName element, kind, []⟩
        else
          match arityError? kind element (nodeName element) with
          | some error => .error error
          | none =>
            (loader.loadChildren expand kind element.name (nodeName element) 0
              element.children).result.bind fun trees => .ok ⟨nodeName element, kind, trees⟩ := by
  obtain ⟨tag, attributes, children⟩ := element
  rw [loadElement]
  dsimp only
  split
  · rfl
  · rw [Load.result_bind]
    congr 1
    funext kind
    split
    · rw [Load.result_ite_note_bind]; rfl
    · split <;> simp [*]

/-- Children are loaded one by one. Each is adopted before the next one is loaded. -/
theorem result_loadChildren_cons (loader : Loader κ) (expand : Element → Load (Tree κ))
    (kind : Kind κ) (tag name : String) (index : Nat) (child : Element) (rest : List Element) :
    (loader.loadChildren expand kind tag name index (child :: rest)).result =
      (loader.loadElement expand child).result.bind fun tree =>
        if kind.admits index then
          (loader.loadChildren expand kind tag name (index + 1) rest).result.bind
            fun trees => .ok (tree :: trees)
        else .error (.childRefused tag) := by
  rw [loadChildren]
  simp only [Load.result_bind, Load.result_under, result_adopt]
  congr 1
  funext tree
  split <;> rfl

/-- A reference gives what the element that stands for it gives. -/
theorem result_expandReference (loader : Loader κ) (index : TreeIndex) (names : List String)
    (element : Element) :
    (loader.expandReference index names element).result =
      (resolve index names element).bind fun found =>
        (loader.loadElement (loader.expandReference index (found.1 :: names)) found.2).result := by
  rw [expandReference_eq]
  cases resolve index names element with
  | error error => rfl
  | ok found => exact Load.result_ite_note_bind _ _ _

/-- The outcome of loading a document whose main tree is the given definition. -/
def outcomeOf (loader : Loader κ) (root main : Element) : Except LoadError (Tree κ) :=
  match main.children with
  | [] => .error (.emptyTree (mainId main))
  | element :: _ =>
    let index := (TreeIndex.ofRoot root).1
    (loader.loadElement (loader.expandReference index [mainId main]) element).result

/-- An unexpected format is reported and does no harm. -/
theorem result_checkFormat (root : Element) : (checkFormat root).result = .ok () := by
  unfold checkFormat
  split
  · split <;> rfl
  · rfl

/-- A document loads to the outcome of its main tree, provided that its root element has the right
name. -/
theorem result_load (loader : Loader κ) (root : Element) :
    (loader.load root).result =
      if Text.sameName root.name "root" then (mainTree root).result.bind (loader.outcomeOf root)
      else .error (.invalidRoot root.name) := by
  unfold load
  cases hroot : Text.sameName root.name "root" with
  | false => rfl
  | true =>
    simp only [Bool.not_true, Bool.false_eq_true, if_false, if_true, Load.result_bind,
      result_checkFormat, Load.result_note, Except.bind]
    congr 1
    funext main
    unfold outcomeOf
    cases main.children with
    | nil => rfl
    | cons element rest =>
      simp only [Load.result_bind, Load.result_note, Load.result_pure, Except.bind]
      split <;> simp [*]

end Loader

end BehaviorTree
