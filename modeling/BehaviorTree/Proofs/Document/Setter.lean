import BehaviorTree.Proofs.Context.Placeholder
import BehaviorTree.Proofs.Document.Outcome
import BehaviorTree.Proofs.Tree.Writing

/-!
# The text of a setter

The text that a document gives to a setter is substituted when the document is loaded, with the
values on the blackboard, and once more when the setter is executed. So the values that the first
substitution puts in are scanned for placeholders themselves. Where they close their braces, the
setter stores its text with each of these values substituted once more
(`Loader.loaded_setter_stores`).
-/

namespace BehaviorTree

/-! ## Executing a setter -/

namespace SetValue

/-- A setter of texts with a key succeeds. -/
theorem execute_text {settings : SetValueSettings} (hkey : settings.key ≠ "")
    (htype : typeNamed? settings.valueType = some .text) (moment : Moment) :
    execute settings moment = ⟨(), .finish .success, [],
      [(settings.key, .text (moment.context.resolvePlaceholders settings.value))]⟩ := by
  unfold execute
  simp only [if_neg hkey, htype, convert?]

end SetValue

variable {κ : Type} [Application κ]

/-- To begin an execution of a tree on a shared context with the given blackboard is to put a value
under a key, and to succeed. -/
def Tree.Puts (tree : Tree κ) (blackboard : Blackboard) (key : String) (value : Value) : Prop :=
  ∀ (memory : Memory tree) (id : Nat) (world : World) (context : Context),
    memory.binding = .shared id → world.contexts[id]? = some context →
    context.blackboard = blackboard →
    (advance tree none memory world).result = .answered .success ∧
      (advance tree none memory world).world.contexts[id]? = some (context.set key value)

/-- There is only one value that a tree can put under a key in this way. -/
theorem Tree.Puts.unique {tree : Tree κ} {blackboard : Blackboard} {key : String}
    {value other : Value} (hputs : tree.Puts blackboard key value)
    (hother : tree.Puts blackboard key other) : value = other := by
  have hbound : (Memory.fresh (.shared 0) tree).binding = .shared 0 :=
    (isBoundTo_fresh 0 tree).binding_eq
  let world : World := { contexts := [{ blackboard }] }
  obtain ⟨-, hset⟩ := hputs _ 0 world { blackboard } hbound rfl rfl
  obtain ⟨-, hset'⟩ := hother _ 0 world { blackboard } hbound rfl rfl
  have hsame := congrArg (fun context => Context.get? context key)
    (Option.some.inj (hset.symm.trans hset'))
  simpa [Context.get?_set] using hsame

/-- To execute a setter of texts is to put its text under its key, with the placeholders
resolved. -/
theorem Tree.puts_setter (name : String) {settings : SetValueSettings} (hkey : settings.key ≠ "")
    (htype : SetValue.typeNamed? settings.valueType = some .text) (context : Context) :
    Tree.Puts (⟨name, .setValue settings, []⟩ : Tree κ) context.blackboard settings.key
      (.text (context.resolvePlaceholders settings.value)) := by
  intro memory id world now hbinding hcontext hblackboard
  obtain ⟨⟨state, binding⟩, below⟩ := memory
  have hshared : binding = .shared id := hbinding
  subst hshared
  have hnow : world.context (.shared id) = now := by rw [World.context, hcontext]; rfl
  have hrespond : (Kind.setValue settings : Kind κ).respond ⟨name, 0, world.now, now⟩ state
      .started = ⟨(), .finish .success, [],
        [(settings.key, .text (context.resolvePlaceholders settings.value))]⟩ := by
    rw [← Context.resolvePlaceholders_congr hblackboard]
    exact SetValue.execute_text hkey htype ⟨name, 0, world.now, now⟩
  have hturn := (crewOf ([] : List (Tree κ))).drive_signal name (.setValue settings) 0 3 .started
    ⟨state, .shared id⟩ below world
  dsimp only at hturn
  rw [hnow, hrespond] at hturn
  dsimp only [Crew.serve] at hturn
  rw [Crew.drive_stop] at hturn
  have hdriven : turnOf name (.setValue settings) [] none ⟨state, .shared id⟩ below world = _ :=
    hturn
  rw [advance_eq, hdriven]
  refine ⟨rfl, ?_⟩
  simp [World.write, World.modifyContext, hcontext, Context.setAll, Progress.after]

namespace Loader

/-- A setter of texts in a document. -/
def setterElement (key text : String) : Element :=
  ⟨"SetBlackboardValue", [⟨"key", key⟩, ⟨"value", text⟩], []⟩

/-- The text has the values on the blackboard filled in when it is set. -/
theorem configureAll_setterElement (context : Context) (name : String) {key : String}
    (hopen : '\x7b' ∉ key.toList) (text : String) :
    (configureAll context name (Kind.setValue {} : Kind κ).properties (.setValue {} : Kind κ)
        (setterElement key text).attributes).1 =
      .setValue ⟨key, context.insertValues text, "string"⟩ := by
  have hkey : propertyFor? (Kind.setValue {} : Kind κ).properties ⟨"key", key⟩ =
      some ⟨"Key", .string⟩ := by
    have hcase : Property.pascalCase "key" = "Key" := by decide
    simp [propertyFor?, Kind.properties, hcase]
  have htext : propertyFor? (Kind.setValue {} : Kind κ).properties ⟨"value", text⟩ =
      some ⟨"Value", .string⟩ := by
    have hcase : Property.pascalCase "value" = "Value" := by decide
    simp [propertyFor?, Kind.properties, hcase]
  have hinsert : context.insertValues key = key := Placeholder.substitute_of_unopened _ hopen
  simp only [setterElement, configureAll, configureOne, hkey, htext, Property.parse,
    PropertyType.read?, hinsert, Kind.configure]

/-- A setter element loads to a setter whose text has the values of the blackboard inserted. -/
theorem result_setterElement (loader : Loader κ)
    (hregistered : loader.registry.kind? "SetBlackboardValue" = some (.setValue {})) {key : String}
    (hopen : '\x7b' ∉ key.toList) (expand : Element → Load (Tree κ)) (text : String) :
    (loader.loadElement expand (setterElement key text)).result =
      .ok ⟨"SetBlackboardValue",
        .setValue ⟨key, loader.context.insertValues text, "string"⟩, []⟩ := by
  have hname : Text.sameName "SetBlackboardValue" "SubTree" = false := by decide
  have hnode : isReference (setterElement key text) = false := hname
  have hcreate : loader.registry.create (setterElement key text).name = .ok (.setValue {}) := by
    rw [setterElement, Registry.create, hregistered]
  rw [result_loadElement, hnode, result_loadKind, hcreate, Except.map,
    configureAll_setterElement _ _ hopen]
  rfl

/-- A setter element loads to a tree that puts its text under the key, substituted twice. -/
theorem exists_puts_setterElement (loader : Loader κ)
    (hregistered : loader.registry.kind? "SetBlackboardValue" = some (.setValue {})) {key : String}
    (hkey : key ≠ "") (hopen : '\x7b' ∉ key.toList) (expand : Element → Load (Tree κ))
    (text : String) :
    ∃ tree, (loader.loadElement expand (setterElement key text)).result = .ok tree ∧
      tree.Puts loader.context.blackboard key
        (.text (loader.context.insertThenResolve text)) := by
  have htype : SetValue.typeNamed? "string" = some .text := by decide
  exact ⟨_, loader.result_setterElement hregistered hopen expand text,
    Tree.puts_setter "SetBlackboardValue"
      (hkey : (SetValueSettings.mk key (loader.context.insertValues text) "string").key ≠ "") htype
      loader.context⟩

/-- Whatever text a document gives to a setter of the key, the setter stores what a single
substitution makes of it. -/
def SubstitutesOnce (loader : Loader κ) (key : String) : Prop :=
  ∀ (expand : Element → Load (Tree κ)) (text : String) (tree : Tree κ),
    (loader.loadElement expand (setterElement key text)).result = .ok tree →
      tree.Puts loader.context.blackboard key (.text (loader.context.resolvePlaceholders text))

/-- A setter substitutes once exactly if the second substitution never changes what the first one
gives. -/
theorem substitutesOnce_iff (loader : Loader κ)
    (hregistered : loader.registry.kind? "SetBlackboardValue" = some (.setValue {})) {key : String}
    (hkey : key ≠ "") (hopen : '\x7b' ∉ key.toList) :
    loader.SubstitutesOnce key ↔ ∀ text,
      loader.context.insertThenResolve text = loader.context.resolvePlaceholders text := by
  have hputs := loader.exists_puts_setterElement hregistered hkey hopen
  constructor
  · intro honce text
    obtain ⟨tree, htree, hstores⟩ := hputs (fun _ => .fail .missingSubtreeId) text
    simpa using hstores.unique (honce _ text tree htree)
  · intro hsame expand text tree htree
    obtain ⟨_, htree', hstores⟩ := hputs expand text
    cases htree.symm.trans htree'
    rwa [← hsame text]

/-- A setter of texts in a document loads, and it stores what substituting twice makes of its text:
first the values on the blackboard are filled in, and then the result is substituted once more. If
the values that come in close their braces, this fills in each of them with its own placeholders
replaced. So a single substitution gives the same for every text only if no value on the blackboard
holds a placeholder that is replaced by something else, and this is enough where all values close
their braces. -/
theorem loaded_setter_stores (loader : Loader κ)
    (hregistered : loader.registry.kind? "SetBlackboardValue" = some (.setValue {})) {key : String}
    (hkey : key ≠ "") (hopen : '\x7b' ∉ key.toList) :
    (∀ (expand : Element → Load (Tree κ)) (text : String),
      ∃ (tree : Tree κ) (cut : Placeholder.Cut),
        (loader.loadElement expand (setterElement key text)).result = .ok tree ∧
        tree.Puts loader.context.blackboard key
          (.text (loader.context.insertThenResolve text)) ∧
        cut.text = text.toList ∧
        loader.context.resolvePlaceholders text =
          String.ofList (cut.fill loader.context.lookupToken?) ∧
        ((∀ part ∈ cut.parts, ∀ value,
          loader.context.getString? (String.ofList part.token) = some value →
            Placeholder.IsClosed value.toList) →
          loader.context.insertThenResolve text = String.ofList (cut.fill
            (Placeholder.both loader.context.getString? loader.context.lookupToken?)))) ∧
      (loader.SubstitutesOnce key → loader.context.IsStable) ∧
      (loader.context.ClosesBraces → loader.context.IsStable → loader.SubstitutesOnce key) := by
  have honce := loader.substitutesOnce_iff hregistered hkey hopen
  refine ⟨fun expand text => ?_, fun h => Context.isStable_of_eq (honce.mp h),
    fun hclosed hstable => honce.mpr (hstable.insertThenResolve_eq hclosed)⟩
  obtain ⟨tree, htree, hputs⟩ :=
    loader.exists_puts_setterElement hregistered hkey hopen expand text
  obtain ⟨cut, hcut⟩ := Placeholder.exists_cut text.toList
  exact ⟨tree, cut, htree, hputs, hcut, Placeholder.substitute_eq _ hcut,
    Placeholder.substitute_substitute hcut⟩

/-- A blackboard with a value that holds a placeholder for another value. -/
def layered : Context := (({} : Context).set "A" (.text "\x7bB\x7d")).set "B" (.text "deep")

/-- With a layered blackboard the setter stores what the inner placeholder stands for. -/
theorem loaded_setter_stores_layered :
    (⟨.standard, layered⟩ : Loader Empty).registry.kind? "SetBlackboardValue" =
        some (.setValue {}) ∧
      "K" ≠ "" ∧ '\x7b' ∉ "K".toList ∧
      ∃ tree, ((⟨.standard, layered⟩ : Loader Empty).loadElement
          (fun _ => .fail .missingSubtreeId) (setterElement "K" "\x7bA\x7d")).result = .ok tree ∧
        tree.Puts layered.blackboard "K" (.text "deep") := by
  refine ⟨rfl, by decide, by decide, ?_⟩
  obtain ⟨tree, _, htree, hputs, _⟩ :=
    (loaded_setter_stores (⟨.standard, layered⟩ : Loader Empty) rfl
      (by decide : "K" ≠ "") (by decide)).1 (fun _ => .fail .missingSubtreeId) "\x7bA\x7d"
  exact ⟨tree, htree, hputs⟩

/-- What the first substitution puts in may be substituted by the second one. -/
theorem not_loaded_setter_substitutes_once :
    ¬ ∀ (loader : Loader Empty) (key : String),
      loader.registry.kind? "SetBlackboardValue" = some (.setValue {}) → key ≠ "" →
      '\x7b' ∉ key.toList → '\x7d' ∉ key.toList → loader.SubstitutesOnce key := by
  intro h
  have hregistered : (⟨.standard, layered⟩ : Loader Empty).registry.kind? "SetBlackboardValue" =
      some (.setValue {}) := rfl
  have honce := h ⟨.standard, layered⟩ "K" hregistered (by decide) (by decide) (by decide)
  have hsame := (substitutesOnce_iff _ hregistered (by decide) (by decide)).mp honce "\x7bA\x7d"
  have htwice : layered.insertThenResolve "\x7bA\x7d" = "deep" := by rfl
  have hsingle : layered.resolvePlaceholders "\x7bA\x7d" = "\x7bB\x7d" := by rfl
  rw [htwice, hsingle] at hsame
  simp at hsame

end Loader

end BehaviorTree
