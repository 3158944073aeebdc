import BehaviorTree.Proofs.Document.Shape
import BehaviorTree.Proofs.Node.Setting

/-!
# What the attributes of an element set

An attribute offers a property a value if it spells the key of the property, is not the name of the
node, and its text converts to the type of the property. A node that is loaded has the last value
that is offered for each of its properties, or the one it is registered with. Apart from its
settings it is what it would be without the attributes, and so is a failure
(`Loader.binds_attributes`).
-/

namespace BehaviorTree

namespace Loader

variable {κ : Type} [Application κ]

/-! ## Offers -/

/-- The value that an attribute offers a property. -/
def offer? (context : Context) (property : Property) (item : Attribute) : Option PropertyValue :=
  if item.name ≠ "name" ∧ Property.pascalCase item.name = property.key then
    property.type.read? (context.insertValues item.value)
  else none

/-- The last value that attributes offer a property. -/
def lastOffer? (context : Context) (attributes : List Attribute) (property : Property) :
    Option PropertyValue :=
  (attributes.filterMap (offer? context property)).getLast?

/-- The settings with the last values that are offered, where there are any. -/
def accept (offers : Property → Option PropertyValue) (entry : String × PropertyValue) :
    String × PropertyValue :=
  (entry.1, (offers ⟨entry.1, entry.2.type⟩).getD entry.2)

/-- A text converts to a value of the right type, since no value is raw. -/
theorem type_of_read? {old value : PropertyValue} {text : String}
    (hread : old.type.read? text = some value) : value.type = old.type := by
  cases old <;> simp only [PropertyValue.type, PropertyType.read?, Option.some.injEq,
    Option.map_eq_some_iff] at hread
  · subst hread
    rfl
  all_goals
    obtain ⟨_, -, rfl⟩ := hread
    rfl

/-- A value that is offered has the type of the one that it replaces. -/
theorem type_of_offer? {context : Context} {item : Attribute} {key : String}
    {old value : PropertyValue} (hoffer : offer? context ⟨key, old.type⟩ item = some value) :
    value.type = old.type := by
  unfold offer? at hoffer
  split at hoffer
  · exact type_of_read? hoffer
  · cases hoffer

/-- Without attributes a setting stays as it is. -/
theorem accept_nil (context : Context) (entry : String × PropertyValue) :
    accept (lastOffer? context []) entry = entry := rfl

/-- The attributes make their offers one after the other. -/
theorem accept_cons (context : Context) (item : Attribute) (rest : List Attribute)
    (entry : String × PropertyValue) :
    accept (lastOffer? context (item :: rest)) entry =
      accept (lastOffer? context rest) (accept (fun property => offer? context property item) entry)
      := by
  obtain ⟨key, old⟩ := entry
  unfold accept lastOffer?
  dsimp only
  cases hoffer : offer? context ⟨key, old.type⟩ item with
  | none => rw [List.filterMap_cons_none hoffer, Option.getD_none]
  | some value =>
    rw [List.filterMap_cons_some hoffer, List.getLast?_cons, Option.getD_some, Option.getD_some,
      type_of_offer? hoffer]

/-! ## Setting the properties -/

section

variable (context : Context) (name : String) {kind : Kind κ}

/-- The property that an attribute is for is declared, and the attribute spells its key. -/
theorem of_propertyFor? {properties : List Property} {item : Attribute} {property : Property}
    (hfor : propertyFor? properties item = some property) :
    property ∈ properties ∧ item.name ≠ "name" ∧ Property.pascalCase item.name = property.key := by
  unfold propertyFor? at hfor
  split at hfor
  · cases hfor
  · next hname =>
    have hkey := List.find?_some hfor
    exact ⟨List.mem_of_find?_eq_some hfor, hname, (of_decide_eq_true hkey).symm⟩

/-- An attribute that sets no property makes no offer. -/
theorem offer?_eq_none {properties : List Property} {item : Attribute} {property : Property}
    (hfor : propertyFor? properties item = none) (hmem : property ∈ properties) :
    offer? context property item = none := by
  refine if_neg fun ⟨hname, hkey⟩ => ?_
  rw [propertyFor?, if_neg hname] at hfor
  exact absurd hkey.symm (by simpa using List.find?_eq_none.mp hfor property hmem)

/-- Any other attribute makes an offer to the property that it sets, if its text converts. -/
theorem offer?_eq (hrelays : kind.relays) {item : Attribute} {property declared : Property}
    (hfor : propertyFor? kind.properties item = some property)
    (hdeclared : declared ∈ kind.properties) :
    offer? context declared item = if declared.key = property.key then
      property.type.read? (context.insertValues item.value) else none := by
  obtain ⟨hmem, hname, hkey⟩ := of_propertyFor? hfor
  rw [offer?, hkey]
  by_cases hsame : declared.key = property.key
  · rw [if_pos ⟨hname, hsame.symm⟩, if_pos hsame, kind.eq_of_key_eq hrelays hmem hdeclared hsame]
  · rw [if_neg fun h => hsame h.2.symm, if_neg hsame]

/-- An attribute sets a property or nothing. -/
theorem configureOne_eq (properties : List Property) (kind : Kind κ) (item : Attribute) :
    (configureOne context name properties kind item).1 = kind ∨
      ∃ key value,
        (configureOne context name properties kind item).1 = kind.configure key value := by
  unfold configureOne
  split
  · exact .inl rfl
  · split
    · exact .inr ⟨_, _, rfl⟩
    · exact .inl rfl

/-- Setting one attribute does not change which properties are declared. -/
theorem declares_configureOne (hrelays : kind.relays) (properties : List Property)
    (item : Attribute) :
    let next := (configureOne context name properties kind item).1
    next.relays ∧ next.title = kind.title ∧ next.properties = kind.properties := by
  intro next
  obtain hsame | ⟨key, value, hset⟩ := configureOne_eq context name properties kind item
  · rw [show next = kind from hsame]
    exact ⟨hrelays, rfl, rfl⟩
  · rw [show next = kind.configure key value from hset]
    have htype := kind.hasTypeOf_configure hrelays key value
    exact ⟨htype.relays, htype.title_eq, htype.properties_eq⟩

/-- One attribute makes its offer. -/
theorem values_configureOne (hrelays : kind.relays) (item : Attribute) :
    (configureOne context name kind.properties kind item).1.values =
      kind.values.map (accept fun property => offer? context property item) := by
  have hdeclared : ∀ entry ∈ kind.values,
      (⟨entry.1, entry.2.type⟩ : Property) ∈ kind.properties := by
    intro entry hentry
    rw [kind.properties_eq hrelays]
    exact List.mem_map_of_mem hentry
  unfold configureOne
  cases hfor : propertyFor? kind.properties item with
  | none =>
    refine (List.map_id _).symm.trans (List.map_congr_left fun entry hentry => ?_)
    rw [accept, offer?_eq_none context hfor (hdeclared entry hentry)]
    rfl
  | some property =>
    have hoffer := fun entry hentry => offer?_eq context hrelays hfor (hdeclared entry hentry)
    dsimp only
    unfold Property.parse
    cases hread : property.type.read? (context.insertValues item.value) with
    | none =>
      refine (List.map_id _).symm.trans (List.map_congr_left fun entry hentry => ?_)
      rw [accept, hoffer entry hentry, hread, ite_self]
      rfl
    | some value =>
      have htype : value.type = property.type := by
        have hmem := (of_propertyFor? hfor).1
        rw [kind.properties_eq hrelays] at hmem
        obtain ⟨entry, -, rfl⟩ := List.mem_map.mp hmem
        exact type_of_read? hread
      dsimp only
      rw [kind.values_configure hrelays (of_propertyFor? hfor).1 htype]
      refine List.map_congr_left fun entry hentry => ?_
      rw [accept, hoffer entry hentry, hread]
      split <;> rfl

/-- All attributes make their offers. -/
theorem values_configureAll (hrelays : kind.relays) (attributes : List Attribute) :
    let bound := (configureAll context name kind.properties kind attributes).1
    bound.title = kind.title ∧
      bound.values = kind.values.map (accept (lastOffer? context attributes)) := by
  induction attributes generalizing kind with
  | nil => exact ⟨rfl, (List.map_id _).symm.trans (List.map_congr_left fun entry _ =>
      (accept_nil context entry).symm)⟩
  | cons item rest ih =>
    have hvalues := values_configureOne context name hrelays item
    obtain ⟨hnext, htitle, hproperties⟩ :=
      declares_configureOne context name hrelays kind.properties item
    obtain ⟨hresttitle, hrest⟩ := ih hnext
    rw [hproperties] at hresttitle hrest
    rw [hvalues, List.map_map] at hrest
    refine ⟨hresttitle.trans htitle, hrest.trans (List.map_congr_left fun entry _ => ?_)⟩
    exact (accept_cons context item rest entry).symm

/-- The name of a node is no property of it. -/
theorem configureAll_of_name (properties : List Property) {attributes : List Attribute}
    (hname : ∀ item ∈ attributes, item.name = "name") :
    (configureAll context name properties kind attributes).1 = kind := by
  induction attributes with
  | nil => rfl
  | cons item rest ih =>
    obtain ⟨hitem, hrest⟩ := List.forall_mem_cons.mp hname
    have hnone : propertyFor? properties item = none := if_pos hitem
    have hone : configureOne context name properties kind item = (kind, []) := by
      rw [configureOne, hnone]
    rw [configureAll, hone]
    exact ih hrest

end

/-! ## Loading -/

/-- The element with no attributes but the name of the node. -/
def unconfigured (element : Element) : Element :=
  { element with attributes := element.attributes.filter fun item => item.name = "name" }

/-- The name of a node does not depend on its other attributes. -/
theorem nodeName_unconfigured (element : Element) :
    nodeName (unconfigured element) = nodeName element := by
  rw [nodeName, nodeName, Element.attribute?, Element.attribute?, unconfigured, List.find?_filter]
  simp only [and_self, Bool.decide_eq_true]

section

variable {loader : Loader κ} {expand : Element → Load (Tree κ)} {kind other : Kind κ}

/-- What children load to depends on how many children their parent takes and on nothing else of
it. -/
theorem result_loadChildren_of_admits (hadmits : ∀ count, kind.admits count = other.admits count)
    (tag name : String) (index : Nat) (children : List Element) :
    (loader.loadChildren expand kind tag name index children).result =
      (loader.loadChildren expand other tag name index children).result := by
  induction children generalizing index with
  | nil => rfl
  | cons child rest ih =>
    rw [result_loadChildren_cons, result_loadChildren_cons, hadmits, ih]

/-- What loading a registered node gives, once its attributes are set: a leaf, an error in the
number of children, or the node with the children that are loaded. -/
theorem result_loadElement_of_kind (expand : Element → Load (Tree κ)) (element : Element)
    {bound : Kind κ} (hnode : isReference element = false)
    (hregistered : loader.registry.kind? element.name = some kind)
    (hbound : (configureAll loader.context (nodeName element) kind.properties kind
      element.attributes).1 = bound) :
    (loader.loadElement expand element).result =
      if bound.arity = .exactly 0 then .ok ⟨nodeName element, bound, []⟩
      else
        match arityError? bound element (nodeName element) with
        | some error => .error error
        | none =>
          (loader.loadChildren expand bound element.name (nodeName element) 0
            element.children).result.bind fun trees => .ok ⟨nodeName element, bound, trees⟩ := by
  have hcreate : loader.registry.create element.name = .ok kind := by
    rw [Registry.create, hregistered]
  subst hbound
  rw [result_loadElement, hnode, result_loadKind, hcreate]
  rfl

/-- An element without attributes gives a node as it is registered. -/
theorem result_loadElement_unconfigured (expand : Element → Load (Tree κ)) {element : Element}
    (hnode : isReference element = false)
    (hregistered : loader.registry.kind? element.name = some kind) :
    (loader.loadElement expand (unconfigured element)).result =
      if kind.arity = .exactly 0 then .ok ⟨nodeName element, kind, []⟩
      else
        match arityError? kind element (nodeName element) with
        | some error => .error error
        | none =>
          (loader.loadChildren expand kind element.name (nodeName element) 0
            element.children).result.bind fun trees => .ok ⟨nodeName element, kind, trees⟩ := by
  have hname : ∀ item ∈ (unconfigured element).attributes, item.name = "name" := by
    intro item hitem
    simpa using (List.mem_filter.mp hitem).2
  rw [result_loadElement_of_kind expand (unconfigured element) hnode hregistered
    (configureAll_of_name _ _ _ hname), nodeName_unconfigured]
  rfl

/-- Apart from its settings a node is loaded as it would be without attributes. -/
theorem result_loadElement_eq_map (expand : Element → Load (Tree κ)) {element : Element}
    {bound : Kind κ} (hrelays : kind.relays) (hnode : isReference element = false)
    (hregistered : loader.registry.kind? element.name = some kind)
    (hbound : (configureAll loader.context (nodeName element) kind.properties kind
      element.attributes).1 = bound) :
    (loader.loadElement expand element).result =
        (loader.loadElement expand (unconfigured element)).result.map fun tree =>
          ⟨tree.name, bound, tree.children⟩ := by
  obtain ⟨hboundRelays, harity⟩ :=
    type_configureAll loader.context (nodeName element) kind.properties hrelays element.attributes
  rw [hbound] at hboundRelays harity
  have hadmits : ∀ count, bound.admits count = kind.admits count := by
    intro count
    rw [bound.admits_eq hboundRelays, kind.admits_eq hrelays, harity]
  have hfailure : arityError? bound element (nodeName element) =
      arityError? kind element (nodeName element) := by
    rw [arityError?, arityError?, harity]
  rw [result_loadElement_of_kind expand element hnode hregistered hbound,
    result_loadElement_unconfigured expand hnode hregistered, harity, hfailure,
    result_loadChildren_of_admits hadmits]
  split
  · rfl
  · split
    · rfl
    · cases (loader.loadChildren expand kind element.name (nodeName element) 0
        element.children).result <;> rfl

end

/-- A built-in node that is loaded has for each property that its type declares the last value that
an attribute offers, or else the one that it is registered with. All else about it is as if there
were no attributes but its name, and loading fails exactly if it fails then, with the same error.
Any property can be set to any value of its type, which changes that setting and nothing else. -/
theorem binds_attributes (loader : Loader κ) (expand : Element → Load (Tree κ)) (element : Element)
    {kind : Kind κ} (hbuiltIn : ∀ node, kind ≠ .custom node)
    (hregistered : loader.registry.kind? element.name = some kind)
    (hnode : isReference element = false) :
    kind.properties = kind.values.map (fun entry => ⟨entry.1, entry.2.type⟩) ∧
    (∃ bound : Kind κ, bound.title = kind.title ∧
      bound.values =
        kind.values.map (accept (lastOffer? loader.context element.attributes)) ∧
      (∀ tree, (loader.loadElement expand (unconfigured element)).result = .ok tree →
        tree.kind = kind) ∧
      (loader.loadElement expand element).result =
        (loader.loadElement expand (unconfigured element)).result.map fun tree =>
          ⟨tree.name, bound, tree.children⟩) ∧
    ∀ property ∈ kind.properties, ∀ value : PropertyValue, value.type = property.type →
      (kind.configure property.key value).title = kind.title ∧
      (kind.configure property.key value).values = kind.values.map (fun entry =>
        if entry.1 = property.key then (entry.1, value) else entry) ∧
      ∀ old, (property.key, old) ∈ kind.values →
        (kind.configure property.key value).configure property.key old = kind := by
  have hrelays := Kind.relays_of_ne_custom hbuiltIn
  obtain ⟨htitle, hvalues⟩ :=
    values_configureAll loader.context (nodeName element) hrelays element.attributes
  refine ⟨kind.properties_eq hrelays, ⟨_, htitle, hvalues, fun tree htree => ?_,
    result_loadElement_eq_map expand hrelays hnode hregistered rfl⟩,
    fun property hproperty value htype => ⟨(kind.hasTypeOf_configure hrelays _ _).title_eq,
      kind.values_configure hrelays hproperty htype,
      fun old => kind.configure_back hrelays hproperty htype⟩⟩
  rw [result_loadElement_unconfigured expand hnode hregistered] at htree
  split at htree
  · cases htree
    rfl
  · split at htree
    · cases htree
    · obtain ⟨trees, -, hnode⟩ := Except.bind_eq_ok_iff.mp htree
      cases hnode
      rfl

/-- An element with attributes that spell one property in several ways. -/
def manySpellings : Element :=
  ⟨"Retry", [⟨"MaxRetries", "5"⟩, ⟨"name", "Door"⟩, ⟨"max_retries", "\x7bN\x7d"⟩,
    ⟨"max-retries", "soon"⟩, ⟨"unknown", "1"⟩, ⟨"backoff-ms", " 20 "⟩],
    [⟨"AlwaysSuccess", [], []⟩]⟩

/-- The last of them that can be converted counts. -/
theorem binds_attributes_manySpellings :
    let context := ({} : Context).set "N" (.text "7")
    let loader : Loader Empty := ⟨.standard, context⟩
    let expand : Element → Load (Tree Empty) := fun _ => .fail .missingSubtreeId
    (∀ node, (.retry {} : Kind Empty) ≠ .custom node) ∧
      loader.registry.kind? manySpellings.name = some (.retry {}) ∧
      isReference manySpellings = false ∧
      ∃ tree, (loader.loadElement expand manySpellings).result = .ok tree ∧ tree.name = "Door" ∧
        tree.kind.values =
          [("MaxRetries", .int 7), ("BackoffMs", .int 20), ("ExponentialBackoff", .bool true)] := by
  intro context loader expand
  have hregistered : loader.registry.kind? manySpellings.name = some (.retry {}) := by rfl
  have hnode : isReference manySpellings = false := by rfl
  obtain ⟨-, ⟨bound, -, hvalues, -, hload⟩, -⟩ :=
    binds_attributes loader expand manySpellings nofun hregistered hnode
  have hplain : (loader.loadElement expand (unconfigured manySpellings)).result =
      .ok ⟨"Door", .retry {}, [⟨"AlwaysSuccess", .alwaysSuccess, []⟩]⟩ := by rfl
  rw [hplain] at hload
  exact ⟨nofun, hregistered, hnode, _, hload, rfl, hvalues.trans (by decide +kernel)⟩

end Loader

end BehaviorTree
