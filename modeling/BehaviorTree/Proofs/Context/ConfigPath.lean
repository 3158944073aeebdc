import BehaviorTree.Context.Config
import BehaviorTree.Proofs.Json.Ordered
import BehaviorTree.Proofs.Number.Numeral
import BehaviorTree.Proofs.Text.Split

/-!
# Paths into a configuration

A path leads from the root of a configuration through its members and items. It goes by exact keys,
and other members do not matter to it, even if their keys differ from these in case only. Where no
member has the exact key, the path goes on in the first one whose key is the same but for case, and
it stops where there is none of those either (`Context.configValue?_along`).
-/

namespace BehaviorTree.Context

/-! ## Keys and paths -/

/-- A key that a path can contain. -/
def IsKey (key : String) : Prop := key ≠ "" ∧ '.' ∉ key.toList

/-- The keys in their order, with a point or more between any two of them. There can be further
points before the first and after the last. -/
inductive IsPathOf : List String → List Char → Prop
  | nil : IsPathOf [] []
  | point {keys : List String} {path : List Char} :
      IsPathOf keys path → IsPathOf keys ('.' :: path)
  | key {keys : List String} {path : List Char} (key : String) :
      IsPathOf keys path → IsPathOf (key :: keys) (key.toList ++ '.' :: path)
  | last (key : String) : IsPathOf [key] key.toList

/-- A part that holds a key is a segment. -/
theorem filter_cons_key {key : String} (hkey : IsKey key) (parts : List (List Char)) :
    ((key.toList :: parts).filter (· ≠ [])).map String.ofList =
      key :: (parts.filter (· ≠ [])).map String.ofList := by
  have hfull : key.toList ≠ [] := fun hnil => hkey.1 (String.toList_eq_nil_iff.mp hnil)
  rw [List.filter_cons, if_pos (decide_eq_true hfull), List.map_cons, String.ofList_toList]

/-- The segments of a path are its keys. -/
theorem IsPathOf.pathSegments {keys : List String} {path : String}
    (hpath : IsPathOf keys path.toList) (hkeys : ∀ key ∈ keys, IsKey key) :
    pathSegments path = keys := by
  rw [Context.pathSegments]
  generalize path.toList = path at hpath
  induction hpath with
  | nil => rfl
  | point _ ih =>
    rw [Text.splitAt, if_pos rfl, List.filter_cons_of_neg (by decide)]
    exact ih hkeys
  | key key _ ih =>
    obtain ⟨hkey, hkeys⟩ := List.forall_mem_cons.mp hkeys
    rw [Text.splitAt_append_cons hkey.2, filter_cons_key hkey, ih hkeys]
  | last key =>
    have hkey := hkeys key List.mem_cons_self
    rw [Text.splitAt_of_not_mem hkey.2, filter_cons_key hkey]
    rfl

/-! ## One step of a path -/

/-- A decimal index in the range of indices. A plus sign may stand before it. -/
def IsIndex (key : String) (n : Nat) : Prop :=
  IsSignedNumeral key.toList n ∧ '-' ∉ key.toList ∧ IntegerType.usize.holds n = true

/-- A key leads to the member with exactly this key, or to the item with this index. -/
inductive Enters : Json → String → Json → Prop
  | member {members : List (String × Json)} {key : String} {inner : Json} :
      (key, inner) ∈ members → Enters (.object members) key inner
  | item {items : List Json} {key : String} {n : Nat} {inner : Json} :
      IsIndex key n → items[n]? = some inner → Enters (.array items) key inner

/-- A key that no member has exactly leads to the first of the members, by their keys, that have
it but for the case of letters. -/
inductive EntersLoosely : Json → String → Json → Prop
  | member {members : List (String × Json)} {key name : String} {inner : Json} :
      (∀ value, (key, value) ∉ members) → (name, inner) ∈ members →
      Text.sameName name key = true →
      (∀ other ∈ members, Text.sameName other.1 key = true → name ≤ other.1) →
      EntersLoosely (.object members) key inner

/-- Where a key leads. -/
def Steps (json : Json) (key : String) (inner : Json) : Prop :=
  Enters json key inner ∨ EntersLoosely json key inner

/-- A key leads nowhere: no member has it, in whatever case, or it is no index of an item, or there
are neither members nor items. -/
inductive Stops : Json → String → Prop
  | member {members : List (String × Json)} {key : String} :
      (∀ member ∈ members, Text.sameName member.1 key = false) → Stops (.object members) key
  | item {items : List Json} {key : String} :
      (∀ n < items.length, ¬ IsIndex key n) → Stops (.array items) key
  | scalar {json : Json} {key : String} :
      (∀ members, json ≠ .object members) → (∀ items, json ≠ .array items) → Stops json key

/-- A key is an index exactly if reading it as one gives the number. -/
theorem isIndex_iff {key : String} {n : Nat} :
    IsIndex key n ↔ IntegerType.usize.read? key = some (n : Int) := by
  have hunsigned : ¬ IntegerType.usize.isSigned = true := Bool.false_ne_true
  rw [IntegerType.read?_eq_some_iff, or_iff_right hunsigned]
  exact Iff.rfl

/-- What is read as an index is not negative. -/
theorem exists_isIndex {key : String} {i : Int} (hread : IntegerType.usize.read? key = some i) :
    ∃ n : Nat, i = n ∧ IsIndex key n := by
  have hholds := (IntegerType.read?_eq_some_iff.mp hread).2.2
  obtain ⟨n, rfl⟩ := Int.eq_ofNat_of_zero_le (IntegerType.nonneg_of_holds rfl hholds)
  exact ⟨n, rfl, isIndex_iff.mpr hread⟩

/-- In an array a step leads to the item at the index. Loosely it leads nowhere. -/
theorem steps_array_iff {items : List Json} {key : String} {inner : Json} :
    Steps (.array items) key inner ↔ ∃ n, IsIndex key n ∧ items[n]? = some inner := by
  constructor
  · rintro (henters | hloosely)
    · cases henters with
      | item hindex hitem => exact ⟨_, hindex, hitem⟩
    · cases hloosely
  · rintro ⟨n, hindex, hitem⟩
    exact .inl (.item hindex hitem)

/-- An index that is read leads to its item. -/
theorem configStep?_array_eq_some_iff {items : List Json} {key : String} {inner : Json} :
    configStep? (.array items) key = some inner ↔ Steps (.array items) key inner := by
  rw [configStep?, Option.bind_eq_some_iff, steps_array_iff]
  constructor
  · rintro ⟨i, hread, hitem⟩
    obtain ⟨n, rfl, hindex⟩ := exists_isIndex hread
    exact ⟨n, hindex, hitem⟩
  · rintro ⟨n, hindex, hitem⟩
    exact ⟨n, isIndex_iff.mp hindex, hitem⟩

/-- In an object whose keys increase, the step that is taken is the one that the key leads to. -/
theorem configStep?_object_eq_some_iff {members : List (String × Json)} {key : String}
    {inner : Json} (hincreases : Dict.Increases members) :
    configStep? (.object members) key = some inner ↔ Steps (.object members) key inner := by
  simp only [configStep?, Option.or_eq_some_iff, Option.map_eq_some_iff,
    Option.eq_none_iff_forall_ne_some, ne_eq, Dict.lookup_eq_some_iff_mem hincreases,
    Dict.find?_eq_some_iff_least hincreases]
  constructor
  · rintro (hmember | ⟨hnone, ⟨name, value⟩, ⟨hmember, hsame, hleast⟩, rfl⟩)
    · exact .inl (.member hmember)
    · exact .inr (.member hnone hmember hsame hleast)
  · rintro (henters | hloosely)
    · cases henters with
      | member hmember => exact .inl hmember
    · cases hloosely with
      | member hnone hmember hsame hleast =>
        exact .inr ⟨hnone, _, ⟨hmember, hsame, hleast⟩, rfl⟩

/-- One step goes where its key leads. -/
theorem configStep?_eq_some_iff {json : Json} {key : String} {inner : Json}
    (hordered : json.IsOrdered) : configStep? json key = some inner ↔ Steps json key inner := by
  cases hordered with
  | array _ => exact configStep?_array_eq_some_iff
  | object hincreases _ => exact configStep?_object_eq_some_iff hincreases
  | null | bool | integer | double | string =>
    refine ⟨nofun, ?_⟩
    rintro (henters | hloosely)
    · cases henters
    · cases hloosely

/-- In an array a key leads nowhere exactly if it is not the index of an item. -/
theorem stops_array_iff {items : List Json} {key : String} :
    Stops (.array items) key ↔ ∀ n < items.length, ¬ IsIndex key n := by
  refine ⟨?_, .item⟩
  rintro (_ | hnone | ⟨-, hne⟩)
  · exact hnone
  · exact absurd rfl (hne items)

/-- In an object a key leads nowhere exactly if no member has it in any case of letters. -/
theorem stops_object_iff {members : List (String × Json)} {key : String} :
    Stops (.object members) key ↔ ∀ member ∈ members, Text.sameName member.1 key = false := by
  refine ⟨?_, .member⟩
  rintro (hnone | _ | ⟨hne, -⟩)
  · exact hnone
  · exact absurd rfl (hne members)

/-- No step is taken where the key leads nowhere. -/
theorem configStep?_eq_none_iff {json : Json} {key : String} :
    configStep? json key = none ↔ Stops json key := by
  cases json with
  | array items =>
    rw [Option.eq_none_iff_forall_ne_some, stops_array_iff]
    simp only [ne_eq, configStep?_array_eq_some_iff, steps_array_iff]
    constructor
    · exact fun hnone n hn hindex => hnone _ ⟨n, hindex, List.getElem?_eq_getElem hn⟩
    · rintro hnone inner ⟨n, hindex, hitem⟩
      exact hnone n (List.getElem?_eq_some_iff.mp hitem).1 hindex
  | object members =>
    rw [configStep?, Option.or_eq_none_iff, Option.map_eq_none_iff, List.find?_eq_none,
      stops_object_iff]
    simp only [Bool.not_eq_true]
    refine and_iff_right_of_imp fun hnone => List.lookup_eq_none_iff.mpr fun member hmember => ?_
    rw [bne_iff_ne]
    rintro rfl
    exact Bool.false_ne_true ((hnone member hmember).symm.trans (Text.sameName_self _))
  | null | bool | integer | double | string =>
    exact iff_of_true rfl (.scalar nofun nofun)

/-- What a key leads to is ordered if the value is. -/
theorem Steps.isOrdered {json : Json} {key : String} {inner : Json} (hsteps : Steps json key inner)
    (hordered : json.IsOrdered) : inner.IsOrdered := by
  obtain henters | hloosely := hsteps
  · cases henters with
    | member hmember =>
      cases hordered with
      | object _ hmembers => exact hmembers _ hmember
    | item _ hitem =>
      cases hordered with
      | array hitems => exact hitems _ (List.mem_of_getElem? hitem)
  · cases hloosely with
    | member _ hmember _ _ =>
      cases hordered with
      | object _ hmembers => exact hmembers _ hmember

/-! ## A whole path -/

/-- From one value to another along keys, step by step. -/
inductive Along (step : Json → String → Json → Prop) : Json → List String → Json → Prop
  | refl (json : Json) : Along step json [] json
  | step {json inner reached : Json} {key : String} {keys : List String} :
      step json key inner → Along step inner keys reached → Along step json (key :: keys) reached

/-- Some key on the way leads nowhere. -/
inductive Blocked : Json → List String → Prop
  | here {json : Json} {key : String} {keys : List String} :
      Stops json key → Blocked json (key :: keys)
  | later {json inner : Json} {key : String} {keys : List String} :
      Steps json key inner → Blocked inner keys → Blocked json (key :: keys)

/-- A way along steps of one kind is one along steps of any kind that includes them. -/
theorem Along.mono {step other : Json → String → Json → Prop} {json reached : Json}
    {keys : List String} (hstep : ∀ json key inner, step json key inner → other json key inner)
    (halong : Along step json keys reached) : Along other json keys reached := by
  induction halong with
  | refl json => exact .refl json
  | step hfirst _ ih => exact .step (hstep _ _ _ hfirst) ih

/-- The walk reaches what lies along the keys. -/
theorem configWalk?_of_along {json reached : Json} {keys : List String}
    (halong : Along Steps json keys reached) (hordered : json.IsOrdered) :
    configWalk? json keys = some reached := by
  induction halong with
  | refl json => rfl
  | step hsteps _ ih =>
    rw [configWalk?, (configStep?_eq_some_iff hordered).mpr hsteps]
    exact ih (hsteps.isOrdered hordered)

/-- The walk ends where a key leads nowhere. -/
theorem configWalk?_of_blocked {json : Json} {keys : List String} (hblocked : Blocked json keys)
    (hordered : json.IsOrdered) : configWalk? json keys = none := by
  induction hblocked with
  | here hstops =>
    rw [configWalk?, configStep?_eq_none_iff.mpr hstops]
    rfl
  | later hsteps _ ih =>
    rw [configWalk?, (configStep?_eq_some_iff hordered).mpr hsteps]
    exact ih (hsteps.isOrdered hordered)

/-- The keys lead to a value, or one of them leads nowhere. -/
theorem along_or_blocked {json : Json} (hordered : json.IsOrdered) (keys : List String) :
    (∃ reached, Along Steps json keys reached) ∨ Blocked json keys := by
  induction keys generalizing json with
  | nil => exact .inl ⟨json, .refl json⟩
  | cons key keys ih =>
    cases hstep : configStep? json key with
    | none => exact .inr (.here (configStep?_eq_none_iff.mp hstep))
    | some inner =>
      have hsteps := (configStep?_eq_some_iff hordered).mp hstep
      obtain ⟨reached, halong⟩ | hblocked := ih (hsteps.isOrdered hordered)
      · exact .inl ⟨reached, .step hsteps halong⟩
      · exact .inr (.later hsteps hblocked)

/-- Null is the only JSON value without a string form. -/
theorem jsonForm?_eq_none_iff {json : Json} : Value.jsonForm? json = none ↔ json = .null := by
  cases json with
  | null => exact iff_of_true rfl rfl
  | bool | integer | double | string | array | object => exact iff_of_false nofun nofun

/-- The value at a path of keys is the string form of what lies along them, by exact keys whatever
other members there are, and loosely where there is no exact member. It is absent if that is null,
or if one of the keys leads nowhere; there is no third case. The configuration is ordered as every
value is that was read from a text (`Json.isOrdered_parse?`). -/
theorem configValue?_along {context : Context} {json : Json} {keys : List String} {path : String}
    (hconfig : context.config? = some json) (hordered : json.IsOrdered)
    (hkeys : ∀ key ∈ keys, IsKey key) (hpath : IsPathOf keys path.toList) :
    (∀ reached, Along Enters json keys reached →
      context.configValue? path = Value.jsonForm? reached) ∧
    (∀ reached, Along Steps json keys reached →
      context.configValue? path = Value.jsonForm? reached) ∧
    (Blocked json keys → context.configValue? path = none) ∧
    ((∃ reached, Along Steps json keys reached) ∨ Blocked json keys) ∧
    ∀ reached, Value.jsonForm? reached = none ↔ reached = .null := by
  have hvalue : context.configValue? path = (configWalk? json keys).bind Value.jsonForm? := by
    rw [configValue?, hconfig, hpath.pathSegments hkeys]
    rfl
  have hsteps (reached : Json) (halong : Along Steps json keys reached) :
      context.configValue? path = Value.jsonForm? reached := by
    rw [hvalue, configWalk?_of_along halong hordered, Option.bind_some]
  refine ⟨fun reached halong => hsteps reached (halong.mono fun _ _ _ => .inl), hsteps,
    fun hblocked => ?_, along_or_blocked hordered keys, fun _ => jsonForm?_eq_none_iff⟩
  rw [hvalue, configWalk?_of_blocked hblocked hordered, Option.bind_none]

/-- Members that differ from the keys in case do not matter, nor do further points. -/
theorem configValue?_along_otherCase :
    (({} : Context).withConfig (.object [
      ("A", .object [("X", .array [.string "u", .string "v"]), ("x", .bool true)]),
      ("a", .integer 7)])).1.configValue? ".A..X.1." = some "v" := by
  have hkeys : ∀ key ∈ ["A", "X", "1"], IsKey key := by
    unfold IsKey
    decide
  have hpath : IsPathOf ["A", "X", "1"] ".A..X.1.".toList :=
    .point (.key "A" (.point (.key "X" (.key "1" .nil))))
  have hitems : Json.IsOrdered (.array [.string "u", .string "v"]) :=
    .cons (.string "u") (.cons (.string "v") (.array nofun))
  have hinner := (Json.isOrdered_empty.insert "X" hitems).insert "x" (.bool true)
  have hordered := (Json.isOrdered_empty.insert "A" hinner).insert "a" (.integer 7)
  have hindex : IsIndex "1" 1 := isIndex_iff.mpr (by rfl)
  refine (configValue?_along (by rfl) hordered hkeys hpath).1 (.string "v") ?_
  refine .step (.member List.mem_cons_self) (.step (.member List.mem_cons_self) ?_)
  exact .step (.item hindex rfl) (.refl _)

end BehaviorTree.Context
