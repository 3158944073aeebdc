import BehaviorTree.Json.Reader
import Mathlib.Data.String.Basic

/-!
# The order of members

A dictionary lists its entries in increasing key order. So an entry is looked up exactly if it is
there, and the first entry of some kind is the one with the least key. The objects of JSON are such
dictionaries, and so is every object in a value that was read from a text (`Json.isOrdered_parse?`).
-/

namespace BehaviorTree

namespace Dict

variable {α : Type}

/-- The keys increase from each entry to the next. -/
def Increases (entries : List (String × α)) : Prop :=
  entries.Pairwise fun entry later => entry.1 < later.1

/-- An entry after an insertion is the new one or was there before. -/
theorem mem_insertEntry {key : String} {value : α} {entries : List (String × α)}
    {entry : String × α} (hmem : entry ∈ insertEntry key value entries) :
    entry = (key, value) ∨ entry ∈ entries := by
  induction entries with
  | nil => exact .inl (List.mem_singleton.mp hmem)
  | cons first others ih =>
    rw [insertEntry] at hmem
    split at hmem
    · exact (List.mem_cons.mp hmem).imp_right (List.mem_cons_of_mem _)
    · split at hmem
      · exact List.mem_cons.mp hmem
      · obtain hfirst | hothers := List.mem_cons.mp hmem
        · exact .inr (List.mem_cons.mpr (.inl hfirst))
        · exact (ih hothers).imp_right (List.mem_cons_of_mem _)

/-- An insertion keeps the keys increasing. -/
theorem Increases.insertEntry {entries : List (String × α)} (hincreases : Increases entries)
    (key : String) (value : α) : Increases (insertEntry key value entries) := by
  induction entries with
  | nil => exact List.pairwise_singleton _ _
  | cons first others ih =>
    obtain ⟨hfirst, hothers⟩ := List.pairwise_cons.mp hincreases
    rw [Dict.insertEntry]
    split
    · next hsame => exact List.pairwise_cons.mpr ⟨hsame ▸ hfirst, hothers⟩
    · next hdiffer =>
      split
      · next hbefore =>
        refine List.pairwise_cons.mpr ⟨fun entry hentry => ?_, hincreases⟩
        obtain rfl | hentry := List.mem_cons.mp hentry
        · exact hbefore
        · exact hbefore.trans (hfirst entry hentry)
      · next hafter =>
        have hlater : first.1 < key := lt_of_le_of_ne (not_lt.mp hafter) (Ne.symm hdiffer)
        refine List.pairwise_cons.mpr ⟨fun entry hentry => ?_, ih hothers⟩
        obtain rfl | hentry := mem_insertEntry hentry
        · exact hlater
        · exact hfirst entry hentry

section

variable {entries : List (String × α)} (hincreases : Increases entries)
include hincreases

/-- An entry is looked up exactly if it is there. -/
theorem lookup_eq_some_iff_mem {key : String} {value : α} :
    entries.lookup key = some value ↔ (key, value) ∈ entries := by
  induction entries with
  | nil => simp
  | cons first others ih =>
    obtain ⟨hfirst, hothers⟩ := List.pairwise_cons.mp hincreases
    rw [lookup_cons, List.mem_cons]
    split
    · next hkey =>
      constructor
      · intro hvalue
        exact .inl (Prod.ext hkey (Option.some.inj hvalue).symm)
      · rintro (heq | hmem)
        · rw [← heq]
        · exact absurd (hkey ▸ hfirst _ hmem) (lt_irrefl _)
    · next hkey =>
      rw [ih hothers]
      refine (or_iff_right ?_).symm
      exact fun heq => hkey (congrArg Prod.fst heq)

/-- The first entry of some kind is the one with the least key. -/
theorem find?_eq_some_iff_least {p : String × α → Bool} {found : String × α} :
    entries.find? p = some found ↔
      found ∈ entries ∧ p found = true ∧ ∀ other ∈ entries, p other = true → found.1 ≤ other.1 := by
  induction entries with
  | nil => simp
  | cons first others ih =>
    obtain ⟨hfirst, hothers⟩ := List.pairwise_cons.mp hincreases
    rw [List.find?_cons]
    cases hp : p first with
    | true =>
      constructor
      · rintro ⟨⟩
        refine ⟨List.mem_cons_self, hp, fun other hother _ => ?_⟩
        obtain rfl | hother := List.mem_cons.mp hother
        · exact le_rfl
        · exact (hfirst other hother).le
      · rintro ⟨hfound, -, hleast⟩
        obtain rfl | hfound := List.mem_cons.mp hfound
        · rfl
        · have hle := hleast first List.mem_cons_self hp
          exact absurd (hfirst found hfound) hle.not_gt
    | false =>
      have hpfirst : ¬ p first = true := Bool.eq_false_iff.mp hp
      refine (ih hothers).trans ⟨?_, ?_⟩
      · rintro ⟨hfound, hpfound, hleast⟩
        refine ⟨List.mem_cons_of_mem _ hfound, hpfound, fun other hother hpother => ?_⟩
        obtain rfl | hother := List.mem_cons.mp hother
        · exact absurd hpother hpfirst
        · exact hleast other hother hpother
      · rintro ⟨hfound, hpfound, hleast⟩
        obtain rfl | hfound := List.mem_cons.mp hfound
        · exact absurd hpfound hpfirst
        · exact ⟨hfound, hpfound, fun other hother => hleast other (List.mem_cons_of_mem _ hother)⟩

end

end Dict

namespace Json

/-- In every object of the value the keys increase from each member to the next. -/
inductive IsOrdered : Json → Prop
  | null : IsOrdered .null
  | bool (value : Bool) : IsOrdered (.bool value)
  | integer (value : Int) : IsOrdered (.integer value)
  | double (value : Binary) : IsOrdered (.double value)
  | string (value : String) : IsOrdered (.string value)
  | array {items : List Json} : (∀ item ∈ items, item.IsOrdered) → IsOrdered (.array items)
  | object {members : List (String × Json)} :
      Dict.Increases members → (∀ member ∈ members, member.2.IsOrdered) →
      IsOrdered (.object members)

/-! ## Values that are read -/

/-- A double that is read is ordered, since it has no members. -/
theorem isOrdered_doubleOf? {negative : Bool} {leading : Leading} {exponent : Int} {json : Json}
    (hread : doubleOf? negative leading exponent = some json) : json.IsOrdered := by
  obtain ⟨x, -, rfl⟩ := Option.map_eq_some_iff.mp hread
  exact .double _

/-- A number that is read is ordered, in whichever form it is held. -/
theorem isOrdered_numberOf? {negative : Bool} {whole fraction : List Char} {exponent : Option Int}
    {json : Json} (hread : numberOf? negative whole fraction exponent = some json) :
    json.IsOrdered := by
  unfold numberOf? at hread
  split at hread
  · split at hread
    · split at hread
      · exact isOrdered_doubleOf? hread
      · split at hread
        · cases hread
          exact .integer _
        · exact isOrdered_doubleOf? hread
    · split at hread
      · cases hread
        exact .integer _
      · exact isOrdered_doubleOf? hread
  · exact isOrdered_doubleOf? hread

/-- What is read as a number is ordered. -/
theorem isOrdered_readNumber? {negative : Bool} {cs rest : List Char} {json : Json}
    (hread : readNumber? negative cs = some (json, rest)) : json.IsOrdered := by
  unfold readNumber? at hread
  split at hread
  split at hread
  dsimp only at hread
  split at hread
  · cases hread
  · split at hread
    · obtain ⟨number, hnumber, heq⟩ := Option.map_eq_some_iff.mp hread
      cases heq
      exact isOrdered_numberOf? hnumber
    · cases hread

/-- What is read as one of the three words is ordered. -/
theorem isOrdered_readWord? {cs rest : List Char} {json : Json}
    (hread : readWord? cs = some (json, rest)) : json.IsOrdered := by
  unfold readWord? at hread
  split at hread <;> cases hread
  · exact .null
  · exact .bool _
  · exact .bool _

/-- An array is ordered if its first item is and the array of the others is. -/
theorem IsOrdered.cons {item : Json} {items : List Json} (hitem : item.IsOrdered)
    (hitems : (Json.array items).IsOrdered) : (Json.array (item :: items)).IsOrdered := by
  cases hitems with
  | array hitems => exact .array (List.forall_mem_cons.mpr ⟨hitem, hitems⟩)

/-- An ordered value that is added to ordered members, or takes the place of one of them. -/
theorem IsOrdered.insert {members : Dict Json} {value : Json}
    (hmembers : (Json.object members.entries).IsOrdered) (key : String) (hvalue : value.IsOrdered) :
    (Json.object (members.insert key value).entries).IsOrdered := by
  cases hmembers with
  | object hincreases hmembers =>
    refine .object (hincreases.insertEntry key value) fun member hmember => ?_
    obtain rfl | hmember := Dict.mem_insertEntry hmember
    · exact hvalue
    · exact hmembers member hmember

/-- The object without members is ordered. -/
theorem isOrdered_empty : (object (Dict.empty : Dict Json).entries).IsOrdered :=
  .object .nil (List.forall_mem_nil _)

/-- What the three readers have in common: they find ordered values, and add them to ordered
members. -/
structure ReadsOrdered (fuel : Nat) : Prop where
  value {cs rest : List Char} {json : Json} :
    readValue? fuel cs = some (json, rest) → json.IsOrdered
  items {cs rest : List Char} {items : List Json} :
    readItems? fuel cs = some (items, rest) → (array items).IsOrdered
  members {cs rest : List Char} {before members : Dict Json} :
    (object before.entries).IsOrdered → readMembers? fuel cs before = some (members, rest) →
    (object members.entries).IsOrdered

namespace ReadsOrdered

variable {fuel : Nat} (hreads : ReadsOrdered fuel) {cs rest : List Char}
include hreads

/-- A value that begins with more fuel is ordered if all that is read inside it is. -/
theorem readValue? {json : Json} (hread : readValue? (fuel + 1) cs = some (json, rest)) :
    json.IsOrdered := by
  unfold Json.readValue? at hread
  split at hread
  · obtain ⟨_, -, heq⟩ := Option.map_eq_some_iff.mp hread
    cases heq
    exact .string _
  · split at hread
    · cases hread
      exact .array (List.forall_mem_nil _)
    · obtain ⟨_, hitems, heq⟩ := Option.map_eq_some_iff.mp hread
      cases heq
      exact hreads.items hitems
  · split at hread
    · cases hread
      exact isOrdered_empty
    · obtain ⟨_, hmembers, heq⟩ := Option.map_eq_some_iff.mp hread
      cases heq
      exact hreads.members isOrdered_empty hmembers
  · exact isOrdered_readNumber? hread
  · split at hread
    · exact isOrdered_readNumber? hread
    · exact isOrdered_readWord? hread
  · cases hread

/-- Items that begin with more fuel are ordered if the first of them and the rest are. -/
theorem readItems? {items : List Json} (hread : readItems? (fuel + 1) cs = some (items, rest)) :
    (array items).IsOrdered := by
  unfold Json.readItems? at hread
  split at hread
  · cases hread
  · next hitem =>
    split at hread
    · obtain ⟨_, hitems, heq⟩ := Option.map_eq_some_iff.mp hread
      cases heq
      exact (hreads.value hitem).cons (hreads.items hitems)
    · cases hread
      exact (hreads.value hitem).cons (.array (List.forall_mem_nil _))
    · cases hread

/-- Members that begin with more fuel stay ordered if the value of the first one is. -/
theorem readMembers? {before members : Dict Json} (hbefore : (object before.entries).IsOrdered)
    (hread : readMembers? (fuel + 1) cs before = some (members, rest)) :
    (object members.entries).IsOrdered := by
  unfold Json.readMembers? at hread
  split at hread
  · split at hread
    · cases hread
    · split at hread
      · split at hread
        · cases hread
        · next hvalue =>
          have hinsert := fun key => hbefore.insert key (hreads.value hvalue)
          dsimp only at hread
          split at hread
          · exact hreads.members (hinsert _) hread
          · cases hread
            exact hinsert _
          · cases hread
      · cases hread
  · cases hread

end ReadsOrdered

/-- Whatever the three readers read is ordered. The induction is on their common fuel. -/
theorem readsOrdered (fuel : Nat) : ReadsOrdered fuel := by
  induction fuel with
  | zero => exact ⟨nofun, nofun, fun _ => nofun⟩
  | succ fuel ih => exact ⟨ih.readValue?, ih.readItems?, ih.readMembers?⟩

/-- Every object in a value that was read from a text is in key order. -/
theorem isOrdered_parse? {text : String} {json : Json} (hparse : parse? text = some json) :
    json.IsOrdered := by
  unfold parse? at hparse
  dsimp only at hparse
  split at hparse
  · next hread =>
    split at hparse
    · cases hparse
      exact (readsOrdered _).value hread
    · cases hparse
  · cases hparse

end Json

end BehaviorTree
