/-!
# Dictionaries in key order

A dictionary holds at most one value per text key and lists its entries in increasing key
order. Texts are ordered by code points, which is the order of their UTF-8 bytes. Inserting
and erasing change what one key has and nothing else (`get?_insert`, `get?_erase`).
-/

namespace BehaviorTree

/-- Entries in strictly increasing key order, as `insert` keeps them. -/
structure Dict (α : Type) where
  /-- The entries in the order of their keys. -/
  entries : List (String × α)

namespace Dict

variable {α : Type}

/-- The dictionary without entries. -/
def empty : Dict α := ⟨[]⟩

/-- A dictionary is empty by default. -/
instance : Inhabited (Dict α) := ⟨empty⟩

/-- Puts a value into an ordered list of entries, in place of one with the same key. -/
def insertEntry (key : String) (value : α) : List (String × α) → List (String × α)
  | [] => [(key, value)]
  | (k, v) :: rest =>
    if key = k then (key, value) :: rest
    else if key < k then (key, value) :: (k, v) :: rest
    else (k, v) :: insertEntry key value rest

/-- Gives a key a value, in place of the one that it has. -/
def insert (dict : Dict α) (key : String) (value : α) : Dict α :=
  ⟨insertEntry key value dict.entries⟩

/-- The value that a key has, if it has one. -/
def get? (dict : Dict α) (key : String) : Option α := dict.entries.lookup key

/-- Takes a key away together with its value. -/
def erase (dict : Dict α) (key : String) : Dict α :=
  ⟨dict.entries.filter fun entry => entry.1 != key⟩

/-- Whether a key has a value. -/
def contains (dict : Dict α) (key : String) : Bool := (dict.get? key).isSome

/-- The keys in increasing order. -/
def keys (dict : Dict α) : List String := dict.entries.map (·.1)

/-- The dictionary of these entries. Of two values for one key the later counts. -/
def ofList (entries : List (String × α)) : Dict α :=
  entries.foldl (fun dict entry => dict.insert entry.1 entry.2) empty

/-- No key has a value in the empty dictionary. -/
theorem get?_empty (key : String) : (empty : Dict α).get? key = none := rfl

/-- The first entry answers for its own key only. -/
theorem lookup_cons (entry : String × α) (rest : List (String × α)) (key : String) :
    (entry :: rest).lookup key = if key = entry.1 then some entry.2 else rest.lookup key := by
  obtain ⟨k, value⟩ := entry
  rw [List.lookup_cons]
  by_cases h : key = k
  · simp [h]
  · have hbeq : (key == k) = false := beq_false_of_ne h
    simp [hbeq, h]

/-- What is looked up in a list after an insertion: the new value under its own key, and the old one
under any other. -/
theorem lookup_insertEntry (key other : String) (value : α) (entries : List (String × α)) :
    (insertEntry key value entries).lookup other =
      if other = key then some value else entries.lookup other := by
  induction entries with
  | nil => simp [insertEntry, lookup_cons]
  | cons entry rest ih =>
    simp only [insertEntry, lookup_cons]
    split
    · next hsame =>
      subst hsame
      simp only [lookup_cons]
      split <;> rfl
    · next hdiffer =>
      split
      · simp only [lookup_cons]
      · simp only [lookup_cons, ih]
        by_cases hentry : other = entry.1
        · have hother : entry.1 ≠ key := fun h => hdiffer h.symm
          simp [hentry, hother]
        · simp [hentry]

/-- After an insertion the key has the new value, and all other keys have what they had. -/
theorem get?_insert (dict : Dict α) (key other : String) (value : α) :
    (dict.insert key value).get? other = if other = key then some value else dict.get? other :=
  lookup_insertEntry key other value dict.entries

/-- What is looked up in a list without the entries of a key: nothing under that key, and the same
as before under any other. -/
theorem lookup_filter_ne (key other : String) (entries : List (String × α)) :
    (entries.filter fun entry => entry.1 != key).lookup other =
      if other = key then none else entries.lookup other := by
  induction entries with
  | nil => simp
  | cons entry rest ih =>
    by_cases hkey : entry.1 = key
    · rw [List.filter_cons_of_neg (by simp [hkey]), ih, lookup_cons, hkey]
      split <;> rfl
    · rw [List.filter_cons_of_pos (by simp [hkey]), lookup_cons, lookup_cons, ih]
      by_cases hother : other = entry.1
      · simp [hother, hkey]
      · simp [hother]

/-- After an erasure the key has no value, and all other keys have what they had. -/
theorem get?_erase (dict : Dict α) (key other : String) :
    (dict.erase key).get? other = if other = key then none else dict.get? other :=
  lookup_filter_ne key other dict.entries

end Dict

end BehaviorTree
