import BehaviorTree.Proofs.Markup.Acceptance

/-!
# Repetitions make progress

Attributes, the parts of an element's content, and what stands around the root element are read one
after the other until none begins. A repetition of this kind has to stop when a part takes nothing,
since it would go on forever. Here every part takes something, so that this never happens
(`repeated_attributePart`, `repeated_contentPart`, `repeated_miscPart`), and the fuel of the readers
never runs out.
-/

namespace BehaviorTree.Markup

/-! ## Repetitions -/

/-- How a repetition comes to its end. -/
inductive Repetition (α : Type) where
  /-- No further part begins here. -/
  | ended (parts : List α) (rest : List Char)
  | failed (failure : Failure)
  /-- A part begins here that takes nothing. -/
  | stalled (rest : List Char)

namespace Repetition

variable {α : Type}

/-- What comes of a repetition with one part more at its front. -/
def cons (first : α) : Repetition α → Repetition α
  | ended parts rest => ended (first :: parts) rest
  | failed failure => failed failure
  | stalled rest => stalled rest

/-- A repetition without the parts that hold nothing. -/
def kept : Repetition (Option α) → Repetition α
  | ended parts rest => ended (parts.filterMap id) rest
  | failed failure => failed failure
  | stalled rest => stalled rest

/-- What a reader gives, as a repetition that has not stalled. -/
def ofResult : Except Failure (List α × List Char) → Repetition α
  | .ok (parts, rest) => ended parts rest
  | .error failure => failed failure

end Repetition

variable {α : Type}

/-- Reads parts one after the other as long as one begins, unless one takes nothing. -/
def repeated (part : List Char → Except Failure (α × List Char)) (cs : List Char) : Repetition α :=
  match part cs with
  | .error failure => if failure.final then .failed failure else .ended [] cs
  | .ok (first, rest) =>
    if rest.length < cs.length then (repeated part rest).cons first else .stalled cs
termination_by cs.length

/-- Whatever is read as a part takes something. -/
def Progresses (part : List Char → Except Failure (α × List Char)) : Prop :=
  ∀ cs first rest, part cs = .ok (first, rest) → rest.length < cs.length

/-- If every part takes something, a repetition goes on behind a part that is read. -/
theorem repeated_of_ok {part : List Char → Except Failure (α × List Char)}
    (hprogresses : Progresses part) {cs rest : List Char} {first : α}
    (hpart : part cs = .ok (first, rest)) : repeated part cs = (repeated part rest).cons first := by
  rw [repeated, hpart]
  exact if_pos (hprogresses cs first rest hpart)

/-- A repetition ends where no part begins, and fails where the failure of a part is final. -/
theorem repeated_of_error {part : List Char → Except Failure (α × List Char)} {cs : List Char}
    {failure : Failure} (hpart : part cs = .error failure) :
    repeated part cs = if failure.final then .failed failure else .ended [] cs := by
  rw [repeated, hpart]

/-! ## The parts take something -/

/-- Taking off a text that is not empty leaves less. -/
theorem length_lt_of_eq_append {cs text rest : List Char} (heq : cs = text ++ rest)
    (htext : text ≠ []) : rest.length < cs.length := by
  have hpositive := List.length_pos_iff.mpr htext
  rw [heq, List.length_append]
  omega

/-- Something stands between elements where a filler does. -/
theorem IsFiller.ne_nil {text : List Char} (htext : IsFiller text) : text ≠ [] := by
  rcases htext.run_or_markup with ⟨hne, _⟩ | ⟨c, inner, rfl, _⟩
  · exact hne
  · exact List.cons_ne_nil _ _

/-- Something stands around the root element where a part does. -/
theorem IsMiscPart.ne_nil {text : List Char} (htext : IsMiscPart text) : text ≠ [] := by
  rcases htext.gap_or_markup with ⟨hne, _⟩ | ⟨inner, rfl, _⟩
  · exact hne
  · exact List.cons_ne_nil _ _

/-- Reading a filler takes something. -/
theorem length_lt_of_afterFiller? {cs rest : List Char} (hfiller : afterFiller? cs = some rest) :
    rest.length < cs.length := by
  obtain ⟨text, heq, htext⟩ := afterFiller?_eq_some hfiller
  exact length_lt_of_eq_append heq htext.ne_nil

/-- Reading an element takes something. -/
theorem length_lt_of_element {fuel : Nat} {cs rest : List Char} {found : Element}
    (hfound : element fuel cs = .ok (found, rest)) : rest.length < cs.length := by
  obtain ⟨text, heq, htext⟩ := derives_of_element_eq_ok hfound
  obtain ⟨c, inner, rfl, _⟩ := htext.exists_eq_cons
  exact length_lt_of_eq_append heq (List.cons_ne_nil _ _)

/-! ## Around the root element -/

/-- Reads a part that may stand around the root element. -/
def miscPart (cs : List Char) : Except Failure (Unit × List Char) :=
  match afterMiscPart? cs with
  | some rest => .ok ((), rest)
  | none => .error ⟨false, .character, cs⟩

/-- Reading a part around the root element takes something. -/
theorem progresses_miscPart : Progresses miscPart := by
  intro cs first rest hpart
  unfold miscPart at hpart
  split at hpart
  · next hfound =>
    cases hpart
    obtain ⟨text, heq, htext⟩ := afterMiscPart?_eq_some hfound
    exact length_lt_of_eq_append heq htext.ne_nil
  · cases hpart

/-- Skipping what stands around the root element is a repetition that does not stall. -/
theorem repeated_miscPart {fuel : Nat} {cs : List Char} (hfuel : cs.length ≤ fuel) :
    ∃ parts, repeated miscPart cs = .ended parts (skipMisc fuel cs) := by
  induction fuel generalizing cs with
  | zero =>
    cases List.eq_nil_of_length_eq_zero (Nat.le_zero.mp hfuel)
    have hpart : miscPart [] = .error ⟨false, .character, []⟩ := rfl
    exact ⟨[], repeated_of_error hpart⟩
  | succ fuel ih =>
    rw [skipMisc]
    cases hfound : afterMiscPart? cs with
    | none =>
      have hpart : miscPart cs = .error ⟨false, .character, cs⟩ := by rw [miscPart, hfound]
      exact ⟨[], repeated_of_error hpart⟩
    | some rest =>
      have hpart : miscPart cs = .ok ((), rest) := by rw [miscPart, hfound]
      have hlength := progresses_miscPart cs () rest hpart
      have hrest : rest.length ≤ fuel := by omega
      obtain ⟨parts, hparts⟩ := ih hrest
      exact ⟨() :: parts, by rw [repeated_of_ok progresses_miscPart hpart, hparts]; rfl⟩

/-! ## Attributes -/

/-- Reads an attribute. Behind its equals sign a value must follow. -/
def attributePart (cs : List Char) : Except Failure (Attribute × List Char) :=
  match attributeName? cs with
  | none => .error ⟨false, .character, cs⟩
  | some (name, rest) =>
    match quotedValue rest with
    | .error failure => .error failure
    | .ok (value, rest) => .ok (⟨String.ofList name, String.ofList value⟩, rest)

/-- Where a value must follow, its absence is final. -/
theorem quotedValue_eq_error {cs : List Char} {failure : Failure}
    (hquoted : quotedValue cs = .error failure) : failure.final = true ∧ failure.rest <:+ cs := by
  unfold quotedValue at hquoted
  split at hquoted
  · split at hquoted
    · cases hquoted
    · cases hquoted
      exact ⟨rfl, List.suffix_rfl⟩
  · split at hquoted
    · cases hquoted
    · cases hquoted
      exact ⟨rfl, List.nil_suffix⟩
  · cases hquoted
    exact ⟨rfl, List.suffix_rfl⟩

open Repetition in
/-- Behind an attribute the others are read. -/
theorem attributes_of_ok {cs rest : List Char} {first : Attribute}
    (hpart : attributePart cs = .ok (first, rest)) (fuel : Nat) :
    ofResult (attributes (fuel + 1) cs) = (ofResult (attributes fuel rest)).cons first := by
  unfold attributePart at hpart
  split at hpart
  · cases hpart
  · next name behindSign hname =>
    split at hpart
    · cases hpart
    · next hvalue =>
      cases hpart
      rw [attributes, hname]
      simp only [hvalue]
      cases attributes fuel rest <;> rfl

open Repetition in
/-- Reading attributes ends where none begins, and fails where the failure of one is final. -/
theorem attributes_of_error {cs : List Char} {failure : Failure}
    (hpart : attributePart cs = .error failure) (fuel : Nat) :
    ofResult (attributes (fuel + 1) cs) =
      if failure.final then .failed failure else .ended [] cs := by
  unfold attributePart at hpart
  split at hpart
  · next hname =>
    cases hpart
    rw [attributes, hname]
    rfl
  · next name behindSign hname =>
    split at hpart
    · next hvalue =>
      cases hpart
      rw [attributes, hname, if_pos (quotedValue_eq_error hvalue).1]
      simp only [hvalue]
      rfl
    · cases hpart

/-- Reading an attribute takes something. -/
theorem progresses_attributePart : Progresses attributePart := by
  intro cs first rest hpart
  unfold attributePart at hpart
  split at hpart
  · cases hpart
  · next name behindSign hname =>
    split at hpart
    · cases hpart
    · next hvalue =>
      cases hpart
      obtain ⟨gap, before, behind, rfl, hne, _⟩ := attributeName?_eq_some hname
      obtain ⟨quoted, rfl, _⟩ := quotedValue_eq_ok hvalue
      have hpositive := List.length_pos_iff.mpr hne
      simp only [List.length_append, List.length_cons]
      omega

/-- Reading attributes is a repetition that does not stall. -/
theorem repeated_attributePart {fuel : Nat} {cs : List Char} (hfuel : cs.length ≤ fuel) :
    repeated attributePart cs = .ofResult (attributes fuel cs) := by
  induction fuel generalizing cs with
  | zero =>
    cases List.eq_nil_of_length_eq_zero (Nat.le_zero.mp hfuel)
    have hpart : attributePart [] = .error ⟨false, .character, []⟩ := rfl
    exact repeated_of_error hpart
  | succ fuel ih =>
    cases hpart : attributePart cs with
    | error failure =>
      rw [attributes_of_error hpart, repeated_of_error hpart]
    | ok found =>
      obtain ⟨first, rest⟩ := found
      have hlength := progresses_attributePart cs first rest hpart
      rw [attributes_of_ok hpart, repeated_of_ok progresses_attributePart hpart, ih (by omega)]

/-! ## Content -/

/-- An element is read in the same way whatever the fuel, if its content is. -/
theorem element_congr {fuel fuel' : Nat} {cs : List Char}
    (hcontent : ∀ rest, rest.length < cs.length → content fuel rest = content fuel' rest) :
    element (fuel + 1) cs = element (fuel' + 1) cs := by
  unfold element
  split
  · next inner =>
    cases hname : name? inner with
    | none => rfl
    | some found =>
      obtain ⟨name, behindName⟩ := found
      cases hitems : attributes behindName.length behindName with
      | error failure => simp only [hitems]
      | ok found =>
        obtain ⟨items, behindItems⟩ := found
        simp only [hitems]
        split
        · rfl
        · next behindTag hend =>
          obtain ⟨rfl, _⟩ := name?_eq_some hname
          obtain ⟨text, rfl, _⟩ := attributes_eq_ok hitems
          obtain ⟨gap, hgap, _⟩ := skipSpace_eq_append behindItems
          have hlength : behindTag.length < ('<' :: (name ++ (text ++ behindItems))).length := by
            rw [hgap, hend]
            simp only [List.length_cons, List.length_append]
            omega
          rw [hcontent behindTag hlength]
        · rfl
  · rfl

/-- Content is read in the same way with different fuel, if its first element is and what follows
any part of it. -/
theorem content_congr {fuel fuel' : Nat} {cs : List Char}
    (helement : element fuel cs = element fuel' cs)
    (hcontent : ∀ rest, rest.length < cs.length → content fuel rest = content fuel' rest) :
    content (fuel + 1) cs = content (fuel' + 1) cs := by
  rw [content, content, helement]
  cases hfound : element fuel' cs with
  | ok found =>
    obtain ⟨child, rest⟩ := found
    simp only [hcontent rest (length_lt_of_element hfound)]
  | error failure =>
    simp only
    split
    · rfl
    · split
      · next rest hfiller => exact hcontent rest (length_lt_of_afterFiller? hfiller)
      · rfl

/-- With enough fuel, more of it changes nothing. -/
theorem enough_fuel (cs : List Char) :
    (∀ fuel fuel', 2 * cs.length + 1 ≤ fuel → 2 * cs.length + 1 ≤ fuel' →
      element fuel cs = element fuel' cs) ∧
    (∀ fuel fuel', 2 * cs.length + 2 ≤ fuel → 2 * cs.length + 2 ≤ fuel' →
      content fuel cs = content fuel' cs) := by
  induction hlength : cs.length using Nat.strongRecOn generalizing cs with
  | ind n ih =>
    subst hlength
    have hcontent {fuel fuel' : Nat} (hfuel : 2 * cs.length ≤ fuel)
        (hfuel' : 2 * cs.length ≤ fuel') :
        ∀ rest : List Char, rest.length < cs.length → content fuel rest = content fuel' rest :=
      fun rest hrest => (ih rest.length hrest rest rfl).2 fuel fuel' (by omega) (by omega)
    have helement (fuel fuel' : Nat) (hfuel : 2 * cs.length + 1 ≤ fuel)
        (hfuel' : 2 * cs.length + 1 ≤ fuel') : element fuel cs = element fuel' cs := by
      cases fuel with
      | zero => omega
      | succ fuel =>
        cases fuel' with
        | zero => omega
        | succ fuel' => exact element_congr (hcontent (by omega) (by omega))
    refine ⟨helement, fun fuel fuel' hfuel hfuel' => ?_⟩
    cases fuel with
    | zero => omega
    | succ fuel =>
      cases fuel' with
      | zero => omega
      | succ fuel' =>
        exact content_congr (helement fuel fuel' (by omega) (by omega))
          (hcontent (by omega) (by omega))

/-- Reads a part of an element's content: a child, or something that holds none. -/
def contentPart (cs : List Char) : Except Failure (Option Element × List Char) :=
  match readElement cs with
  | .ok (child, rest) => .ok (some child, rest)
  | .error failure =>
    if failure.final then .error failure
    else
      match afterFiller? cs with
      | some rest => .ok (none, rest)
      | none => .error failure

/-- Reading a part of the content takes something. -/
theorem progresses_contentPart : Progresses contentPart := by
  intro cs first rest hpart
  unfold contentPart at hpart
  split at hpart
  · next hfound =>
    cases hpart
    exact length_lt_of_element hfound
  · split at hpart
    · cases hpart
    · split at hpart
      · next hfiller =>
        cases hpart
        exact length_lt_of_afterFiller? hfiller
      · cases hpart

open Repetition in
/-- Behind a part of the content the rest of it is read. -/
theorem content_of_ok {fuel : Nat} {cs rest : List Char} {first : Option Element}
    (helement : element fuel cs = readElement cs) (hpart : contentPart cs = .ok (first, rest)) :
    ofResult (content (fuel + 1) cs) =
      first.elim (ofResult (content fuel rest)) (ofResult (content fuel rest)).cons := by
  rw [content, helement]
  revert hpart
  rw [contentPart]
  cases readElement cs with
  | ok found =>
    obtain ⟨child, behindChild⟩ := found
    intro hpart
    cases hpart
    dsimp only
    cases content fuel rest <;> rfl
  | error failure =>
    dsimp only
    intro hpart
    split at hpart
    · cases hpart
    · next hfinal =>
      rw [if_neg hfinal]
      cases hfiller : afterFiller? cs with
      | some behind =>
        rw [hfiller] at hpart
        cases hpart
        rfl
      | none =>
        rw [hfiller] at hpart
        cases hpart

open Repetition in
/-- Reading content ends where no part of it begins, and fails where the failure of one is final. -/
theorem content_of_error {fuel : Nat} {cs : List Char} {failure : Failure}
    (helement : element fuel cs = readElement cs) (hpart : contentPart cs = .error failure) :
    ofResult (content (fuel + 1) cs) =
      if failure.final then .failed failure else .ended [] cs := by
  rw [content, helement]
  revert hpart
  rw [contentPart]
  cases readElement cs with
  | ok found =>
    intro hpart
    cases hpart
  | error broken =>
    dsimp only
    intro hpart
    split at hpart
    · next hfinal =>
      cases hpart
      rw [if_pos hfinal, if_pos hfinal]
      rfl
    · next hfinal =>
      rw [if_neg hfinal]
      cases hfiller : afterFiller? cs with
      | some behind =>
        rw [hfiller] at hpart
        cases hpart
      | none =>
        rw [hfiller] at hpart
        cases hpart
        rw [if_neg hfinal]
        rfl

/-- Reading the content of an element is a repetition that does not stall. -/
theorem repeated_contentPart {fuel : Nat} {cs : List Char} (hfuel : 2 * cs.length + 2 ≤ fuel) :
    (repeated contentPart cs).kept = .ofResult (content fuel cs) := by
  induction fuel generalizing cs with
  | zero => omega
  | succ fuel ih =>
    have helement : element fuel cs = readElement cs :=
      (enough_fuel cs).1 _ _ (by omega) (by omega)
    cases hpart : contentPart cs with
    | error failure =>
      rw [content_of_error helement hpart, repeated_of_error hpart]
      split <;> rfl
    | ok found =>
      obtain ⟨first, rest⟩ := found
      have hlength := progresses_contentPart cs first rest hpart
      have hrest : 2 * rest.length + 2 ≤ fuel := by omega
      rw [content_of_ok helement hpart, repeated_of_ok progresses_contentPart hpart, ← ih hrest]
      cases first <;> cases repeated contentPart rest <;> rfl

end BehaviorTree.Markup
