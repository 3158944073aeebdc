import BehaviorTree.Proofs.Markup.Progress

/-!
# Where reading stops

Reading a document comes to an end at a place in the document, whether it succeeds or fails: its
byte offset falls between two characters, and its line counts the line ends before it. An element
that has begun is read, or its failure is final, so that a broken element is never taken for
something else (`reading_stops_in_source`).
-/

namespace BehaviorTree.Markup

/-- The rest of a text from some place on. -/
structure IsPlaceIn (source rest : List Char) : Prop where
  /-- The rest is the end of the source. -/
  suffix : rest <:+ source
  /-- The offset lies within the source. -/
  offset_le : byteOffset source rest ≤ (String.ofList source).utf8ByteSize
  /-- The offset falls between two characters. -/
  boundary : (String.Pos.Raw.mk (byteOffset source rest)).IsValid (String.ofList source)
  /-- Offset and line count what stands before the place. -/
  before : ∃ before, source = before ++ rest ∧
    byteOffset source rest = (String.ofList before).utf8ByteSize ∧
    lineOf source rest = before.count '\n' + 1

/-- The rest of a text begins at a place in it. -/
theorem isPlaceIn_of_suffix {source rest : List Char} (hrest : rest <:+ source) :
    IsPlaceIn source rest := by
  obtain ⟨before, rfl⟩ := hrest
  have hoffset : byteOffset (before ++ rest) rest = (String.ofList before).utf8ByteSize := by
    rw [byteOffset, String.ofList_append, String.utf8ByteSize_append, Nat.add_sub_cancel]
  have htake : (before ++ rest).take ((before ++ rest).length - rest.length) = before := by
    rw [List.length_append, Nat.add_sub_cancel, List.take_left]
  refine ⟨⟨before, rfl⟩, Nat.sub_le _ _, ?_, before, rfl, hoffset, by rw [lineOf, htake]⟩
  refine String.Pos.Raw.isValid_ofList.mpr ⟨before.length, ?_⟩
  rw [List.take_left]
  exact hoffset

/-! ## Where parts fail -/

/-- What is left when a text has been taken off is the rest of the text. -/
theorem suffix_of_eq_append {cs text rest : List Char} (heq : cs = text ++ rest) : rest <:+ cs :=
  ⟨text, heq.symm⟩

/-- Attributes fail only where a value is missing. -/
theorem attributes_eq_error {fuel : Nat} {cs : List Char} {failure : Failure}
    (hitems : attributes fuel cs = .error failure) :
    failure.final = true ∧ failure.rest <:+ cs := by
  induction fuel generalizing cs with
  | zero => cases hitems
  | succ fuel ih =>
    unfold attributes at hitems
    split at hitems
    · cases hitems
    · next name behindSign hname =>
      obtain ⟨gap, before, behind, heq, -⟩ := attributeName?_eq_some hname
      have hsign : behindSign <:+ cs := by
        refine ⟨gap ++ (name ++ (before ++ '=' :: behind)), ?_⟩
        simp [heq]
      split at hitems
      · next hvalue =>
        cases hitems
        obtain ⟨hfinal, hrest⟩ := quotedValue_eq_error hvalue
        exact ⟨hfinal, hrest.trans hsign⟩
      · next value behindValue hvalue =>
        obtain ⟨quoted, hquoted, -⟩ := quotedValue_eq_ok hvalue
        split at hitems
        · next hothers =>
          cases hitems
          obtain ⟨hfinal, hrest⟩ := ih hothers
          exact ⟨hfinal, hrest.trans ((suffix_of_eq_append hquoted).trans hsign)⟩
        · cases hitems

/-- What is left behind a gap is the rest of the text. -/
theorem suffix_of_skipSpace (cs : List Char) : skipSpace cs <:+ cs := List.dropWhile_suffix isSpace

/-- What is left behind a name is the rest of the text. -/
theorem suffix_of_name? {cs name rest : List Char} (hname : name? cs = some (name, rest)) :
    rest <:+ cs :=
  suffix_of_eq_append (name?_eq_some hname).1

/-- What is left behind attributes is the rest of the text. -/
theorem suffix_of_attributes {fuel : Nat} {cs rest : List Char} {found : List Attribute}
    (hfound : attributes fuel cs = .ok (found, rest)) : rest <:+ cs := by
  obtain ⟨text, heq, -⟩ := attributes_eq_ok hfound
  exact suffix_of_eq_append heq

/-- What is left behind an element is the rest of the text. -/
theorem suffix_of_element {fuel : Nat} {cs rest : List Char} {found : Element}
    (hfound : element fuel cs = .ok (found, rest)) : rest <:+ cs := by
  obtain ⟨text, heq, -⟩ := derives_of_element_eq_ok hfound
  exact suffix_of_eq_append heq

/-- What is left behind content is the rest of the text. -/
theorem suffix_of_content {fuel : Nat} {cs rest : List Char} {found : List Element}
    (hfound : content fuel cs = .ok (found, rest)) : rest <:+ cs := by
  obtain ⟨text, heq, -⟩ := derives_of_content_eq_ok hfound
  exact suffix_of_eq_append heq

/-- A closing tag that is missing or does not fit is final. -/
theorem closingTag_eq_error {name cs : List Char} {failure : Failure}
    (hclosing : closingTag name cs = .error failure) :
    failure.final = true ∧ failure.rest <:+ cs := by
  unfold closingTag at hclosing
  split at hclosing
  · cases hclosing
    exact ⟨rfl, List.suffix_rfl⟩
  · next behindMark hmark =>
    have hmarkSuffix := suffix_of_eq_append (after?_eq_some_iff.mp hmark)
    split at hclosing
    · cases hclosing
      exact ⟨rfl, hmarkSuffix⟩
    · next hname =>
      split at hclosing
      · cases hclosing
        exact ⟨rfl, List.suffix_rfl⟩
      · split at hclosing
        · cases hclosing
        · cases hclosing
          exact ⟨rfl, (suffix_of_skipSpace _).trans ((suffix_of_name? hname).trans hmarkSuffix)⟩

/-- A text in which the name of an element begins. -/
def BeginsElement (cs : List Char) : Prop :=
  ∃ c rest, cs = '<' :: c :: rest ∧ (IsLetter c ∨ c ∈ ['_', ':'])

mutual

/-- An element fails at a place in the text, and for good once its name has begun. -/
theorem element_eq_error {fuel : Nat} {cs : List Char} {failure : Failure}
    (hfound : element (fuel + 1) cs = .error failure) :
    failure.rest <:+ cs ∧ (BeginsElement cs → failure.final = true) := by
  unfold element at hfound
  split at hfound
  · next inner =>
    have hinner : inner <:+ '<' :: inner := List.suffix_cons '<' inner
    split at hfound
    · next hname =>
      cases hfound
      refine ⟨hinner, ?_⟩
      rintro ⟨c, rest, heq, hc⟩
      cases heq
      rw [name?, if_pos (isNameStart_iff.mpr hc)] at hname
      cases hname
    · next name behindName hname =>
      have hbehindName := (suffix_of_name? hname).trans hinner
      split at hfound
      · next hitems =>
        cases hfound
        obtain ⟨hfinal, hrest⟩ := attributes_eq_error hitems
        exact ⟨hrest.trans hbehindName, fun _ => hfinal⟩
      · next items behindItems hitems =>
        have hbehindItems := (suffix_of_attributes hitems).trans hbehindName
        have hgap := (suffix_of_skipSpace behindItems).trans hbehindItems
        split at hfound
        · cases hfound
        · next behindTag hend =>
          rw [hend] at hgap
          have hbehindTag := (List.suffix_cons '>' behindTag).trans hgap
          split at hfound
          · next hcontent =>
            cases hfound
            obtain ⟨hfinal, hrest⟩ := content_eq_error hcontent
            exact ⟨hrest.trans hbehindTag, fun _ => hfinal⟩
          · next children behindContent hcontent =>
            split at hfound
            · next hclosing =>
              cases hfound
              obtain ⟨hfinal, hrest⟩ := closingTag_eq_error hclosing
              exact ⟨hrest.trans ((suffix_of_content hcontent).trans hbehindTag), fun _ => hfinal⟩
            · cases hfound
        · cases hfound
          exact ⟨hgap, fun _ => rfl⟩
  · next hne =>
    cases hfound
    refine ⟨List.suffix_rfl, ?_⟩
    rintro ⟨c, rest, rfl, _⟩
    exact absurd rfl (hne _)

/-- The content of an element fails only with an element in it. -/
theorem content_eq_error {fuel : Nat} {cs : List Char} {failure : Failure}
    (hfound : content fuel cs = .error failure) :
    failure.final = true ∧ failure.rest <:+ cs := by
  cases fuel with
  | zero => cases hfound
  | succ fuel =>
    unfold content at hfound
    split at hfound
    · next child behindChild hchild =>
      split at hfound
      · next hothers =>
        cases hfound
        obtain ⟨hfinal, hrest⟩ := content_eq_error hothers
        exact ⟨hfinal, hrest.trans (suffix_of_element hchild)⟩
      · cases hfound
    · next herror =>
      split at hfound
      · next hfinal =>
        cases hfound
        cases fuel with
        | zero =>
          cases herror
          exact ⟨hfinal, List.suffix_rfl⟩
        | succ fuel => exact ⟨hfinal, (element_eq_error herror).1⟩
      · split at hfound
        · next hfiller =>
          obtain ⟨text, heq, -⟩ := afterFiller?_eq_some hfiller
          obtain ⟨hfinal, hrest⟩ := content_eq_error hfound
          exact ⟨hfinal, hrest.trans (suffix_of_eq_append heq)⟩
        · cases hfound

end

/-! ## Where a document fails -/

/-- An element that has begun is read, or its failure is final. -/
theorem readElement_of_beginsElement {cs : List Char} (hbegins : BeginsElement cs) :
    (∃ found rest, readElement cs = .ok (found, rest)) ∨
      ∃ failure, readElement cs = .error failure ∧ failure.final = true := by
  cases hread : readElement cs with
  | ok result => exact .inl ⟨result.1, result.2, rfl⟩
  | error failure => exact .inr ⟨failure, rfl, (element_eq_error hread).2 hbegins⟩

/-- Reading a document stops somewhere in it. -/
theorem parse_stops (cs : List Char) :
    (∃ root rest, parse cs = .ok (root, rest) ∧ rest <:+ cs) ∨
      ∃ failure, parse cs = .error failure ∧ failure.rest <:+ cs := by
  obtain ⟨mark, hmark, -⟩ := skipMark_eq_append cs
  obtain ⟨before, hbefore, -⟩ := isMisc_of_skipMisc (skipMark cs).length (skipMark cs)
  have hstart := (suffix_of_eq_append hbefore).trans (suffix_of_eq_append hmark)
  unfold parse
  simp only
  cases hread : readElement (skipMisc (skipMark cs).length (skipMark cs)) with
  | error failure => exact .inr ⟨failure, rfl, (element_eq_error hread).1.trans hstart⟩
  | ok result =>
    obtain ⟨root, behindRoot⟩ := result
    obtain ⟨after, hafter, -⟩ := isMisc_of_skipMisc behindRoot.length behindRoot
    have hrest := (suffix_of_eq_append hafter).trans (suffix_of_element hread)
    exact .inl ⟨root, _, rfl, hrest.trans hstart⟩

/-- A document is read, or it is refused with the line of a place in it: where its root element has
been read and something else follows, or where reading failed. None of the repetitions on the way
stalls, whatever is read, and an element that has begun is read or fails for good. -/
theorem reading_stops_in_source (source : String) :
    ((∃ root, parse source.toList = .ok (root, []) ∧ Loader.parseDocument source = .ok root) ∨
      ∃ rest reason, IsPlaceIn source.toList rest ∧
        Loader.parseDocument source = .error (.malformed (lineOf source.toList rest) reason) ∧
        ((∃ root, parse source.toList = .ok (root, rest) ∧
            reason = "unexpected content after the root element") ∨
          ∃ failure, parse source.toList = .error failure ∧ failure.rest = rest ∧
            reason ∈ ["Char", "Satisfy", "Tag"])) ∧
      (∀ cs more, (∃ parts, repeated miscPart cs = .ended parts (skipMisc (cs.length + more) cs)) ∧
        repeated attributePart cs = .ofResult (attributes (cs.length + more) cs) ∧
        (repeated contentPart cs).kept = .ofResult (content (2 * cs.length + 2 + more) cs)) ∧
      ∀ cs, BeginsElement cs → (∃ found rest, readElement cs = .ok (found, rest)) ∨
        ∃ failure, readElement cs = .error failure ∧ failure.final = true := by
  refine ⟨?_, fun cs more => ⟨repeated_miscPart (by omega), repeated_attributePart (by omega),
    repeated_contentPart (by omega)⟩, fun _ => readElement_of_beginsElement⟩
  obtain ⟨root, rest, hparse, hrest⟩ | ⟨failure, hparse, hrest⟩ := parse_stops source.toList
  · cases rest with
    | nil => exact .inl ⟨root, hparse, parseDocument_eq_ok_iff.mpr hparse⟩
    | cons c rest =>
      refine .inr ⟨_, _, isPlaceIn_of_suffix hrest, ?_, .inl ⟨root, hparse, rfl⟩⟩
      simp only [Loader.parseDocument, hparse]
  · refine .inr ⟨_, failure.expected.text, isPlaceIn_of_suffix hrest, ?_,
      .inr ⟨failure, hparse, rfl, ?_⟩⟩
    · simp only [Loader.parseDocument, hparse]
    · cases failure.expected <;> decide

/-- An element that is closed by another name fails, and the failure is final. -/
theorem reading_stops_in_source_mismatched :
    BeginsElement "<a></b>".toList ∧
      ∃ failure, readElement "<a></b>".toList = .error failure ∧ failure.final = true := by
  -- as a list of characters the text is read faster
  have htext : "<a></b>".toList = ['<', 'a', '>', '<', '/', 'b', '>'] := by rfl
  rw [htext]
  have hbegins : BeginsElement ['<', 'a', '>', '<', '/', 'b', '>'] :=
    ⟨'a', _, rfl, .inl (.inl (by decide))⟩
  refine ⟨hbegins, ?_⟩
  obtain ⟨found, rest, hread⟩ | hfails := (reading_stops_in_source "<a></b>").2.2 _ hbegins
  · have herror : readElement ['<', 'a', '>', '<', '/', 'b', '>'] =
        .error ⟨true, .closingTag, ['<', '/', 'b', '>']⟩ := by rfl
    rw [herror] at hread
    cases hread
  · exact hfails

end BehaviorTree.Markup
