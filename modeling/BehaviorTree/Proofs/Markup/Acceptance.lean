import BehaviorTree.Document.Load
import BehaviorTree.Proofs.Markup.Scanning

/-!
# What is read

Reading and the grammar agree. What is read off a text stands for the element that is read
(`derives_of_element_eq_ok`), and whatever stands for an element is read off any text that begins
with it, however the grammar divides it into gaps and runs of text (`element_append`). Together the
two say that a document is accepted exactly if the grammar derives it (`reads_iff_derives`).
-/

namespace BehaviorTree.Markup

/-! ## Attributes -/

/-- What is read as the beginning of an attribute consists of a gap, a name, and an equals sign that
may have gaps around it. -/
theorem attributeName?_eq_some {cs name rest : List Char}
    (hname : attributeName? cs = some (name, rest)) :
    ∃ gap before behind, cs = gap ++ (name ++ (before ++ '=' :: (behind ++ rest))) ∧
      gap ≠ [] ∧ IsGap gap ∧ IsName name ∧ IsGap before ∧ IsGap behind := by
  unfold attributeName? at hname
  split at hname
  · cases hname
  · next found behindName hfound =>
    obtain ⟨afterGap, hspace, hread⟩ := Option.bind_eq_some_iff.mp hfound
    obtain ⟨gap, rfl, hne, hgap⟩ := afterSpace?_eq_some hspace
    obtain ⟨rfl, hisName⟩ := name?_eq_some hread
    obtain ⟨before, hbehindName, hbefore⟩ := skipSpace_eq_append behindName
    split at hname
    · next behindSign hsign =>
      cases hname
      obtain ⟨behind, hbehindSign, hbehind⟩ := skipSpace_eq_append behindSign
      refine ⟨gap, before, behind, ?_, hne, hgap, hisName, hbefore, hbehind⟩
      rw [← hbehindSign, ← hsign, ← hbehindName]
    · cases hname

/-- Attributes that are read are derived by the text that is taken off. -/
theorem attributes_eq_ok {fuel : Nat} {cs rest : List Char} {found : List Attribute}
    (hfound : attributes fuel cs = .ok (found, rest)) :
    ∃ text, cs = text ++ rest ∧ DerivesAttributes text found := by
  induction fuel generalizing cs found with
  | zero =>
    cases hfound
    exact ⟨[], rfl, .nil⟩
  | succ fuel ih =>
    unfold attributes at hfound
    split at hfound
    · cases hfound
      exact ⟨[], rfl, .nil⟩
    · next name behindSign hname =>
      split at hfound
      · cases hfound
      · next value behindValue hvalue =>
        split at hfound
        · cases hfound
        · next others _ hothers =>
          cases hfound
          obtain ⟨gap, before, behind, rfl, hne, hgap, hisName, hbefore, hbehind⟩ :=
            attributeName?_eq_some hname
          obtain ⟨quoted, rfl, hquoted⟩ := quotedValue_eq_ok hvalue
          obtain ⟨text, rfl, htext⟩ := ih hothers
          refine ⟨_, ?_, .cons (.mk hne hgap hisName hbefore hbehind hquoted) htext⟩
          simp only [List.append_assoc, List.cons_append]

/-- Behind a name there may be a gap, and then something that does not go on with the name. -/
theorem stops_isNameChar_append {gap rest : List Char} (hgap : IsGap gap)
    (hrest : Stops isNameChar rest) : Stops isNameChar (gap ++ rest) := by
  cases gap with
  | nil => exact hrest
  | cons c gap =>
    have hc := hgap c List.mem_cons_self
    simp only [List.mem_cons, List.not_mem_nil, or_false] at hc
    rcases hc with rfl | rfl | rfl | rfl <;> rfl

/-- A quoted value begins with its quote, so no gap goes on into it. -/
theorem stops_isSpace_of_quoted {quoted value : List Char} (hvalue : DerivesValue quoted value)
    (rest : List Char) : Stops isSpace (quoted ++ rest) := by
  obtain ⟨c, inner, rfl, hc⟩ := hvalue.exists_eq_cons
  exact hc

/-- A name begins with no space, so no gap goes on into it. -/
theorem IsName.stops_isSpace {name : List Char} (hname : IsName name) (rest : List Char) :
    Stops isSpace (name ++ rest) := by
  obtain ⟨c, inner, rfl, _, hc⟩ := hname.exists_eq_cons
  exact hc

/-- The beginning of an attribute that is written in any way is read, up to its value. -/
theorem attributeName?_append {gap name before behind quoted value : List Char}
    (hne : gap ≠ []) (hgap : IsGap gap) (hname : IsName name) (hbefore : IsGap before)
    (hbehind : IsGap behind) (hvalue : DerivesValue quoted value) (rest : List Char) :
    attributeName? (gap ++ (name ++ (before ++ '=' :: (behind ++ (quoted ++ rest))))) =
      some (name, quoted ++ rest) := by
  have hread : (afterSpace? (gap ++ (name ++ (before ++ '=' :: (behind ++ (quoted ++ rest)))))).bind
      name? = some (name, before ++ '=' :: (behind ++ (quoted ++ rest))) := by
    rw [afterSpace?_gap_append hgap hne, Option.bind_some,
      skipSpace_of_stops (hname.stops_isSpace _)]
    exact name?_append hname (stops_isNameChar_append hbefore rfl)
  have hsign : skipSpace (before ++ '=' :: (behind ++ (quoted ++ rest))) =
      '=' :: (behind ++ (quoted ++ rest)) := by
    rw [skipSpace_gap_append hbefore]
    exact skipSpace_of_stops rfl
  rw [attributeName?, hread]
  simp only [hsign]
  rw [skipSpace_gap_append hbehind, skipSpace_of_stops (stops_isSpace_of_quoted hvalue rest)]

/-- No attribute begins where only a gap stands before the end of a tag. -/
theorem attributeName?_gap_append {gap rest : List Char} {c : Char} (hgap : IsGap gap)
    (hspace : isSpace c = false) (hstart : isNameStart c = false) :
    attributeName? (gap ++ c :: rest) = none := by
  have hread : (afterSpace? (gap ++ c :: rest)).bind name? = none := by
    by_cases hne : gap = []
    · subst hne
      rw [List.nil_append, afterSpace?_eq_none (show Stops isSpace (c :: rest) from hspace),
        Option.bind_none]
    · rw [afterSpace?_gap_append hgap hne, Option.bind_some,
        skipSpace_of_stops (show Stops isSpace (c :: rest) from hspace)]
      simp [name?, hstart]
  rw [attributeName?, hread]

/-- Attributes that are written in any way are read, if no further one begins behind them. -/
theorem attributes_append {items rest : List Char} {found : List Attribute}
    (hitems : DerivesAttributes items found) (hrest : attributeName? rest = none) {fuel : Nat}
    (hfuel : items.length ≤ fuel) : attributes fuel (items ++ rest) = .ok (found, rest) := by
  induction hitems generalizing fuel with
  | nil =>
    cases fuel with
    | zero => rfl
    | succ fuel =>
      unfold attributes
      rw [List.nil_append, hrest]
  | cons hfirst _ ih =>
    cases hfirst with
    | mk hne hgap hname hbefore hbehind hvalue =>
      have hpositive := List.length_pos_iff.mpr hne
      simp only [List.length_append, List.length_cons] at hfuel
      cases fuel with
      | zero => omega
      | succ fuel =>
        unfold attributes
        simp only [List.append_assoc, List.cons_append]
        rw [attributeName?_append hne hgap hname hbefore hbehind hvalue]
        simp only [quotedValue_append hvalue]
        rw [ih (by omega)]

/-! ## Elements that are read are derived -/

/-- What is read as a closing tag is one, with a gap after its name at most. -/
theorem closingTag_eq_ok {name cs rest : List Char} (hclosing : closingTag name cs = .ok rest) :
    ∃ gap, cs = '<' :: '/' :: (name ++ (gap ++ '>' :: rest)) ∧ IsGap gap := by
  unfold closingTag at hclosing
  split at hclosing
  · cases hclosing
  · next behindMark hmark =>
    split at hclosing
    · cases hclosing
    · next closed behindName hname =>
      split at hclosing
      · cases hclosing
      · next hsame =>
        have hsame := Decidable.not_not.mp hsame
        split at hclosing
        · next hend =>
          cases hclosing
          obtain ⟨gap, hgap, hisGap⟩ := skipSpace_eq_append behindName
          rw [hend] at hgap
          refine ⟨gap, ?_, hisGap⟩
          rw [after?_eq_some_iff.mp hmark, (name?_eq_some hname).1, hsame, hgap]
          rfl
        · cases hclosing

mutual

/-- An element that is read is derived by the text that is taken off. -/
theorem derives_of_element_eq_ok {fuel : Nat} {cs rest : List Char} {found : Element}
    (hfound : element fuel cs = .ok (found, rest)) :
    ∃ text, cs = text ++ rest ∧ DerivesElement text found := by
  cases fuel with
  | zero => cases hfound
  | succ fuel =>
    unfold element at hfound
    split at hfound
    · next behindBracket =>
      split at hfound
      · cases hfound
      · next name behindName hname =>
        obtain ⟨rfl, hisName⟩ := name?_eq_some hname
        split at hfound
        · cases hfound
        · next items behindItems hitems =>
          obtain ⟨text, rfl, htext⟩ := attributes_eq_ok hitems
          obtain ⟨gap, hgap, hisGap⟩ := skipSpace_eq_append behindItems
          have hhead := DerivesHead.mk hisName htext hisGap
          split at hfound
          · next hend =>
            cases hfound
            refine ⟨_, ?_, .empty hhead⟩
            rw [hgap, hend]
            simp only [List.append_assoc, List.cons_append, List.nil_append]
          · next behindTag hend =>
            split at hfound
            · cases hfound
            · next children behindContent hcontent =>
              split at hfound
              · cases hfound
              · next hclosing =>
                cases hfound
                obtain ⟨inner, rfl, hinner⟩ := derives_of_content_eq_ok hcontent
                obtain ⟨gap', rfl, hisGap'⟩ := closingTag_eq_ok hclosing
                refine ⟨_, ?_, .full hhead hinner hisGap'⟩
                rw [hgap, hend]
                simp only [List.append_assoc, List.cons_append, List.nil_append]
          · cases hfound
    · cases hfound

/-- Content that is read is derived by the text that is taken off. -/
theorem derives_of_content_eq_ok {fuel : Nat} {cs rest : List Char} {found : List Element}
    (hfound : content fuel cs = .ok (found, rest)) :
    ∃ text, cs = text ++ rest ∧ DerivesContent text found := by
  cases fuel with
  | zero =>
    cases hfound
    exact ⟨[], rfl, .nil⟩
  | succ fuel =>
    unfold content at hfound
    split at hfound
    · next child behindChild hchild =>
      split at hfound
      · cases hfound
      · next others _ hothers =>
        cases hfound
        obtain ⟨text, rfl, htext⟩ := derives_of_element_eq_ok hchild
        obtain ⟨text', rfl, htext'⟩ := derives_of_content_eq_ok hothers
        exact ⟨text ++ text', by rw [List.append_assoc], .element htext htext'⟩
    · split at hfound
      · cases hfound
      · split at hfound
        · next behindFiller hfiller =>
          obtain ⟨text, rfl, htext⟩ := afterFiller?_eq_some hfiller
          obtain ⟨text', rfl, htext'⟩ := derives_of_content_eq_ok hfound
          exact ⟨text ++ text', by rw [List.append_assoc], .filler htext htext'⟩
        · cases hfound
          exact ⟨[], rfl, .nil⟩

end

/-! ## Elements that are derived are read -/

/-- A closing tag with the right name is read, whatever gap it holds. -/
theorem closingTag_append {name gap : List Char} (hname : IsName name) (hgap : IsGap gap)
    (rest : List Char) :
    closingTag name ('<' :: '/' :: (name ++ (gap ++ '>' :: rest))) = .ok rest := by
  have hmark : after? "</".toList ('<' :: '/' :: (name ++ (gap ++ '>' :: rest))) =
      some (name ++ (gap ++ '>' :: rest)) := after?_eq_some_iff.mpr rfl
  have hread : name? (name ++ (gap ++ '>' :: rest)) = some (name, gap ++ '>' :: rest) :=
    name?_append hname (stops_isNameChar_append hgap rfl)
  have hend : skipSpace (gap ++ '>' :: rest) = '>' :: rest := by
    rw [skipSpace_gap_append hgap]
    exact skipSpace_of_stops rfl
  simp only [closingTag, hmark, hread, hend, ne_eq, not_true_eq_false, if_false]

/-- Where no name begins behind an angle bracket, no element begins, and this is not final. -/
theorem element_of_not_isNameStart {c : Char} (hc : isNameStart c = false) (fuel : Nat)
    (rest : List Char) :
    ∃ failure, element fuel ('<' :: c :: rest) = .error failure ∧ failure.final = false := by
  cases fuel with
  | zero => exact ⟨_, rfl, rfl⟩
  | succ fuel =>
    refine ⟨⟨false, .nameStart, c :: rest⟩, ?_, rfl⟩
    simp [element, name?, hc]

/-- No element begins with another character than a bracket. -/
theorem element_of_ne {c : Char} (hc : c ≠ '<') (fuel : Nat) (rest : List Char) :
    ∃ failure, element fuel (c :: rest) = .error failure ∧ failure.final = false := by
  cases fuel with
  | zero => exact ⟨_, rfl, rfl⟩
  | succ fuel =>
    refine ⟨⟨false, .character, c :: rest⟩, ?_, rfl⟩
    unfold element
    split
    · next heq => exact absurd (List.cons.inj heq).1 hc
    · rfl

/-- Content goes on behind a part without elements. -/
theorem content_of_afterFiller? {fuel : Nat} {cs rest : List Char}
    (helement : ∃ failure, element fuel cs = .error failure ∧ failure.final = false)
    (hfiller : afterFiller? cs = some rest) : content (fuel + 1) cs = content fuel rest := by
  obtain ⟨failure, herror, hfinal⟩ := helement
  rw [content, herror]
  simp only [hfinal, Bool.false_eq_true, if_false, hfiller]

/-- Content ends where a closing tag begins. -/
theorem content_closing (fuel : Nat) (rest : List Char) :
    content fuel ('<' :: '/' :: rest) = .ok ([], '<' :: '/' :: rest) := by
  cases fuel with
  | zero => rfl
  | succ fuel =>
    obtain ⟨failure, herror, hfinal⟩ := element_of_not_isNameStart (c := '/') rfl fuel rest
    have hfiller : afterFiller? ('<' :: '/' :: rest) = none := rfl
    rw [content, herror]
    simp only [hfinal, Bool.false_eq_true, if_false, hfiller]

/-- The name at the head of an opening tag is a name. -/
theorem DerivesHead.isName {head name : List Char} {found : List Attribute}
    (hhead : DerivesHead head name found) : IsName name := by
  cases hhead with
  | mk hname _ _ => exact hname

/-- An element begins with a bracket and the first character of its name. -/
theorem DerivesElement.exists_eq_cons {text : List Char} {found : Element}
    (htext : DerivesElement text found) :
    ∃ c rest, text = '<' :: c :: rest ∧ isNameStart c = true := by
  cases htext with
  | empty hhead =>
    cases hhead with
    | mk hname _ _ =>
      obtain ⟨c, inner, rfl, hc, _⟩ := hname.exists_eq_cons
      exact ⟨c, _, rfl, hc⟩
  | full hhead _ _ =>
    cases hhead with
    | mk hname _ _ =>
      obtain ⟨c, inner, rfl, hc, _⟩ := hname.exists_eq_cons
      exact ⟨c, _, rfl, hc⟩

/-- What an opening tag begins with is read as it is derived, up to the end of the tag. -/
theorem read_head {head name : List Char} {found : List Attribute}
    (hhead : DerivesHead head name found) {c : Char} (hspace : isSpace c = false)
    (hchar : isNameChar c = false) (hstart : isNameStart c = false) (rest : List Char) :
    ∃ behindName behindItems, name? (head ++ c :: rest) = some (name, behindName) ∧
      attributes behindName.length behindName = .ok (found, behindItems) ∧
      skipSpace behindItems = c :: rest := by
  cases hhead with
  | @mk _ items gap _ hname hitems hgap =>
    have hend : attributeName? (gap ++ c :: rest) = none :=
      attributeName?_gap_append hgap hspace hstart
    refine ⟨items ++ (gap ++ c :: rest), gap ++ c :: rest, ?_, ?_, ?_⟩
    · rw [List.append_assoc, List.append_assoc]
      refine name?_append hname ?_
      cases hitems with
      | nil =>
        have hrest : Stops isNameChar (c :: rest) := hchar
        have hstops : Stops isNameChar (gap ++ c :: rest) := stops_isNameChar_append hgap hrest
        exact hstops
      | cons hfirst _ =>
        cases hfirst with
        | @mk gap' _ _ _ _ _ hne hgap' _ _ _ _ =>
          cases gap' with
          | nil => exact absurd rfl hne
          | cons d gap' =>
            have hd : IsGap [d] := fun e he => by
              rw [List.mem_singleton.mp he]
              exact hgap' d List.mem_cons_self
            have hstops : Stops isNameChar ([d] ++ []) := stops_isNameChar_append hd trivial
            exact hstops
    · exact attributes_append hitems hend (by simp)
    · rw [skipSpace_gap_append hgap]
      exact skipSpace_of_stops hspace

mutual

/-- What stands for an element is read off any text that begins with it. -/
theorem element_append {text : List Char} {found : Element} (htext : DerivesElement text found)
    {fuel : Nat} (hfuel : 2 * text.length ≤ fuel) (rest : List Char) :
    element fuel (text ++ rest) = .ok (found, rest) := by
  match htext with
  | @DerivesElement.empty head name found hhead =>
    cases fuel with
    | zero => simp at hfuel
    | succ fuel =>
      obtain ⟨behindName, behindItems, hname, hitems, hend⟩ :=
        read_head hhead (c := '/') rfl rfl rfl ('>' :: rest)
      rw [List.cons_append, List.append_assoc, element]
      simp only [List.cons_append, List.nil_append, hname, hitems, hend]
  | @DerivesElement.full head name inner gap found children hhead hinner hgap =>
    cases fuel with
    | zero => simp at hfuel
    | succ fuel =>
      obtain ⟨behindName, behindItems, hname, hitems, hend⟩ :=
        read_head hhead (c := '>') rfl rfl rfl
          (inner ++ '<' :: '/' :: (name ++ (gap ++ '>' :: rest)))
      simp only [List.length_cons, List.length_append] at hfuel
      have hinnerFuel : 2 * inner.length + 1 ≤ fuel := by omega
      have hcontent := (content_append hinner hinnerFuel (name ++ (gap ++ '>' :: rest))).1
      simp only [List.cons_append, List.append_assoc, List.nil_append]
      rw [element]
      simp only [hname, hitems, hend, hcontent, closingTag_append hhead.isName hgap]

/-- The content of an element is read up to its closing tag, also from behind a run of text that
it begins with. -/
theorem content_append {text : List Char} {found : List Element}
    (htext : DerivesContent text found) {fuel : Nat} (hfuel : 2 * text.length + 1 ≤ fuel)
    (rest : List Char) :
    content fuel (text ++ '<' :: '/' :: rest) = .ok (found, '<' :: '/' :: rest) ∧
      content fuel (skipRun (text ++ '<' :: '/' :: rest)) = .ok (found, '<' :: '/' :: rest) := by
  match htext with
  | .nil => exact ⟨content_closing fuel rest, content_closing fuel rest⟩
  | @DerivesContent.element first others child _ hfirst hothers =>
    obtain ⟨c, inner, heq, _⟩ := hfirst.exists_eq_cons
    have hskip : skipRun (first ++ others ++ '<' :: '/' :: rest) =
        first ++ others ++ '<' :: '/' :: rest := by rw [heq]; rfl
    have hpositive : 0 < first.length := by rw [heq]; simp
    rw [List.length_append] at hfuel
    rw [hskip, and_self]
    cases fuel with
    | zero => omega
    | succ fuel =>
      have hothersFuel : 2 * others.length + 1 ≤ fuel := by omega
      rw [List.append_assoc, content, element_append hfirst (by omega)]
      simp only [(content_append hothers hothersFuel rest).1]
  | @DerivesContent.filler first others _ hfirst hothers =>
    rw [List.length_append] at hfuel
    rcases hfirst.run_or_markup with ⟨hne, hrun⟩ | ⟨c, inner, heq, hc, hmarkup⟩
    · have hpositive := List.length_pos_iff.mpr hne
      rw [List.append_assoc, skipRun_append hrun]
      refine ⟨?_, (content_append hothers (by omega) rest).2⟩
      cases fuel with
      | zero => omega
      | succ fuel =>
        have helement : ∃ failure, element fuel (first ++ (others ++ '<' :: '/' :: rest)) =
            .error failure ∧ failure.final = false := by
          cases first with
          | nil => exact absurd rfl hne
          | cons c first =>
            exact element_of_ne (fun heq => hrun (heq ▸ List.mem_cons_self)) fuel _
        rw [content_of_afterFiller? helement (afterFiller?_run_append hne hrun _)]
        exact (content_append hothers (by omega) rest).2
    · have hskip : skipRun (first ++ others ++ '<' :: '/' :: rest) =
          first ++ others ++ '<' :: '/' :: rest := by rw [heq]; rfl
      have hpositive : 0 < first.length := by rw [heq]; simp
      rw [hskip, and_self, List.append_assoc]
      cases fuel with
      | zero => omega
      | succ fuel =>
        have helement : ∃ failure, element fuel (first ++ (others ++ '<' :: '/' :: rest)) =
            .error failure ∧ failure.final = false := by
          rw [heq]
          exact element_of_not_isNameStart hc fuel _
        rw [content_of_afterFiller? helement (hmarkup _)]
        exact (content_append hothers (by omega) rest).1

end

/-! ## Around the root element -/

/-- What is skipped around the root element may stand there. -/
theorem isMisc_of_skipMisc (fuel : Nat) (cs : List Char) :
    ∃ text, cs = text ++ skipMisc fuel cs ∧ IsMisc text := by
  induction fuel generalizing cs with
  | zero => exact ⟨[], rfl, .nil⟩
  | succ fuel ih =>
    unfold skipMisc
    split
    · next behindPart hpart =>
      obtain ⟨part, rfl, hisPart⟩ := afterMiscPart?_eq_some hpart
      obtain ⟨text, hbehindPart, htext⟩ := ih behindPart
      refine ⟨part ++ text, ?_, .cons hisPart htext⟩
      rw [List.append_assoc, ← hbehindPart]
    · exact ⟨[], rfl, .nil⟩

/-- All that may stand around the root element is skipped, also from behind a gap that it begins
with. -/
theorem skipMisc_append {text rest : List Char} (htext : IsMisc text)
    (hspace : Stops isSpace rest) (hrest : afterMiscPart? rest = none) {fuel : Nat}
    (hfuel : text.length ≤ fuel) :
    skipMisc fuel (text ++ rest) = rest ∧ skipMisc fuel (skipSpace (text ++ rest)) = rest := by
  induction htext generalizing fuel with
  | nil =>
    rw [List.nil_append, skipSpace_of_stops hspace, and_self]
    cases fuel with
    | zero => rfl
    | succ fuel => rw [skipMisc, hrest]
  | @cons part others hpart _ ih =>
    rw [List.length_append] at hfuel
    rcases hpart.gap_or_markup with ⟨hne, hgap⟩ | ⟨inner, heq, hmarkup⟩
    · have hpositive := List.length_pos_iff.mpr hne
      rw [List.append_assoc, skipSpace_gap_append hgap]
      refine ⟨?_, (ih (by omega)).2⟩
      cases fuel with
      | zero => omega
      | succ fuel =>
        rw [skipMisc, afterMiscPart?_gap_append hne hgap]
        exact (ih (by omega)).2
    · have hskip : skipSpace (part ++ others ++ rest) = part ++ others ++ rest := by
        rw [heq]
        rfl
      have hpositive : 0 < part.length := by rw [heq]; simp
      rw [hskip, and_self, List.append_assoc]
      cases fuel with
      | zero => omega
      | succ fuel =>
        rw [skipMisc, hmarkup]
        exact (ih (by omega)).1

/-- What is skipped as a mark is nothing or a byte order mark. -/
theorem skipMark_eq_append (cs : List Char) :
    ∃ mark, cs = mark ++ skipMark cs ∧ (mark = [] ∨ mark = ['\ufeff']) := by
  unfold skipMark
  split
  · exact ⟨['\ufeff'], rfl, Or.inr rfl⟩
  · exact ⟨[], rfl, Or.inl rfl⟩

/-- Nothing is skipped where no byte order mark stands. -/
theorem skipMark_of_ne {c : Char} (hc : c ≠ '\ufeff') (rest : List Char) :
    skipMark (c :: rest) = c :: rest := by
  unfold skipMark
  split
  · next heq => exact absurd (List.cons.inj heq).1 hc
  · rfl

/-- Behind a byte order mark, or in its place, the document begins with something else. -/
theorem skipMark_append {mark before text rest : List Char} {root : Element}
    (hmark : mark = [] ∨ mark = ['\ufeff']) (hbefore : IsMisc before)
    (htext : DerivesElement text root) :
    skipMark (mark ++ (before ++ (text ++ rest))) = before ++ (text ++ rest) := by
  rcases hmark with rfl | rfl
  · cases hbefore with
    | nil =>
      obtain ⟨c, inner, rfl, _⟩ := htext.exists_eq_cons
      exact skipMark_of_ne (by decide) _
    | @cons part others hpart _ =>
      rcases hpart.gap_or_markup with ⟨hne, hgap⟩ | ⟨inner, rfl, _⟩
      · cases part with
        | nil => exact absurd rfl hne
        | cons c part =>
          refine skipMark_of_ne ?_ _
          rintro rfl
          exact absurd (hgap _ List.mem_cons_self) (by decide)
      · exact skipMark_of_ne (by decide) _
  · rfl

/-- An element is read exactly if the beginning of the text derives it. -/
theorem readElement_eq_ok_iff {cs rest : List Char} {found : Element} :
    readElement cs = .ok (found, rest) ↔
      ∃ text, cs = text ++ rest ∧ DerivesElement text found := by
  constructor
  · exact derives_of_element_eq_ok
  · rintro ⟨text, rfl, htext⟩
    refine element_append htext ?_ rest
    rw [List.length_append]
    omega

/-- A document whose root element is followed by nothing unknown is read to its end. -/
theorem parse_eq_ok_nil_iff {cs : List Char} {root : Element} :
    parse cs = .ok (root, []) ↔ DerivesDocument cs root := by
  constructor
  · intro hparse
    unfold parse at hparse
    simp only at hparse
    split at hparse
    · cases hparse
    · next found behindRoot hread =>
      injection hparse with hpair
      injection hpair with hroot hrest
      subst hroot
      obtain ⟨mark, hcs, hmark⟩ := skipMark_eq_append cs
      obtain ⟨before, hstart, hbefore⟩ := isMisc_of_skipMisc (skipMark cs).length (skipMark cs)
      obtain ⟨text, hbehindMisc, htext⟩ := readElement_eq_ok_iff.mp hread
      obtain ⟨after, hafter, hisMisc⟩ := isMisc_of_skipMisc behindRoot.length behindRoot
      rw [hrest, List.append_nil] at hafter
      rw [hcs, hstart, hbehindMisc, hafter]
      exact .mk hmark hbefore htext hisMisc
  · rintro ⟨hmark, hbefore, htext, hafter⟩
    rename_i mark before text after
    have hstart : skipMark (mark ++ (before ++ (text ++ after))) = before ++ (text ++ after) :=
      skipMark_append hmark hbefore htext
    have hroot : skipMisc (before ++ (text ++ after)).length (before ++ (text ++ after)) =
        text ++ after := by
      obtain ⟨c, inner, heq, hc⟩ := htext.exists_eq_cons
      refine (skipMisc_append hbefore ?_ ?_ (by simp)).1
      · rw [heq]
        rfl
      · rw [heq]
        exact afterMiscPart?_of_isNameStart hc _
    have hread : readElement (text ++ after) = .ok (root, after) :=
      readElement_eq_ok_iff.mpr ⟨text, rfl, htext⟩
    have hend : skipMisc after.length after = [] := by
      have hstops : Stops isSpace [] := trivial
      have hskip : skipMisc after.length (after ++ []) = [] :=
        (skipMisc_append hafter hstops rfl (Nat.le_refl _)).1
      rwa [List.append_nil] at hskip
    simp only [parse, hstart, hroot, hread, hend]

/-- A document is loaded as its root element exactly if the whole text is read as this element. -/
theorem parseDocument_eq_ok_iff {source : String} {root : Element} :
    Loader.parseDocument source = .ok root ↔ parse source.toList = .ok (root, []) := by
  unfold Loader.parseDocument
  simp only
  split
  · next found hparse => simp [hparse]
  · next found rest hne hparse =>
    simp only [hparse, reduceCtorEq, Except.ok.injEq, Prod.mk.injEq, false_iff, not_and]
    exact fun _ => hne
  · next failure hparse => simp [hparse]

/-- Reading accepts the grammar and nothing else: an element is read off a text exactly if the
text begins with something that stands for it, and a document is accepted, by the reader and by
the loader, exactly if it stands for its root element as a whole. -/
theorem reads_iff_derives (cs : List Char) :
    (∀ found rest, readElement cs = .ok (found, rest) ↔
      ∃ text, cs = text ++ rest ∧ DerivesElement text found) ∧
    (∀ root, parse cs = .ok (root, []) ↔ DerivesDocument cs root) ∧
    (∀ root, Loader.parseDocument (String.ofList cs) = .ok root ↔ DerivesDocument cs root) := by
  refine ⟨fun _ _ => readElement_eq_ok_iff, fun _ => parse_eq_ok_nil_iff, fun root => ?_⟩
  rw [parseDocument_eq_ok_iff, String.toList_ofList, parse_eq_ok_nil_iff]

end BehaviorTree.Markup
