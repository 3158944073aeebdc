import BehaviorTree.Context.Placeholder

/-!
# The placeholders of a text

A text falls into parts, each of them some plain characters and a token in braces, and a tail
without a placeholder. Substitution replaces the tokens in braces and leaves the rest alone. To
substitute in what a substitution gives is to substitute in the replacements, provided that these
close the braces that they open (`Placeholder.scan_fill`).
-/

namespace BehaviorTree

namespace Placeholder

/-- No opening brace has a closing brace after it. -/
def IsTail (cs : List Char) : Prop :=
  ∀ before after, cs = before ++ '\x7b' :: after → '\x7d' ∉ after

/-- Every opening brace has a closing brace after it. -/
def IsClosed (cs : List Char) : Prop :=
  ∀ before after, cs = before ++ '\x7b' :: after → '\x7d' ∈ after

/-- Plain characters and the token in braces that follows them. -/
structure Part where
  /-- The characters before the opening brace. -/
  plain : List Char
  /-- The characters between the braces. -/
  token : List Char
  /-- No placeholder begins among the plain characters. -/
  plain_unopened : '\x7b' ∉ plain
  /-- The token ends at the first closing brace. -/
  token_unclosed : '\x7d' ∉ token

/-- The parts of a text, one after the other, with replacements for their tokens. -/
def fillParts (lookup : String → Option String) : List Part → List Char
  | [] => []
  | part :: parts => part.plain ++ expand lookup part.token ++ fillParts lookup parts

/-- A text, cut into its placeholders and what stands between them. -/
structure Cut where
  /-- The placeholders, each with what stands before it. -/
  parts : List Part
  /-- The text after the last placeholder. -/
  tail : List Char
  /-- No placeholder is complete in the tail. -/
  isTail : IsTail tail

/-- The text with replacements for its tokens. -/
def Cut.fill (cut : Cut) (lookup : String → Option String) : List Char :=
  fillParts lookup cut.parts ++ cut.tail

/-- The text as it was before it was cut. -/
def Cut.text (cut : Cut) : List Char := cut.fill fun _ => none

/-- A token without a replacement is written back with its braces. -/
theorem expand_of_eq_none {lookup : String → Option String} {token : List Char}
    (hlookup : lookup (String.ofList token) = none) :
    expand lookup token = '\x7b' :: (token ++ ['\x7d']) := by
  rw [expand, hlookup]
  rfl

/-- A text goes on without a placeholder after a character that opens none. -/
theorem isTail_cons_iff {c : Char} {cs : List Char} :
    IsTail (c :: cs) ↔ (c = '\x7b' → '\x7d' ∉ cs) ∧ IsTail cs := by
  constructor
  · intro htail
    refine ⟨?_, fun before after hcs => htail (c :: before) after (congrArg (c :: ·) hcs)⟩
    rintro rfl
    exact htail [] cs rfl
  · rintro ⟨hfirst, hrest⟩ before after hcs
    obtain ⟨rfl, hc⟩ | ⟨inner, rfl, hinner⟩ := List.cons_eq_append_iff.mp hcs
    · obtain ⟨rfl, rfl⟩ := List.cons.inj hc
      exact hfirst rfl
    · exact hrest inner after hinner

/-- Without a closing brace there is no placeholder. -/
theorem isTail_of_unclosed {cs : List Char} (hclose : '\x7d' ∉ cs) : IsTail cs := by
  rintro before after rfl hmem
  exact hclose (by simp [hmem])

/-- Without an opening brace there is no placeholder. -/
theorem isTail_of_unopened {cs : List Char} (hopen : '\x7b' ∉ cs) : IsTail cs := by
  rintro before after rfl
  exact absurd (by simp) hopen

/-- Plain characters before a tail belong to it. -/
theorem IsTail.plain_append {plain cs : List Char} (hplain : '\x7b' ∉ plain) (htail : IsTail cs) :
    IsTail (plain ++ cs) := by
  induction plain with
  | nil => exact htail
  | cons c plain ih =>
    rw [List.mem_cons, not_or] at hplain
    exact isTail_cons_iff.mpr ⟨fun hc => absurd hc.symm hplain.1, ih hplain.2⟩

/-- Nothing is open at the end of a tail in which braces are closed. -/
theorem notMem_of_isTail {cs : List Char} (htail : IsTail cs) (hclosed : IsClosed cs) :
    '\x7b' ∉ cs := by
  intro hopen
  obtain ⟨before, after, hcs⟩ := List.append_of_mem hopen
  exact htail before after hcs (hclosed before after hcs)

/-- The end of a text that closes its braces closes its own. -/
theorem IsClosed.of_append {first second : List Char} (hclosed : IsClosed (first ++ second)) :
    IsClosed second := by
  rintro before after rfl
  exact hclosed (first ++ before) after (List.append_assoc _ _ _).symm

/-- Every text can be cut. -/
theorem exists_cut (cs : List Char) : ∃ cut : Cut, cut.text = cs := by
  by_cases hopen : '\x7b' ∈ cs
  · obtain ⟨plain, after, hcs, hplain⟩ := List.eq_append_cons_of_mem hopen
    by_cases hclose : '\x7d' ∈ after
    · obtain ⟨token, rest, hafter, htoken⟩ := List.eq_append_cons_of_mem hclose
      obtain ⟨cut, hcut⟩ := exists_cut rest
      refine ⟨⟨⟨plain, token, hplain, htoken⟩ :: cut.parts, cut.tail, cut.isTail⟩, ?_⟩
      rw [hcs, hafter, ← hcut]
      simp [Cut.text, Cut.fill, fillParts, expand]
    · -- If the first brace is not closed, neither is a later one.
      have htail : IsTail ('\x7b' :: after) :=
        isTail_cons_iff.mpr ⟨fun _ => hclose, isTail_of_unclosed hclose⟩
      exact ⟨⟨[], plain ++ '\x7b' :: after, htail.plain_append hplain⟩, hcs.symm⟩
  · exact ⟨⟨[], cs, isTail_of_unopened hopen⟩, rfl⟩
termination_by cs.length
decreasing_by
  rw [hcs, hafter]
  simp only [List.length_append, List.length_cons]
  omega

/-! ## Substitution -/

section

variable (lookup : String → Option String)

/-- Characters before the first opening brace are copied. -/
theorem scan_plain {plain : List Char} (hplain : '\x7b' ∉ plain) (rest : List Char) :
    scan lookup none (plain ++ rest) = plain ++ scan lookup none rest := by
  induction plain with
  | nil => rfl
  | cons c cs ih =>
    rw [List.mem_cons, not_or] at hplain
    obtain ⟨hc, hcs⟩ := hplain
    rw [List.cons_append, scan, if_neg (Ne.symm hc), ih hcs, List.cons_append]

/-- A token ends at the first closing brace, and its replacement takes the place of the whole
placeholder. -/
theorem scan_token (seen : List Char) {token : List Char} (htoken : '\x7d' ∉ token)
    (rest : List Char) :
    scan lookup (some seen) (token ++ '\x7d' :: rest) =
      expand lookup (seen.reverse ++ token) ++ scan lookup none rest := by
  induction token generalizing seen with
  | nil => rw [List.nil_append, scan, if_pos rfl, List.append_nil]
  | cons c cs ih =>
    rw [List.mem_cons, not_or] at htoken
    obtain ⟨hc, hcs⟩ := htoken
    rw [List.cons_append, scan, if_neg (Ne.symm hc), ih (c :: seen) hcs, List.reverse_cons,
      List.append_assoc, List.singleton_append]

/-- A token that is never closed is kept with its brace. -/
theorem scan_unclosed (seen : List Char) {cs : List Char} (hcs : '\x7d' ∉ cs) :
    scan lookup (some seen) cs = '\x7b' :: (seen.reverse ++ cs) := by
  induction cs generalizing seen with
  | nil => rw [scan, List.append_nil]
  | cons c cs ih =>
    rw [List.mem_cons, not_or] at hcs
    obtain ⟨hc, hcs⟩ := hcs
    rw [scan, if_neg (Ne.symm hc), ih (c :: seen) hcs, List.reverse_cons, List.append_assoc,
      List.singleton_append]

/-- A text without placeholders is copied. -/
theorem scan_tail {cs : List Char} (htail : IsTail cs) : scan lookup none cs = cs := by
  induction cs with
  | nil => rfl
  | cons c cs ih =>
    rw [scan]
    split
    · next hopen =>
      subst hopen
      exact scan_unclosed lookup [] ((isTail_cons_iff.mp htail).1 rfl)
    · rw [ih (isTail_cons_iff.mp htail).2]

/-- What comes after a placeholder is scanned by itself. -/
theorem scan_placeholder {token : List Char} (htoken : '\x7d' ∉ token) (rest : List Char) :
    scan lookup none ('\x7b' :: (token ++ '\x7d' :: rest)) =
      expand lookup token ++ scan lookup none rest := by
  rw [scan, if_pos rfl, scan_token lookup [] htoken]
  rfl

/-- The tokens of the parts are replaced, and what comes after them is scanned by itself. -/
theorem scan_parts (parts : List Part) (rest : List Char) :
    scan lookup none (fillParts (fun _ => none) parts ++ rest) =
      fillParts lookup parts ++ scan lookup none rest := by
  induction parts with
  | nil => rfl
  | cons part parts ih =>
    have hsplit : fillParts (fun _ => none) (part :: parts) ++ rest =
        part.plain ++ '\x7b' :: (part.token ++ '\x7d' ::
          (fillParts (fun _ => none) parts ++ rest)) := by
      simp [fillParts, expand]
    rw [hsplit, scan_plain lookup part.plain_unopened, scan_placeholder lookup part.token_unclosed,
      ih, fillParts, List.append_assoc, List.append_assoc]

/-- Substitution replaces the tokens of a text. -/
theorem scan_text (cut : Cut) : scan lookup none cut.text = cut.fill lookup := by
  rw [Cut.text, Cut.fill, scan_parts, scan_tail lookup cut.isTail, Cut.fill]

/-- A text that closes its braces has no influence on how the text after it is scanned. -/
theorem scan_append {first : List Char} (hclosed : IsClosed first) (second : List Char) :
    scan lookup none (first ++ second) = scan lookup none first ++ scan lookup none second := by
  obtain ⟨⟨parts, tail, htail⟩, rfl⟩ := exists_cut first
  have hplain : '\x7b' ∉ tail := notMem_of_isTail htail (IsClosed.of_append hclosed)
  rw [scan_text, Cut.text, Cut.fill, Cut.fill, List.append_assoc, scan_parts,
    scan_plain lookup hplain, List.append_assoc]

end

/-- What two substitutions, one after the other, put in the place of a token: what the first one
puts there, substituted by the second, or else what the second one puts there. -/
def both (inner outer : String → Option String) (token : String) : Option String :=
  match inner token with
  | some value => some (substitute outer value)
  | none => outer token

/-- Substituting in what is put in for a token gives what both substitutions put in, if that closes
its braces. -/
theorem expand_both (inner outer : String → Option String) {token : List Char}
    (htoken : '\x7d' ∉ token)
    (hclosed : ∀ value, inner (String.ofList token) = some value → IsClosed value.toList)
    (rest : List Char) :
    scan outer none (expand inner token ++ rest) =
      expand (both inner outer) token ++ scan outer none rest := by
  cases hinner : inner (String.ofList token) with
  | none =>
    have hboth : both inner outer (String.ofList token) = outer (String.ofList token) := by
      rw [both, hinner]
    rw [expand_of_eq_none hinner, List.cons_append, List.append_assoc, List.singleton_append,
      scan_placeholder outer htoken, expand, expand, hboth]
  | some value =>
    have hboth : both inner outer (String.ofList token) = some (substitute outer value) := by
      rw [both, hinner]
    have hexpand : expand inner token = value.toList := by rw [expand, hinner]
    rw [hexpand, scan_append outer (hclosed value hinner), expand, hboth, substitute]
    simp

/-- To substitute in what a substitution gives is to substitute in the replacements as well, if
these close the braces that they open. -/
theorem scan_fill (inner outer : String → Option String) (cut : Cut)
    (hclosed : ∀ part ∈ cut.parts, ∀ value, inner (String.ofList part.token) = some value →
      IsClosed value.toList) :
    scan outer none (cut.fill inner) = cut.fill (both inner outer) := by
  obtain ⟨parts, tail, htail⟩ := cut
  unfold Cut.fill
  induction parts with
  | nil => exact scan_tail outer htail
  | cons part parts ih =>
    obtain ⟨hpart, hparts⟩ := List.forall_mem_cons.mp hclosed
    simp only [fillParts, List.append_assoc] at ih ⊢
    rw [scan_plain outer part.plain_unopened, expand_both inner outer part.token_unclosed hpart,
      ih hparts]

/-- Only the replacements of the tokens in the parts matter. -/
theorem fillParts_congr {lookup other : String → Option String} {parts : List Part}
    (hsame : ∀ part ∈ parts, lookup (String.ofList part.token) = other (String.ofList part.token)) :
    fillParts lookup parts = fillParts other parts := by
  induction parts with
  | nil => rfl
  | cons part parts ih =>
    obtain ⟨hpart, hparts⟩ := List.forall_mem_cons.mp hsame
    rw [fillParts, fillParts, ih hparts, expand, expand, hpart]

/-- Only the tokens of a text matter for what replaces them. -/
theorem Cut.fill_congr {lookup other : String → Option String} {cut : Cut}
    (hsame : ∀ part ∈ cut.parts,
      lookup (String.ofList part.token) = other (String.ofList part.token)) :
    cut.fill lookup = cut.fill other := by
  rw [fill, fill, fillParts_congr hsame]

/-! ## Texts -/

/-- A substitution fills in the parts of the text. -/
theorem substitute_eq (lookup : String → Option String) {text : String} {cut : Cut}
    (hcut : cut.text = text.toList) : substitute lookup text = String.ofList (cut.fill lookup) := by
  rw [substitute, ← hcut, scan_text]

/-- A second substitution works inside the replacements of the first, if these close their
braces. -/
theorem substitute_substitute {inner outer : String → Option String} {text : String} {cut : Cut}
    (hcut : cut.text = text.toList)
    (hclosed : ∀ part ∈ cut.parts, ∀ value, inner (String.ofList part.token) = some value →
      IsClosed value.toList) :
    substitute outer (substitute inner text) = String.ofList (cut.fill (both inner outer)) := by
  rw [substitute_eq inner hcut, substitute, String.toList_ofList, scan_fill inner outer cut hclosed]

/-- A text without an opening brace stays as it is. -/
theorem substitute_of_unopened (lookup : String → Option String) {text : String}
    (hopen : '\x7b' ∉ text.toList) : substitute lookup text = text := by
  rw [substitute, scan_tail lookup (isTail_of_unopened hopen), String.ofList_toList]

/-- A token in braces. -/
def braced (token : String) : String := String.ofList ('\x7b' :: (token.toList ++ ['\x7d']))

/-- A token in braces by itself is replaced by its value. -/
theorem substitute_braced {lookup : String → Option String} {token value : String}
    (htoken : '\x7d' ∉ token.toList) (hvalue : lookup token = some value) :
    substitute lookup (braced token) = value := by
  rw [substitute, braced, String.toList_ofList, scan_placeholder lookup htoken, expand,
    String.ofList_toList, hvalue]
  simp [scan]

end Placeholder

/-! ## Two substitutions from a context -/

namespace Context

open Placeholder

variable (context : Context)

/-- What a setter that was loaded from a document makes of its text. -/
def insertThenResolve (text : String) : String :=
  context.resolvePlaceholders (context.insertValues text)

/-- Every value that a token can name closes the braces that it opens. -/
def ClosesBraces : Prop :=
  ∀ token value, context.getString? token = some value → IsClosed value.toList

/-- No value that a token can name holds a placeholder that is replaced by something else. -/
def IsStable : Prop :=
  ∀ token value, '\x7d' ∉ token.toList → context.getString? token = some value →
    context.resolvePlaceholders value = value

/-- What a token names depends on the blackboard and on nothing else of a context. -/
theorem lookupToken?_congr {context other : Context}
    (hblackboard : context.blackboard = other.blackboard) :
    context.lookupToken? = other.lookupToken? := by
  have hget : context.get? = other.get? := by
    funext key
    rw [get?, hblackboard, get?]
  have hconfig : context.configValue? = other.configValue? := by
    funext path
    rw [configValue?, config?, hget, configValue?, config?]
  funext token
  rw [lookupToken?, getString?, hget, hconfig, lookupToken?, getString?]

/-- Contexts with the same blackboard resolve placeholders in the same way. -/
theorem resolvePlaceholders_congr {context other : Context}
    (hblackboard : context.blackboard = other.blackboard) (text : String) :
    context.resolvePlaceholders text = other.resolvePlaceholders text := by
  rw [resolvePlaceholders, resolvePlaceholders, lookupToken?_congr hblackboard]

variable {context}

/-- A token that is a key with a string form has that form for its replacement. -/
theorem lookupToken?_of_getString? {token value : String}
    (hvalue : context.getString? token = some value) : context.lookupToken? token = some value := by
  rw [lookupToken?, hvalue, Option.some_or]

/-- The second substitution changes nothing in any text only if it changes none of the values that
a token can name. -/
theorem isStable_of_eq
    (hsame : ∀ text, context.insertThenResolve text = context.resolvePlaceholders text) :
    context.IsStable := by
  intro token value htoken hvalue
  have hbraced := hsame (braced token)
  rw [insertThenResolve, insertValues, substitute_braced htoken hvalue, resolvePlaceholders,
    resolvePlaceholders, substitute_braced htoken (lookupToken?_of_getString? hvalue)] at hbraced
  exact hbraced

/-- Where values close their braces, this is also enough. -/
theorem IsStable.insertThenResolve_eq (hstable : context.IsStable)
    (hclosed : context.ClosesBraces) (text : String) :
    context.insertThenResolve text = context.resolvePlaceholders text := by
  obtain ⟨cut, hcut⟩ := exists_cut text.toList
  have htwice := @substitute_substitute _ context.lookupToken? _ _ hcut fun _ _ => hclosed _
  refine htwice.trans ((congrArg String.ofList (Cut.fill_congr fun part _ => ?_)).trans
    (substitute_eq context.lookupToken? hcut).symm)
  rw [both]
  split
  · next value hvalue =>
    have htoken : '\x7d' ∉ (String.ofList part.token).toList := by simp [part.token_unclosed]
    rw [lookupToken?_of_getString? hvalue]
    exact congrArg some (hstable _ value htoken hvalue)
  · rfl

end Context

end BehaviorTree
