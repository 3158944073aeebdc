import BehaviorTree.Proofs.Markup.Acceptance
import BehaviorTree.Proofs.Number.Numeral

/-!
# Written elements

An element can be written in many ways: without content in either form, a value in either quotes,
and each character of a value as it stands, by its name, or by its code point. All of them are read
as the element they were written for (`reads_written`).
-/

namespace BehaviorTree

/-! ## Characters of a value -/

namespace Entity

/-- The characters that have names. -/
def names : List (String × Char) :=
  [("lt", '<'), ("gt", '>'), ("amp", '&'), ("quot", '"'), ("apos", '\'')]

/-- What may stand between an ampersand and a semicolon for a character. -/
inductive Refers : List Char → Char → Prop
  | named {name : String} {c : Char} : (name, c) ∈ names → Refers name.toList c
  | decimal {digits : List Char} {c : Char} :
      IsNumeral 10 digits c.toNat → Refers ('#' :: digits) c
  | hexadecimal {mark : Char} {digits : List Char} {c : Char} :
      mark = 'x' ∨ mark = 'X' → IsNumeral 16 digits c.toNat → Refers ('#' :: mark :: digits) c

/-- The code point of a character is read as the character. -/
theorem charAt?_toNat (c : Char) : charAt? c.toNat = some c := by
  have hvalid : c.toNat.isValidChar := c.valid
  rw [charAt?, if_pos hvalid, Char.ofNat_toNat]

/-- Digits are read in base ten unless an `x` stands before them. -/
theorem denoted?_decimal {digits : List Char} (hdigits : ∀ c ∈ digits, c ≠ 'x' ∧ c ≠ 'X') :
    denoted? ('#' :: digits) = (Number.readUnsigned? 10 digits).bind charAt? := by
  rw [denoted?]
  · rintro rest rfl
    exact (hdigits 'x' List.mem_cons_self).1 rfl
  · rintro rest rfl
    exact (hdigits 'X' List.mem_cons_self).2 rfl

/-- A reference is taken for its character. -/
theorem Refers.denoted?_eq {name : List Char} {c : Char} (hrefers : Refers name c) :
    denoted? name = some c := by
  cases hrefers with
  | named hname =>
    have hnames : ∀ entry ∈ names, denoted? entry.1.toList = some entry.2 := by decide
    exact hnames _ hname
  | @decimal digits c hnumeral =>
    have hdigits : ∀ d ∈ digits, d ≠ 'x' ∧ d ≠ 'X' := by
      intro d hd
      have hmem := hnumeral.mem_digits (by decide) d hd
      constructor <;> rintro rfl <;> exact absurd hmem (by decide)
    rw [denoted?_decimal hdigits, Number.readUnsigned?_of_isNumeral hnumeral (by decide)]
    exact charAt?_toNat c
  | @hexadecimal mark digits c hmark hnumeral =>
    have hread : (Number.readUnsigned? 16 digits).bind charAt? = some c := by
      rw [Number.readUnsigned?_of_isNumeral hnumeral (by decide)]
      exact charAt?_toNat c
    obtain rfl | rfl := hmark
    · exact hread
    · exact hread

/-- A reference is written with letters and digits, behind a number sign. -/
theorem Refers.isAlphanum {name : List Char} {c : Char} (hrefers : Refers name c) :
    ∀ d ∈ name, d = '#' ∨ d.isAlphanum = true := by
  have hdigits : ∀ d ∈ "0123456789abcdefABCDEF".toList, d.isAlphanum = true :=
    List.all_eq_true.mp (by decide)
  cases hrefers with
  | named hname =>
    have hnames : ∀ entry ∈ names, entry.1.toList.all Char.isAlphanum = true := by decide
    exact fun d hd => .inr (List.all_eq_true.mp (hnames _ hname) d hd)
  | decimal hnumeral =>
    intro d hd
    obtain rfl | hd := List.mem_cons.mp hd
    · exact .inl rfl
    · exact .inr (hdigits d (hnumeral.mem_digits (by decide) d hd))
  | hexadecimal hmark hnumeral =>
    intro d hd
    obtain rfl | hd := List.mem_cons.mp hd
    · exact .inl rfl
    · obtain rfl | hd := List.mem_cons.mp hd
      · obtain rfl | rfl := hmark <;> exact .inr (by decide)
      · exact .inr (hdigits d (hnumeral.mem_digits (by decide) d hd))

/-- A reference ends with its own semicolon and holds no quote. -/
theorem Refers.plain {name : List Char} {c : Char} (hrefers : Refers name c) :
    ∀ d ∈ name, d ∉ ['&', ';', '"', '\''] := by
  intro d hd hmark
  have halphanum := hrefers.isAlphanum d hd
  simp only [List.mem_cons, List.not_mem_nil, or_false] at hmark
  obtain rfl | rfl | rfl | rfl := hmark <;> exact absurd halphanum (by decide)

/-- The name of a reference ends at its semicolon, and its expansion takes the place of the whole
reference. -/
theorem scan_name {name : List Char} (hname : ∀ d ∈ name, d ≠ '&' ∧ d ≠ ';')
    (soFar rest : List Char) :
    scan (some soFar) (name ++ ';' :: rest) =
      expand (soFar.reverse ++ name) ++ scan none rest := by
  induction name generalizing soFar with
  | nil => rw [List.nil_append, List.append_nil, scan, if_pos rfl]
  | cons d name ih =>
    obtain ⟨hamp, hend⟩ := hname d List.mem_cons_self
    rw [List.cons_append, scan, if_neg hend, if_neg hamp,
      ih fun e he => hname e (List.mem_cons_of_mem d he), List.reverse_cons, List.append_assoc,
      List.singleton_append]

/-- A name that denotes a character is replaced by it. -/
theorem decode_denoted {name : List Char} {c : Char} (hname : ∀ d ∈ name, d ≠ '&' ∧ d ≠ ';')
    (hdenoted : denoted? name = some c) (rest : List Char) :
    decode ('&' :: (name ++ ';' :: rest)) = c :: decode rest := by
  rw [decode, scan, if_pos rfl, scan_name hname, List.reverse_nil, List.nil_append, expand,
    hdenoted]
  rfl

/-- A reference is decoded to its character, whatever follows. -/
theorem decode_reference {name : List Char} {c : Char} (hrefers : Refers name c)
    (rest : List Char) : decode ('&' :: (name ++ ';' :: rest)) = c :: decode rest := by
  refine decode_denoted (fun d hd => ?_) hrefers.denoted?_eq rest
  have hplain := hrefers.plain d hd
  constructor <;> rintro rfl <;> exact hplain (by decide)

end Entity

namespace Element

mutual

/-- All names in the element are names of the grammar. -/
def IsWellNamed : Element → Prop
  | ⟨name, attributes, children⟩ =>
    Markup.IsName name.toList ∧ (∀ found ∈ attributes, Markup.IsName found.name.toList) ∧
      AreWellNamed children

/-- All names in several elements are names of the grammar. -/
def AreWellNamed : List Element → Prop
  | [] => True
  | first :: others => first.IsWellNamed ∧ AreWellNamed others

end

end Element

namespace Markup

/-- A way to write a character of a value in these quotes. -/
inductive WritesChar (quote : Char) : List Char → Char → Prop
  | literal {c : Char} : c ≠ '&' → c ≠ quote → WritesChar quote [c] c
  | reference {name : List Char} {c : Char} :
      Entity.Refers name c → WritesChar quote ('&' :: (name ++ [';'])) c

/-- A way to write several characters, one after the other. -/
inductive WritesChars (quote : Char) : List Char → List Char → Prop
  | nil : WritesChars quote [] []
  | cons {text rest cs : List Char} {c : Char} :
      WritesChar quote text c → WritesChars quote rest cs →
      WritesChars quote (text ++ rest) (c :: cs)

/-- A way to write a value, in either quotes. -/
inductive WritesValue : List Char → String → Prop
  | mk {quote : Char} {raw : List Char} {value : String} :
      quote = '"' ∨ quote = '\'' → WritesChars quote raw value.toList →
      WritesValue (quote :: (raw ++ [quote])) value

/-- A value that is written in any way is decoded to itself. -/
theorem WritesChars.decode_eq {quote : Char} {raw value : List Char}
    (hwrites : WritesChars quote raw value) : Entity.decode raw = value := by
  induction hwrites with
  | nil => rfl
  | @cons text rest cs c htext _ ih =>
    cases htext with
    | literal hamp =>
      have hliteral : Entity.decode ([c] ++ rest) = c :: Entity.decode rest := if_neg hamp
      rw [hliteral, ih]
    | @reference name _ hrefers =>
      rw [List.cons_append, List.append_assoc, List.singleton_append,
        Entity.decode_reference hrefers, ih]

/-- A written value does not hold the quote around it. -/
theorem WritesChars.quote_not_mem {quote : Char} (hquote : quote = '"' ∨ quote = '\'')
    {raw value : List Char} (hwrites : WritesChars quote raw value) : quote ∉ raw := by
  induction hwrites with
  | nil => exact List.not_mem_nil
  | @cons text rest cs c htext _ ih =>
    rw [List.mem_append, not_or]
    refine ⟨?_, ih⟩
    cases htext with
    | literal _ hc => exact fun hmem => hc (List.mem_singleton.mp hmem).symm
    | @reference name _ hrefers =>
      have hplain : quote ∉ name := by
        intro hmem
        have hquotes := hrefers.plain quote hmem
        obtain rfl | rfl := hquote <;> exact hquotes (by decide)
      have hends : quote ≠ '&' ∧ quote ≠ ';' := by
        obtain rfl | rfl := hquote <;> decide
      simp [hplain, hends]

/-- A written value in quotes is derived by the grammar. -/
theorem WritesValue.derives {quoted : List Char} {value : String}
    (hwrites : WritesValue quoted value) : DerivesValue quoted value.toList := by
  cases hwrites with
  | mk hquote hraw =>
    have hfree := hraw.quote_not_mem hquote
    rw [← hraw.decode_eq]
    obtain rfl | rfl := hquote
    · exact .double hfree
    · exact .single hfree

/-- An ampersand and a quote can be written by their names, all else as it stands. -/
theorem exists_writesChars {quote : Char} (hquote : quote = '"' ∨ quote = '\'')
    (value : List Char) : ∃ raw, WritesChars quote raw value := by
  induction value with
  | nil => exact ⟨[], .nil⟩
  | cons c cs ih =>
    obtain ⟨rest, hrest⟩ := ih
    obtain ⟨text, htext⟩ : ∃ text, WritesChar quote text c := by
      by_cases hamp : c = '&'
      · subst hamp
        exact ⟨_, .reference (@Entity.Refers.named "amp" '&' (by decide))⟩
      · by_cases hc : c = quote
        · subst hc
          obtain rfl | rfl := hquote
          · exact ⟨_, .reference (@Entity.Refers.named "quot" '"' (by decide))⟩
          · exact ⟨_, .reference (@Entity.Refers.named "apos" '\'' (by decide))⟩
        · exact ⟨[c], .literal hamp hc⟩
    exact ⟨text ++ rest, .cons htext hrest⟩

/-! ## Elements -/

/-- A way to write an attribute. It stands behind a gap, and there may be gaps around its equals
sign. -/
inductive WritesAttribute : List Char → Attribute → Prop
  | mk {gap before behind quoted : List Char} {name value : String} :
      gap ≠ [] → IsGap gap → IsGap before → IsGap behind → WritesValue quoted value →
      WritesAttribute (gap ++ (name.toList ++ (before ++ '=' :: (behind ++ quoted))))
        ⟨name, value⟩

/-- A way to write several attributes, one after the other. -/
inductive WritesAttributes : List Char → List Attribute → Prop
  | nil : WritesAttributes [] []
  | cons {text rest : List Char} {first : Attribute} {others : List Attribute} :
      WritesAttribute text first → WritesAttributes rest others →
      WritesAttributes (text ++ rest) (first :: others)

mutual

/-- A way to write an element. One without children may be written in either form. -/
inductive WritesElement : List Char → Element → Prop
  | empty {items gap : List Char} {name : String} {attributes : List Attribute} :
      WritesAttributes items attributes → IsGap gap →
      WritesElement ('<' :: ((name.toList ++ (items ++ gap)) ++ ['/', '>'])) ⟨name, attributes, []⟩
  | full {items gap inner behind : List Char} {name : String} {attributes : List Attribute}
      {children : List Element} :
      WritesAttributes items attributes → IsGap gap → WritesElements inner children →
      IsGap behind →
      WritesElement ('<' :: ((name.toList ++ (items ++ gap)) ++ '>' ::
        (inner ++ '<' :: '/' :: (name.toList ++ (behind ++ ['>']))))) ⟨name, attributes, children⟩

/-- A way to write several elements, one after the other. -/
inductive WritesElements : List Char → List Element → Prop
  | nil : WritesElements [] []
  | cons {text rest : List Char} {first : Element} {others : List Element} :
      WritesElement text first → WritesElements rest others →
      WritesElements (text ++ rest) (first :: others)

end

/-- A written attribute is derived by the grammar, if its name is one. -/
theorem WritesAttribute.derives {text : List Char} {found : Attribute}
    (hwrites : WritesAttribute text found) (hname : IsName found.name.toList) :
    DerivesAttribute text found := by
  cases hwrites with
  | @mk gap before behind quoted name value hne hgap hbefore hbehind hvalue =>
    have hderives := DerivesAttribute.mk hne hgap hname hbefore hbehind hvalue.derives
    rwa [String.ofList_toList, String.ofList_toList] at hderives

/-- Written attributes are derived by the grammar, if their names are names. -/
theorem WritesAttributes.derives {text : List Char} {attributes : List Attribute}
    (hwrites : WritesAttributes text attributes)
    (hnames : ∀ found ∈ attributes, IsName found.name.toList) :
    DerivesAttributes text attributes := by
  induction hwrites with
  | nil => exact .nil
  | cons hfirst _ ih =>
    exact .cons (hfirst.derives (hnames _ List.mem_cons_self))
      (ih fun found hfound => hnames found (List.mem_cons_of_mem _ hfound))

mutual

/-- Whatever is written for a well-named element stands for it in the grammar. -/
theorem WritesElement.derives {text : List Char} {found : Element}
    (hwrites : WritesElement text found) (hnamed : found.IsWellNamed) :
    DerivesElement text found := by
  cases hwrites with
  | @empty items gap name attributes hitems hgap =>
    have hderives :=
      DerivesElement.empty (.mk hnamed.1 (hitems.derives hnamed.2.1) hgap)
    rwa [String.ofList_toList] at hderives
  | @full items gap inner behind name attributes children hitems hgap hinner hbehind =>
    have hderives := DerivesElement.full (.mk hnamed.1 (hitems.derives hnamed.2.1) hgap)
      (hinner.derives hnamed.2.2) hbehind
    rwa [String.ofList_toList] at hderives

/-- Written elements are derived by the grammar as content, if their names are names. -/
theorem WritesElements.derives {text : List Char} {children : List Element}
    (hwrites : WritesElements text children) (hnamed : Element.AreWellNamed children) :
    DerivesContent text children := by
  cases hwrites with
  | nil => exact .nil
  | cons hfirst hothers => exact .element (hfirst.derives hnamed.1) (hothers.derives hnamed.2)

end

/-- A gap may be empty. -/
theorem isGap_nil : IsGap [] := fun _ hmem => absurd hmem List.not_mem_nil

/-- A space is a gap. -/
theorem isGap_space : IsGap [' '] := fun c hc => by
  rw [List.mem_singleton.mp hc]
  exact List.mem_cons_self

/-- All attributes can be written. -/
theorem exists_writesAttributes (attributes : List Attribute) :
    ∃ text, WritesAttributes text attributes := by
  induction attributes with
  | nil => exact ⟨[], .nil⟩
  | cons first others ih =>
    obtain ⟨rest, hrest⟩ := ih
    obtain ⟨raw, hraw⟩ := exists_writesChars (.inl rfl) first.value.toList
    have hvalue : WritesValue _ first.value := .mk (.inl rfl) hraw
    exact ⟨_, .cons (.mk (List.cons_ne_nil _ _) isGap_space isGap_nil isGap_nil hvalue) hrest⟩

mutual

/-- Every element can be written. -/
theorem exists_writesElement : (written : Element) → ∃ text, WritesElement text written
  | ⟨_, attributes, children⟩ => by
    obtain ⟨items, hitems⟩ := exists_writesAttributes attributes
    obtain ⟨inner, hinner⟩ := exists_writesElements children
    exact ⟨_, .full hitems isGap_nil hinner isGap_nil⟩

/-- All elements can be written one after the other. -/
theorem exists_writesElements : (written : List Element) → ∃ text, WritesElements text written
  | [] => ⟨[], .nil⟩
  | first :: others => by
    obtain ⟨text, htext⟩ := exists_writesElement first
    obtain ⟨rest, hrest⟩ := exists_writesElements others
    exact ⟨text ++ rest, .cons htext hrest⟩

end

/-- An element with names of the grammar can be written, and however it is written, it is read back
as a document: nothing is left over, and the root is the element. -/
theorem reads_written {written : Element} (hnamed : written.IsWellNamed) :
    (∃ text, WritesElement text written) ∧
      ∀ text, WritesElement text written → parse text = .ok (written, []) ∧
        Loader.parseDocument (String.ofList text) = .ok written := by
  refine ⟨exists_writesElement written, fun text hwrites => ?_⟩
  have hdocument : DerivesDocument text written := by
    have hderives := DerivesDocument.mk (.inl rfl) .nil (hwrites.derives hnamed) .nil
    rwa [List.append_nil] at hderives
  have hparse := parse_eq_ok_nil_iff.mpr hdocument
  refine ⟨hparse, parseDocument_eq_ok_iff.mpr ?_⟩
  rwa [String.toList_ofList]

/-- An element with a value that looks like a reference and holds a quote. -/
def nestedReference : Element := ⟨"a", [⟨"k", "&lt;\""⟩], [⟨"b", [], []⟩]⟩

/-- The ampersand is written by its code point, with zeros before it, and the rest of the value as
it stands. -/
theorem writes_nestedReference :
    WritesElement "<a k='&#x00026;lt;\"'><b/></a>".toList nestedReference := by
  have hzero : IsDigitOf 16 '0' 0 := ⟨by decide, .inl rfl⟩
  have htwo : IsDigitOf 16 '2' 2 := ⟨by decide, .inl rfl⟩
  have hsix : IsDigitOf 16 '6' 6 := ⟨by decide, .inl rfl⟩
  have hcode : IsNumeral 16 "00026".toList '&'.toNat :=
    .more (.more (.more (.more (.digit hzero) hzero) hzero) htwo) hsix
  have hliteral : ∀ c, c ≠ '&' → c ≠ '\'' → WritesChar '\'' [c] c := fun _ => .literal
  have hraw : WritesChars '\'' "&#x00026;lt;\"".toList "&lt;\"".toList :=
    .cons (.reference (.hexadecimal (.inl rfl) hcode)) <|
      .cons (hliteral 'l' (by decide) (by decide)) <|
      .cons (hliteral 't' (by decide) (by decide)) <|
      .cons (hliteral ';' (by decide) (by decide)) <|
      .cons (hliteral '"' (by decide) (by decide)) .nil
  have hitem := @WritesAttribute.mk [' '] [] [] _ "k" _ (List.cons_ne_nil _ _) isGap_space isGap_nil
    isGap_nil (.mk (.inr rfl) hraw)
  have hchild := @WritesElement.empty [] [] "b" [] .nil isGap_nil
  exact @WritesElement.full _ [] _ [] "a" _ _ (.cons hitem .nil) isGap_nil (.cons hchild .nil)
    isGap_nil

/-- An element whose value looks like a reference is read back, written with a reference for its
ampersand. -/
theorem reads_written_nestedReference :
    nestedReference.IsWellNamed ∧
      WritesElement "<a k='&#x00026;lt;\"'><b/></a>".toList nestedReference ∧
      parse "<a k='&#x00026;lt;\"'><b/></a>".toList = .ok (nestedReference, []) := by
  have hname : ∀ c, 'a' ≤ c ∧ c ≤ 'z' → IsName [c] := fun c hc => ⟨.inl (.inl hc), nofun⟩
  have hnamed : nestedReference.IsWellNamed := by
    refine ⟨hname 'a' (by decide), ?_, ⟨hname 'b' (by decide), nofun, trivial⟩, trivial⟩
    intro found hfound
    rw [List.mem_singleton.mp hfound]
    exact hname 'k' (by decide)
  exact ⟨hnamed, writes_nestedReference, ((reads_written hnamed).2 _ writes_nestedReference).1⟩

end Markup

end BehaviorTree
