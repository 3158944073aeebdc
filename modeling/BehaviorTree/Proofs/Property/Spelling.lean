import BehaviorTree.Document.Load
import BehaviorTree.Proofs.Text.Uppercase

/-!
# Spellings of one name

The canonical spelling of a name is put together from the canonical spellings of its words, holds no
separator and is its own canonical spelling. So attributes that spell one name with hyphens, with
underscores or in Pascal case set the same property. The one exception is `name`, which sets none
(`Property.normalizes_spellings`).
-/

namespace BehaviorTree

namespace Property

/-! ## Joined words -/

/-- The separators are the hyphen and the underscore. -/
theorem isSeparator_iff {c : Char} : isSeparator c = true ↔ c = '-' ∨ c = '_' := by
  simp [isSeparator]

/-- A separator ends a word, and the next character begins one. -/
theorem joinWords_append_cons {separator : Char} (hseparator : isSeparator separator = true)
    (atStart : Bool) (name rest : List Char) :
    joinWords atStart (name ++ separator :: rest) =
      joinWords atStart name ++ joinWords true rest := by
  fun_induction joinWords atStart name with
  | case1 => simp [joinWords, hseparator]
  | case2 atStart c name hc ih => simpa [joinWords, hc] using ih
  | case3 c name hc ih => simpa [joinWords, hc] using ih
  | case4 atStart c name hc hstart ih => simpa [joinWords, hc, hstart] using ih

/-- The tables map no character to a separator. -/
theorem separators_not_mem_uppercaseCodes :
    '-'.toNat ∉ Text.uppercaseCodes ∧ '_'.toNat ∉ Text.uppercaseCodes := by decide +kernel

/-- No upper case form holds a separator but that of the separator itself. -/
theorem isSeparator_of_mem_uppercase {c d : Char} (hc : isSeparator c = false)
    (hmem : d ∈ Text.uppercase c) : isSeparator d = false := by
  obtain ⟨rfl, -⟩ | himage := Text.mem_uppercase hmem
  · exact hc
  · refine Bool.eq_false_iff.mpr fun hd => ?_
    obtain rfl | rfl := isSeparator_iff.mp hd
    · exact separators_not_mem_uppercaseCodes.1 himage
    · exact separators_not_mem_uppercaseCodes.2 himage

/-- Separators are left out. -/
theorem isSeparator_of_mem_joinWords {atStart : Bool} {name : List Char} {d : Char}
    (hmem : d ∈ joinWords atStart name) : isSeparator d = false := by
  fun_induction joinWords atStart name with
  | case1 => cases hmem
  | case2 atStart c name hc ih => exact ih hmem
  | case3 c name hc ih =>
    obtain hmem | hmem := List.mem_append.mp hmem
    · exact isSeparator_of_mem_uppercase (Bool.eq_false_iff.mpr hc) hmem
    · exact ih hmem
  | case4 atStart c name hc hstart ih =>
    obtain rfl | hmem := List.mem_cons.mp hmem
    · exact Bool.eq_false_iff.mpr hc
    · exact ih hmem

/-- Joined words begin with a character in upper case. -/
theorem uppercase_of_joinWords_eq_cons {name rest : List Char} {first : Char}
    (hjoined : joinWords true name = first :: rest) : Text.uppercase first = [first] := by
  induction name with
  | nil => cases hjoined
  | cons c name ih =>
    rw [joinWords] at hjoined
    split at hjoined
    · exact ih hjoined
    · rw [if_pos rfl] at hjoined
      obtain ⟨d, form, hform⟩ := List.exists_cons_of_ne_nil (Text.uppercase_ne_nil c)
      rw [hform, List.cons_append] at hjoined
      cases (List.cons.inj hjoined).1
      exact Text.uppercase_of_mem_uppercase (hform ▸ List.mem_cons_self)

/-- What follows the first character of a word without separators stays as it is. -/
theorem joinWords_false_eq_self {name : List Char} (hname : ∀ c ∈ name, isSeparator c = false) :
    joinWords false name = name := by
  induction name with
  | nil => rfl
  | cons c name ih =>
    obtain ⟨hc, hname⟩ := List.forall_mem_cons.mp hname
    simp [joinWords, hc, ih hname]

/-- Joined words are joined words already, since they hold no separator and begin in upper case. -/
theorem joinWords_joinWords (name : List Char) :
    joinWords true (joinWords true name) = joinWords true name := by
  have hseparators : ∀ c ∈ joinWords true name, isSeparator c = false :=
    fun _ => isSeparator_of_mem_joinWords
  cases hjoined : joinWords true name with
  | nil => rfl
  | cons first rest =>
    rw [hjoined] at hseparators
    obtain ⟨hfirst, hrest⟩ := List.forall_mem_cons.mp hseparators
    rw [joinWords, if_neg (Bool.eq_false_iff.mp hfirst), if_pos rfl,
      uppercase_of_joinWords_eq_cons hjoined, joinWords_false_eq_self hrest]
    rfl

/-! ## Canonical spellings -/

/-- A canonical spelling holds no separator. -/
theorem isSeparator_of_mem_pascalCase {name : String} {c : Char}
    (hmem : c ∈ (pascalCase name).toList) : isSeparator c = false := by
  rw [pascalCase, String.toList_ofList] at hmem
  exact isSeparator_of_mem_joinWords hmem

/-- A canonical spelling is its own canonical spelling. -/
theorem pascalCase_pascalCase (name : String) : pascalCase (pascalCase name) = pascalCase name := by
  simp only [pascalCase, String.toList_ofList, joinWords_joinWords]

section

variable {separator : String} {mark : Char} (hmark : separator.toList = [mark])
  (hseparator : isSeparator mark = true)

include hmark hseparator

/-- The canonical spelling of two names with a separator between them is that of the one and then
that of the other. -/
theorem pascalCase_append (name other : String) :
    pascalCase (name ++ separator ++ other) = pascalCase name ++ pascalCase other := by
  rw [pascalCase, pascalCase, pascalCase, ← String.ofList_append, String.toList_append,
    String.toList_append, hmark, List.append_assoc, List.singleton_append,
    joinWords_append_cons hseparator]

/-- The canonical spelling of words with separators between them joins those of the words. -/
theorem pascalCase_intercalate (words : List String) :
    pascalCase (separator.intercalate words) = String.join (words.map pascalCase) := by
  induction words with
  | nil => rfl
  | cons word rest ih =>
    cases rest with
    | nil => simp
    | cons next rest =>
      rw [String.intercalate_cons_cons, pascalCase_append hmark hseparator, ih,
        List.map_cons (a := word), String.join_cons]

/-- Only one word is spelled without separators. -/
theorem intercalate_eq_iff {name : String} (hname : ∀ c ∈ name.toList, isSeparator c = false)
    (hne : name ≠ "") (words : List String) :
    separator.intercalate words = name ↔ words = [name] := by
  match words with
  | [] => simp [hne.symm]
  | [word] => simp
  | word :: next :: rest =>
    refine iff_of_false ?_ (by simp)
    rintro rfl
    have hmem : mark ∈ (separator.intercalate (word :: next :: rest)).toList := by
      simp [String.intercalate_cons_cons, hmark]
    exact Bool.false_ne_true ((hname mark hmem).symm.trans hseparator)

end

/-- Separators at the beginning and in a row leave no trace. -/
example : pascalCase "-max__retries" = "MaxRetries" := by decide

/-- Canonical spellings one after the other are a canonical spelling. -/
theorem pascalCase_join (words : List String) :
    pascalCase (String.join (words.map pascalCase)) = String.join (words.map pascalCase) := by
  rw [← pascalCase_intercalate (rfl : "-".toList = ['-']) rfl, pascalCase_pascalCase]

/-- No canonical spelling is the reserved name. -/
theorem join_ne_name (words : List String) : String.join (words.map pascalCase) ≠ "name" := by
  intro hname
  have hcanonical := pascalCase_join words
  rw [hname] at hcanonical
  exact absurd hcanonical (by decide)

/-- Words with separators between them set the property that their canonical spelling sets, except
for the reserved name. -/
theorem propertyFor?_intercalate {separator : String} {mark : Char}
    (hmark : separator.toList = [mark]) (hseparator : isSeparator mark = true)
    (properties : List Property) (words : List String) (value : String) :
    Loader.propertyFor? properties ⟨separator.intercalate words, value⟩ =
      if words = ["name"] then none
      else Loader.propertyFor? properties ⟨String.join (words.map pascalCase), value⟩ := by
  have hname : ∀ c ∈ "name".toList, isSeparator c = false := by simp [isSeparator]
  have hreserved := intercalate_eq_iff hmark hseparator hname (by decide) words
  simp only [Loader.propertyFor?, hreserved, join_ne_name, if_false, pascalCase_join,
    pascalCase_intercalate hmark hseparator]

/-- Canonical spelling joins the canonical spellings of what a hyphen or an underscore separates. It
leaves no separators, and it changes nothing when it is done again. So words that are spelled with
hyphens, with underscores or in Pascal case set the same property, whatever properties are declared,
except that the attribute `name` sets none. -/
theorem normalizes_spellings (name other : String) (properties : List Property)
    (words : List String) (value : String) :
    pascalCase (name ++ "-" ++ other) = pascalCase name ++ pascalCase other ∧
    pascalCase (name ++ "_" ++ other) = pascalCase name ++ pascalCase other ∧
    '-' ∉ (pascalCase name).toList ∧ '_' ∉ (pascalCase name).toList ∧
    pascalCase (pascalCase name) = pascalCase name ∧
    Loader.propertyFor? properties ⟨"_".intercalate words, value⟩ =
      Loader.propertyFor? properties ⟨"-".intercalate words, value⟩ ∧
    Loader.propertyFor? properties ⟨"-".intercalate words, value⟩ =
      if words = ["name"] then none
      else Loader.propertyFor? properties ⟨String.join (words.map pascalCase), value⟩ := by
  have hkebab := propertyFor?_intercalate (rfl : "-".toList = ['-']) rfl properties words value
  have hsnake := propertyFor?_intercalate (rfl : "_".toList = ['_']) rfl properties words value
  refine ⟨pascalCase_append rfl rfl name other, pascalCase_append rfl rfl name other,
    fun hmem => ?_, fun hmem => ?_, pascalCase_pascalCase name, hsnake.trans hkebab.symm, hkebab⟩
  all_goals exact absurd (isSeparator_of_mem_pascalCase hmem) (by decide)

end Property

end BehaviorTree
