import BehaviorTree.Proofs.Context.StringForm

/-!
# Reading integers across types

An integer on the blackboard can have any type that has string forms, be a JSON number, or be
written in a text. A typed read finds the integer itself if its type holds it, and nothing, or the
default, if not; it never finds another number. Only a minus sign in a text keeps an integer that
the type holds from being read, if the type has no negative numbers
(`Context.integer_reads_across`).
-/

namespace BehaviorTree

namespace Value

/-- An integer on the blackboard: a number of its type, a JSON number of 64 bits, or a numeral in a
text with blanks around it. -/
inductive HoldsInteger : Value → Int → Prop
  | integer {type : IntegerType} {n : Int} :
      type ≠ .uint8 → type.holds n = true → HoldsInteger (.integer type n) n
  | json {n : Int} :
      IntegerType.int64.holds n = true ∨ IntegerType.uint64.holds n = true →
      HoldsInteger (.json (.integer n)) n
  | text {before numeral after : List Char} {n : Int} :
      (∀ c ∈ before, Text.isBlank c = true) → IsSignedNumeral numeral n →
      (∀ c ∈ after, Text.isBlank c = true) →
      HoldsInteger (.text (String.ofList (before ++ (numeral ++ after)))) n

/-- A text with a minus sign. -/
def HasMinus (value : Value) : Prop := ∃ text, value = .text text ∧ '-' ∈ text.toList

/-- A value that is not a text has no minus sign in it. -/
theorem not_hasMinus {value : Value} (htype : value.type ≠ .text) : ¬ value.HasMinus := by
  rintro ⟨text, rfl, -⟩
  exact htype rfl

/-- Trimming the string form leaves a numeral. Before a number that is not negative it has a minus
sign only if the text has one. -/
theorem HoldsInteger.exists_form {held : Value} {n : Int} (hheld : held.HoldsInteger n) :
    ∃ form, held.stringForm? = some form ∧ IsSignedNumeral (Text.trim form).toList n ∧
      (0 ≤ n → ('-' ∈ (Text.trim form).toList ↔ held.HasMinus)) := by
  -- an integer that is no text has its decimal text for a string form
  have hnumber (hform : held.stringForm? = some (Number.integerText n))
      (htype : held.type ≠ .text) : ∃ form, held.stringForm? = some form ∧
        IsSignedNumeral (Text.trim form).toList n ∧
        (0 ≤ n → ('-' ∈ (Text.trim form).toList ↔ held.HasMinus)) := by
    refine ⟨_, hform, ?_⟩
    rw [Number.trim_integerText, Number.integerText, String.toList_ofList]
    exact ⟨Number.isSignedNumeral_signedDigits n, fun hn =>
      iff_of_false (Number.minus_not_mem_signedDigits hn) (not_hasMinus htype)⟩
  cases hheld with
  | integer htype _ => exact hnumber (stringForm?_integer htype n) (by rintro ⟨⟩)
  | json _ => exact hnumber rfl (by rintro ⟨⟩)
  | @text before numeral after _ hbefore hnumeral hafter =>
    refine ⟨_, rfl, ?_⟩
    rw [Text.trim, String.toList_ofList, String.toList_ofList,
      Text.trimBlanks_append hbefore hnumeral.not_blank hafter]
    refine ⟨hnumeral, fun _ => ⟨fun hmem => ⟨_, rfl, ?_⟩, ?_⟩⟩
    · rw [String.toList_ofList]
      exact List.mem_append_right _ (List.mem_append_left _ hmem)
    · rintro ⟨_, heq, hmem⟩
      cases heq
      rw [String.toList_ofList] at hmem
      have hblank : Text.isBlank '-' = false := by decide
      obtain hmem | hmem := List.mem_append.mp hmem
      · exact absurd (hbefore _ hmem) (Bool.eq_false_iff.mp hblank)
      · obtain hmem | hmem := List.mem_append.mp hmem
        · exact hmem
        · exact absurd (hafter _ hmem) (Bool.eq_false_iff.mp hblank)

/-- The trimmed string form is read by the types that hold the integer, and by no other; if it comes
from a text with a minus sign, by signed types only. -/
theorem HoldsInteger.exists_read {held : Value} {n : Int} (hheld : held.HoldsInteger n)
    (target : IntegerType) :
    ∃ form, held.stringForm? = some form ∧
      (target.holds n = true → target.isSigned = true ∨ ¬ held.HasMinus →
        target.read? (Text.trim form) = some n) ∧
      (target.holds n = false ∨ target.isSigned = false ∧ held.HasMinus →
        target.read? (Text.trim form) = none) := by
  obtain ⟨form, hform, hnumeral, hminus⟩ := hheld.exists_form
  refine ⟨form, hform, ?_⟩
  rw [target.read?_of_isSignedNumeral hnumeral]
  constructor
  · intro hholds hsign
    refine if_pos ⟨hholds, ?_⟩
    cases hsigned : target.isSigned with
    | true => exact .inl rfl
    | false =>
      have hplain := hsign.resolve_left (Bool.eq_false_iff.mp hsigned)
      exact .inr fun hmem =>
        hplain ((hminus (IntegerType.nonneg_of_holds hsigned hholds)).mp hmem)
  · rintro (hfails | ⟨hunsigned, hheldMinus⟩)
    · exact if_neg fun hread => absurd (hread.1.symm.trans hfails) nofun
    · refine if_neg ?_
      rintro ⟨hholds, hsign⟩
      have hplain := hsign.resolve_left (Bool.eq_false_iff.mp hunsigned)
      exact hplain ((hminus (IntegerType.nonneg_of_holds hunsigned hholds)).mpr hheldMinus)

end Value

namespace Context

/-- Both typed reads take the number of a value of another type from its trimmed string form. -/
theorem reads_integer {held : Value} {form : String} {target : IntegerType}
    (hform : held.stringForm? = some form) (htype : held.type ≠ .integer target)
    (context : Context) (key : String) :
    (context.set key held).getAs (.integer target) key =
        (match target.read? (Text.trim form) with
          | some n => (.integer target n, [])
          | none => (.integer target 0, [.valueNotConverted key])) ∧
      (context.set key held).getParsed? (.integer target) key =
        (target.read? (Text.trim form)).map (.integer target) := by
  constructor
  · rw [getAs, get?_set_self]
    simp only [if_neg htype, ValueType.convert?, hform, ValueType.read?, ValueType.default]
    cases target.read? (Text.trim form) <;> rfl
  · rw [getParsed?, get?_set_self]
    simp only [if_neg htype, hform, Option.bind_some, ValueType.read?]

/-- A number of the type itself is read as it stands. -/
theorem reads_own_type {held : Value} {type : ValueType} (htype : held.type = type)
    (context : Context) (key : String) :
    (context.set key held).getAs type key = (held, []) ∧
      (context.set key held).getParsed? type key = some held := by
  rw [getAs, getParsed?, get?_set_self]
  simp only [if_pos htype, and_self]

/-- An integer is read by the types that hold it, exactly, and by no other; from a text with a minus
sign it is read by signed types only. -/
theorem integer_reads_across {held : Value} {n : Int} (hheld : held.HoldsInteger n)
    (target : IntegerType) (context : Context) (key : String) :
    (target.holds n = true → target.isSigned = true ∨ ¬ held.HasMinus →
      (context.set key held).getAs (.integer target) key = (.integer target n, []) ∧
      (context.set key held).getParsed? (.integer target) key = some (.integer target n)) ∧
    (target.holds n = false ∨ target.isSigned = false ∧ held.HasMinus →
      (context.set key held).getAs (.integer target) key =
        (.integer target 0, [.valueNotConverted key]) ∧
      (context.set key held).getParsed? (.integer target) key = none) := by
  by_cases htype : held.type = .integer target
  · cases hheld with
    | json _ | text _ _ _ => cases htype
    | integer _ hholds =>
      cases htype
      refine ⟨fun _ _ => reads_own_type rfl context key, ?_⟩
      rintro (hfails | ⟨-, hminus⟩)
      · exact absurd (hholds.symm.trans hfails) nofun
      · exact absurd hminus (Value.not_hasMinus nofun)
  · obtain ⟨form, hform, hread, hnone⟩ := hheld.exists_read target
    obtain ⟨hconverted, hparsed⟩ := reads_integer hform htype context key
    rw [hconverted, hparsed]
    constructor
    · intro hholds hsign
      rw [hread hholds hsign]
      exact ⟨rfl, rfl⟩
    · intro hfails
      rw [hnone hfails]
      exact ⟨rfl, rfl⟩

/-- A numeral with a sign, zeros before it and blanks around it. -/
theorem integer_reads_across_text :
    (({} : Context).set "n" (.text "\t+007 ")).getAs (.integer .uint32) "n" =
      (.integer .uint32 7, []) := by
  have hzero : IsDigitOf 10 '0' 0 := ⟨by decide, .inl rfl⟩
  have hseven : IsDigitOf 10 '7' 7 := ⟨by decide, .inl rfl⟩
  have hnumeral : IsSignedNumeral ['+', '0', '0', '7'] 7 :=
    .plus (((IsNumeral.digit hzero).more hzero).more hseven)
  have hheld : Value.HoldsInteger
      (.text (String.ofList (['\t'] ++ (['+', '0', '0', '7'] ++ [' '])))) 7 :=
    .text (List.forall_mem_singleton.mpr (by decide)) hnumeral
      (List.forall_mem_singleton.mpr (by decide))
  have hminus : ¬ Value.HasMinus (.text "\t+007 ") := by
    rintro ⟨_, ⟨⟩, hmem⟩
    exact absurd hmem (by decide)
  exact ((integer_reads_across hheld .uint32 {} "n").1 (by decide) (.inr hminus)).1

end Context

end BehaviorTree
