import BehaviorTree.Context.Placeholder
import BehaviorTree.Proofs.Number.Numeral
import BehaviorTree.Proofs.Text.Trim

/-!
# Reading scalars back from their string forms

The string form of a truth value or an integer can come back to the blackboard as a text, and the
value itself can come from a configuration. A converting read takes both for the value. A parsing
read does so for integers but not for truth values: it knows the words `true` and `false` only,
while the string forms are written `True` and `False` (`Context.scalar_reads_back`).
-/

namespace BehaviorTree

namespace Value

/-- The truth values, and the integers of the types that typed reads convert to. -/
inductive IsScalar : Value → Prop
  | bool (value : Bool) : IsScalar (.bool value)
  | integer {type : IntegerType} {n : Int} :
      type ∈ [.int32, .int64, .uint32, .uint64, .usize] → type.holds n = true →
      IsScalar (.integer type n)

/-- A scalar as a JSON value. -/
def scalarJson? : Value → Option Json
  | .bool value => some (.bool value)
  | .integer _ n => some (.integer n)
  | _ => none

/-- A scalar is neither a text nor a JSON value. -/
theorem IsScalar.type_ne {value : Value} (hscalar : value.IsScalar) :
    ValueType.text ≠ value.type ∧ ValueType.json ≠ value.type := by
  cases hscalar <;> exact ⟨nofun, nofun⟩

/-- The string form of an integer is its decimal text, for every type but that of bytes. -/
theorem stringForm?_integer {type : IntegerType} (htype : type ≠ .uint8) (n : Int) :
    (integer type n).stringForm? = some (Number.integerText n) := by
  cases type with
  | uint8 => exact absurd rfl htype
  | _ => rfl

/-- A scalar has a string form, and as a JSON value it has the same one. -/
theorem IsScalar.exists_forms {value : Value} (hscalar : value.IsScalar) :
    ∃ form json, value.stringForm? = some form ∧ value.scalarJson? = some json ∧
      jsonForm? json = some form := by
  cases hscalar with
  | bool value => exact ⟨_, _, rfl, rfl, rfl⟩
  | @integer type n htype _ =>
    have hform : (Value.integer type n).stringForm? = some (Number.integerText n) :=
      stringForm?_integer (by rintro rfl; simp at htype) n
    exact ⟨_, _, hform, rfl, rfl⟩

end Value

/-- There are no blanks in a numeral. -/
theorem IsSignedNumeral.not_blank {cs : List Char} {n : Int} (hnumeral : IsSignedNumeral cs n) :
    ∀ c ∈ cs, Text.isBlank c = false := by
  have hdigits : ("+-0123456789abcdefABCDEF".toList.all fun d => !Text.isBlank d) = true := by rfl
  intro c hc
  simpa using List.all_eq_true.mp hdigits c (hnumeral.mem_digits c hc)

/-- The decimal text of an integer has no blanks at its ends. -/
theorem Number.trim_integerText (n : Int) : Text.trim (integerText n) = integerText n := by
  refine Text.trim_eq_self ?_
  rw [integerText, String.toList_ofList]
  exact (isSignedNumeral_signedDigits n).not_blank

namespace ValueType

/-- The generous reading of a truth value knows the words of string forms. -/
theorem readTruth?_boolForm (value : Bool) : readTruth? (Value.boolForm value) = some value := by
  cases value <;> rfl

/-- A parsing read of a truth value does not know them. -/
theorem read?_boolForm (value : Bool) : bool.read? (Text.trim (Value.boolForm value)) = none := by
  cases value <;> rfl

/-- A type reads the decimal text of each integer that it holds as this integer. -/
theorem read?_integerForm {type : IntegerType} {n : Int} (hholds : type.holds n = true) :
    (integer type).read? (Text.trim (Number.integerText n)) = some (.integer type n) := by
  rw [Number.trim_integerText, read?, IntegerType.read?_integerText, if_pos hholds,
    Option.map_some]

variable {value held : Value} {form : String}

/-- Whatever has the string form of a scalar is converted to the scalar. -/
theorem convert?_of_form (hscalar : value.IsScalar) (hform : value.stringForm? = some form)
    (hheld : held.stringForm? = some form) : value.type.convert? held = some value := by
  unfold convert?
  rw [hheld]
  cases hscalar with
  | bool value =>
    cases hform
    exact congrArg (Option.map Value.bool) (readTruth?_boolForm value)
  | @integer type n htype hholds =>
    rw [Value.stringForm?_integer (by rintro rfl; simp at htype)] at hform
    cases hform
    exact read?_integerForm hholds

/-- The string form of a scalar is parsed as the scalar, unless it is a truth value. -/
theorem read?_of_form (hscalar : value.IsScalar) (hform : value.stringForm? = some form) :
    value.type.read? (Text.trim form) = if value.type = .bool then none else some value := by
  cases hscalar with
  | bool value =>
    cases hform
    exact read?_boolForm value
  | @integer type n htype hholds =>
    rw [Value.stringForm?_integer (by rintro rfl; simp at htype)] at hform
    cases hform
    exact read?_integerForm hholds

end ValueType

namespace Context

/-- What has been stored under a key is found there. -/
theorem get?_set_self (context : Context) (key : String) (value : Value) :
    (context.set key value).get? key = some value := by
  rw [get?_set, if_pos rfl]

/-- What is held in another type under the string form of a scalar is read as the scalar. -/
theorem reads_of_form {value held : Value} {form : String} (hscalar : value.IsScalar)
    (hform : value.stringForm? = some form) (hheld : held.stringForm? = some form)
    (htype : held.type ≠ value.type) (context : Context) (key : String) :
    (context.set key held).getAs value.type key = (value, []) ∧
      (context.set key held).getParsed? value.type key =
        if value.type = .bool then none else some value := by
  constructor
  · rw [getAs, get?_set_self]
    simp only [if_neg htype, ValueType.convert?_of_form hscalar hform hheld]
  · rw [getParsed?, get?_set_self]
    simp only [if_neg htype, hheld, Option.bind_some, ValueType.read?_of_form hscalar hform]

/-- The string form of a scalar is what reading it as a text, looking it up for a placeholder and
converting it to a text give. A converting read takes the form, held as a text, and the scalar held
as a JSON value for the scalar; a parsing read does so unless the scalar is a truth value. -/
theorem scalar_reads_back {value : Value} (hscalar : value.IsScalar) (context : Context)
    (key : String) :
    ∃ form json, value.stringForm? = some form ∧ value.scalarJson? = some json ∧
      (context.set key value).getString? key = some form ∧
      (context.set key value).lookupToken? key = some form ∧
      (context.set key value).getAs .text key = (.text form, []) ∧
      ∀ held ∈ [Value.text form, .json json],
        (context.set key held).getAs value.type key = (value, []) ∧
        (context.set key held).getParsed? value.type key =
          if value.type = .bool then none else some value := by
  obtain ⟨form, json, hform, hjson, hjsonForm⟩ := hscalar.exists_forms
  have hstring : (context.set key value).getString? key = some form := by
    rw [getString?, get?_set_self, Option.bind_some, hform]
  refine ⟨form, json, hform, hjson, hstring, ?_, ?_, ?_⟩
  · rw [lookupToken?, hstring, Option.some_or]
  · rw [getAs, get?_set_self]
    simp only [if_neg hscalar.type_ne.1.symm, ValueType.convert?, hform]
  · intro held hheld
    have hheldForm : held.stringForm? = some form ∧ held.type ≠ value.type := by
      obtain rfl | hheld := List.mem_cons.mp hheld
      · exact ⟨rfl, hscalar.type_ne.1⟩
      · cases List.mem_singleton.mp hheld
        exact ⟨hjsonForm, hscalar.type_ne.2⟩
    exact reads_of_form hscalar hform hheldForm.1 hheldForm.2 context key

/-- The greatest unsigned integer of 64 bits comes back from a JSON number. -/
theorem scalar_reads_back_greatest :
    Value.IsScalar (.integer .uint64 18446744073709551615) ∧
      (({} : Context).set "n" (.json (.integer 18446744073709551615))).getParsed?
        (.integer .uint64) "n" = some (.integer .uint64 18446744073709551615) := by
  have hscalar : Value.IsScalar (.integer .uint64 18446744073709551615) :=
    .integer (by decide) (by decide)
  obtain ⟨form, json, -, hjson, -, -, -, hreads⟩ := scalar_reads_back hscalar {} "n"
  cases hjson
  exact ⟨hscalar, (hreads _ (by simp)).2⟩

/-- The string form of a scalar is not always parsed as the scalar. -/
theorem not_scalar_parses_back :
    ¬ ∀ (value : Value) (form : String) (context : Context) (key : String), value.IsScalar →
      value.stringForm? = some form →
      (context.set key (.text form)).getParsed? value.type key = some value := by
  intro h
  have hparsed := h (.bool true) "True" {} "flag" (.bool true) rfl
  have hnone : (({} : Context).set "flag" (.text "True")).getParsed? .bool "flag" = none := by rfl
  rw [Value.type, hnone] at hparsed
  cases hparsed

end Context

end BehaviorTree
