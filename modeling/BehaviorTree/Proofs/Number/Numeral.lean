import BehaviorTree.Number.Integer
import Mathlib.Data.List.Induction

/-!
# Numerals

A number can be written with digits in either case and with any number of leading zeros, and all
of these numerals are read as the number. One of them is the decimal text of the number, so an
integer is read back from its text by every type that holds it, and by no other
(`IntegerType.read?_integerText`).
-/

namespace BehaviorTree

/-- The digit with a value in a base up to sixteen, a letter in either case. -/
def IsDigitOf (base : Nat) (c : Char) (value : Nat) : Prop :=
  value < base ∧ (c = value.digitChar ∨ c = value.digitChar.toUpper)

/-- Digits that stand for a number. They may begin with any number of zeros. -/
inductive IsNumeral (base : Nat) : List Char → Nat → Prop
  | digit {c : Char} {value : Nat} : IsDigitOf base c value → IsNumeral base [c] value
  | more {digits : List Char} {c : Char} {number value : Nat} :
      IsNumeral base digits number → IsDigitOf base c value →
      IsNumeral base (digits ++ [c]) (number * base + value)

/-- A decimal numeral that a sign may precede. -/
inductive IsSignedNumeral : List Char → Int → Prop
  | plain {digits : List Char} {n : Nat} : IsNumeral 10 digits n → IsSignedNumeral digits n
  | plus {digits : List Char} {n : Nat} : IsNumeral 10 digits n → IsSignedNumeral ('+' :: digits) n
  | minus {digits : List Char} {n : Nat} :
      IsNumeral 10 digits n → IsSignedNumeral ('-' :: digits) (-n)

/-- The digits of every base are among those of base sixteen. -/
theorem IsDigitOf.mem_digits {base value : Nat} {c : Char} (hdigit : IsDigitOf base c value)
    (hbase : base ≤ 16) : c ∈ "0123456789abcdefABCDEF".toList := by
  have hmem : ∀ value < 16, value.digitChar ∈ "0123456789abcdefABCDEF".toList ∧
      value.digitChar.toUpper ∈ "0123456789abcdefABCDEF".toList := by decide
  obtain ⟨hvalue, rfl | rfl⟩ := hdigit
  · exact (hmem value (by omega)).1
  · exact (hmem value (by omega)).2

/-- A numeral consists of digits. -/
theorem IsNumeral.mem_digits {base number : Nat} {digits : List Char}
    (hnumeral : IsNumeral base digits number) (hbase : base ≤ 16) :
    ∀ c ∈ digits, c ∈ "0123456789abcdefABCDEF".toList := by
  induction hnumeral with
  | digit hdigit =>
    intro c hc
    rw [List.mem_singleton.mp hc]
    exact hdigit.mem_digits hbase
  | more _ hdigit ih =>
    intro c hc
    obtain hc | hc := List.mem_append.mp hc
    · exact ih c hc
    · rw [List.mem_singleton.mp hc]
      exact hdigit.mem_digits hbase

/-- There is no minus sign in an unsigned numeral. -/
theorem IsNumeral.minus_not_mem {base number : Nat} {digits : List Char}
    (hnumeral : IsNumeral base digits number) (hbase : base ≤ 16) : '-' ∉ digits :=
  fun hmem => absurd (hnumeral.mem_digits hbase '-' hmem) (by decide)

/-- A signed numeral consists of digits and signs. -/
theorem IsSignedNumeral.mem_digits {cs : List Char} {n : Int} (hnumeral : IsSignedNumeral cs n) :
    ∀ c ∈ cs, c ∈ "+-0123456789abcdefABCDEF".toList := by
  have hdigits {digits : List Char} {m : Nat} (hnumeral : IsNumeral 10 digits m) :
      ∀ c ∈ digits, c ∈ "+-0123456789abcdefABCDEF".toList := fun c hc =>
    List.mem_of_mem_drop (i := 2) (hnumeral.mem_digits (by decide) c hc)
  cases hnumeral with
  | plain hnumeral => exact hdigits hnumeral
  | plus hnumeral => exact List.forall_mem_cons.mpr ⟨by decide, hdigits hnumeral⟩
  | minus hnumeral => exact List.forall_mem_cons.mpr ⟨by decide, hdigits hnumeral⟩

/-- A numeral has at least one digit. -/
theorem IsNumeral.ne_nil {base number : Nat} {digits : List Char}
    (hnumeral : IsNumeral base digits number) : digits ≠ [] := by
  cases hnumeral <;> simp

namespace Number

/-- A digit is read as its value. -/
theorem digitValue?_of_isDigitOf {base value : Nat} {c : Char} (hdigit : IsDigitOf base c value)
    (hbase : base ≤ 16) : digitValue? base c = some value := by
  have hread : ∀ base ≤ 16, ∀ value < base, digitValue? base value.digitChar = some value ∧
      digitValue? base value.digitChar.toUpper = some value := by decide +kernel
  obtain ⟨hvalue, rfl | rfl⟩ := hdigit
  · exact (hread base hbase value hvalue).1
  · exact (hread base hbase value hvalue).2

/-- What is read as a digit is one. -/
theorem isDigitOf_of_digitValue? {base value : Nat} {c : Char}
    (hread : digitValue? base c = some value) : IsDigitOf base c value := by
  have hcode : ∀ n ≤ 'f'.toNat,
      ('0'.toNat ≤ n → n ≤ '9'.toNat → Char.ofNat n = (n - '0'.toNat).digitChar) ∧
      ('a'.toNat ≤ n → Char.ofNat n = (n - 'a'.toNat + 10).digitChar) ∧
      ('A'.toNat ≤ n → n ≤ 'F'.toNat → Char.ofNat n = (n - 'A'.toNat + 10).digitChar.toUpper) := by
    decide +kernel
  have hchar (hc : c.toNat ≤ 'f'.toNat) := hcode c.toNat hc
  rw [Char.ofNat_toNat] at hchar
  simp only [digitValue?, Option.ite_none_right_eq_some, Option.some.injEq] at hread
  obtain ⟨hlt, rfl⟩ := hread
  refine ⟨hlt, ?_⟩
  revert hlt
  split
  · next hdigit =>
    have hle : c.toNat ≤ 'f'.toNat := Nat.le_trans hdigit.2 (by decide)
    exact fun _ => .inl ((hchar hle).1 hdigit.1 hdigit.2)
  · split
    · next hletter => exact fun _ => .inl ((hchar hletter.2).2.1 hletter.1)
    · split
      · next hletter =>
        have hle : c.toNat ≤ 'f'.toNat := Nat.le_trans hletter.2 (by decide)
        exact fun _ => .inr ((hchar hle).2.2 hletter.1 hletter.2)
      · exact fun hlt => absurd hlt (Nat.lt_irrefl base)

/-- Reading one digit more multiplies what has been read by the base and adds the digit. -/
theorem readDigits_append (base soFar : Nat) (digits : List Char) (c : Char) :
    readDigits base soFar (digits ++ [c]) =
      (readDigits base soFar digits).bind fun number =>
        (digitValue? base c).map (number * base + ·) := by
  induction digits generalizing soFar with
  | nil =>
    rw [List.nil_append, readDigits, readDigits, Option.bind_some]
    cases digitValue? base c <;> rfl
  | cons d digits ih =>
    rw [List.cons_append, readDigits, readDigits]
    cases digitValue? base d with
    | none => rfl
    | some value => exact ih _

/-- Reading a number that has digits is reading its digits from zero. -/
theorem readNat?_of_ne_nil (base : Nat) {digits : List Char} (hne : digits ≠ []) :
    readNat? base digits = readDigits base 0 digits := by
  cases digits with
  | nil => exact absurd rfl hne
  | cons d digits => rfl

/-- A numeral is read as the number that it stands for. -/
theorem readNat?_of_isNumeral {base number : Nat} {digits : List Char}
    (hnumeral : IsNumeral base digits number) (hbase : base ≤ 16) :
    readNat? base digits = some number := by
  rw [readNat?_of_ne_nil base hnumeral.ne_nil]
  induction hnumeral with
  | @digit c value hdigit =>
    have hvalue : readDigits base 0 [c] = (digitValue? base c).map (0 * base + ·) :=
      readDigits_append base 0 [] c
    rw [hvalue, digitValue?_of_isDigitOf hdigit hbase, Nat.zero_mul, Option.map_some, Nat.zero_add]
  | more _ hdigit ih =>
    rw [readDigits_append, ih, digitValue?_of_isDigitOf hdigit hbase]
    rfl

/-- What is read as a number is a numeral for it. -/
theorem readNat?_eq_some_iff {base n : Nat} {digits : List Char} (hbase : base ≤ 16) :
    readNat? base digits = some n ↔ IsNumeral base digits n := by
  refine ⟨fun hread => ?_, fun hnumeral => readNat?_of_isNumeral hnumeral hbase⟩
  have hne : digits ≠ [] := by
    rintro rfl
    cases hread
  rw [readNat?_of_ne_nil base hne] at hread
  induction digits using List.reverseRecOn generalizing n with
  | nil => exact absurd rfl hne
  | append_singleton digits c ih =>
    rw [readDigits_append] at hread
    obtain ⟨number, hnumber, hlast⟩ := Option.bind_eq_some_iff.mp hread
    obtain ⟨value, hvalue, rfl⟩ := Option.map_eq_some_iff.mp hlast
    have hdigit := isDigitOf_of_digitValue? hvalue
    by_cases hnil : digits = []
    · subst hnil
      cases hnumber
      rw [Nat.zero_mul, Nat.zero_add]
      exact .digit hdigit
    · exact .more (ih hnumber hnil) hdigit

/-- A plus sign may stand before the numeral. -/
theorem readUnsigned?_eq_some_iff {base n : Nat} {cs : List Char} (hbase : base ≤ 16) :
    readUnsigned? base cs = some n ↔
      IsNumeral base cs n ∨ ∃ digits, cs = '+' :: digits ∧ IsNumeral base digits n := by
  unfold readUnsigned?
  split
  · next digits =>
    rw [readNat?_eq_some_iff hbase]
    have hplus (hnumeral : IsNumeral base ('+' :: digits) n) : False :=
      absurd (hnumeral.mem_digits hbase '+' List.mem_cons_self) (by decide)
    constructor
    · exact fun hnumeral => .inr ⟨digits, rfl, hnumeral⟩
    · rintro (hnumeral | ⟨_, heq, hnumeral⟩)
      · exact (hplus hnumeral).elim
      · cases heq
        exact hnumeral
  · next hne =>
    rw [readNat?_eq_some_iff hbase]
    exact ⟨.inl, fun h => h.resolve_right fun ⟨digits, heq, _⟩ => hne digits heq⟩

/-- A numeral without a sign is read as its number where a plus sign is allowed, too. -/
theorem readUnsigned?_of_isNumeral {base number : Nat} {digits : List Char}
    (hnumeral : IsNumeral base digits number) (hbase : base ≤ 16) :
    readUnsigned? base digits = some number :=
  (readUnsigned?_eq_some_iff hbase).mpr (.inl hnumeral)

/-- To apply a function to a number that is taken as an integer is to apply it after taking it
so. -/
theorem map_cast (number : Option Nat) (f : Int → Int) :
    (do let n ← number; pure (n : Int)).map f = number.map fun n : Nat => f n := by
  cases number <;> rfl

/-- An unsigned number is read from the numerals that have no minus sign. -/
theorem readUnsigned?_eq_some_iff_minus {cs : List Char} {n : Int} :
    (∃ m : Nat, readUnsigned? 10 cs = some m ∧ (m : Int) = n) ↔
      IsSignedNumeral cs n ∧ '-' ∉ cs := by
  have hbase : 10 ≤ 16 := by decide
  simp only [readUnsigned?_eq_some_iff hbase]
  constructor
  · rintro ⟨m, hnumeral | ⟨digits, rfl, hnumeral⟩, rfl⟩
    · exact ⟨.plain hnumeral, hnumeral.minus_not_mem hbase⟩
    · refine ⟨.plus hnumeral, ?_⟩
      rw [List.mem_cons, not_or]
      exact ⟨by decide, hnumeral.minus_not_mem hbase⟩
  · rintro ⟨hnumeral, hminus⟩
    cases hnumeral with
    | plain hnumeral => exact ⟨_, .inl hnumeral, rfl⟩
    | plus hnumeral => exact ⟨_, .inr ⟨_, rfl, hnumeral⟩, rfl⟩
    | minus hnumeral => exact absurd List.mem_cons_self hminus

/-- A signed number is read from every numeral. -/
theorem readSigned?_eq_some_iff {cs : List Char} {n : Int} :
    readSigned? cs = some n ↔ IsSignedNumeral cs n := by
  by_cases hsign : ∃ digits, cs = '-' :: digits
  · obtain ⟨digits, rfl⟩ := hsign
    rw [readSigned?, map_cast, Option.map_eq_some_iff]
    constructor
    · rintro ⟨m, hread, rfl⟩
      exact .minus ((readNat?_eq_some_iff (by decide)).mp hread)
    · intro hnumeral
      cases hnumeral with
      | plain hnumeral => exact absurd List.mem_cons_self (hnumeral.minus_not_mem (by decide))
      | minus hnumeral => exact ⟨_, (readNat?_eq_some_iff (by decide)).mpr hnumeral, rfl⟩
  · have hne (digits : List Char) : cs ≠ '-' :: digits := fun heq => hsign ⟨digits, heq⟩
    rw [readSigned?.eq_2 _ hne, map_cast, Option.map_eq_some_iff, readUnsigned?_eq_some_iff_minus]
    refine ⟨And.left, fun hnumeral => ⟨hnumeral, fun hmem => ?_⟩⟩
    cases hnumeral with
    | plain hnumeral => exact hnumeral.minus_not_mem (by decide) hmem
    | plus hnumeral =>
      obtain hplus | hmem := List.mem_cons.mp hmem
      · exact absurd hplus (by decide)
      · exact hnumeral.minus_not_mem (by decide) hmem
    | minus hnumeral => exact hne _ rfl

end Number

/-- A numeral stands for one number only. -/
theorem IsSignedNumeral.unique {cs : List Char} {n m : Int} (hn : IsSignedNumeral cs n)
    (hm : IsSignedNumeral cs m) : n = m :=
  Option.some.inj ((Number.readSigned?_eq_some_iff.mpr hn).symm.trans
    (Number.readSigned?_eq_some_iff.mpr hm))

namespace Number

/-! ## The decimal text of an integer -/

/-- The digits of a number are a numeral for it. -/
theorem isNumeral_toDigits {base : Nat} (hbase : 1 < base) (n : Nat) :
    IsNumeral base (Nat.toDigits base n) n := by
  induction n using Nat.strongRecOn with
  | ind n ih =>
    rw [Nat.toDigits_eq_if hbase]
    split
    · next hlt => exact .digit ⟨hlt, .inl rfl⟩
    · next hle =>
      have hrest := ih (n / base) (Nat.div_lt_self (by omega) hbase)
      have hlast : IsDigitOf base (n % base).digitChar (n % base) :=
        ⟨Nat.mod_lt _ (by omega), .inl rfl⟩
      have hmore := hrest.more hlast
      rwa [Nat.div_add_mod'] at hmore

/-- The decimal digits of a number are a numeral for it. -/
theorem isNumeral_digits (n : Nat) : IsNumeral 10 (digits n) n := isNumeral_toDigits (by decide) n

/-- The text of an integer is a numeral for it. -/
theorem isSignedNumeral_signedDigits (n : Int) : IsSignedNumeral (signedDigits n) n := by
  rw [signedDigits]
  split
  · next hn =>
    have hminus := IsSignedNumeral.minus (isNumeral_digits n.natAbs)
    have hvalue : -(n.natAbs : Int) = n := by omega
    rwa [hvalue] at hminus
  · next hn =>
    have hplain := IsSignedNumeral.plain (isNumeral_digits n.natAbs)
    have hvalue : (n.natAbs : Int) = n := by omega
    rwa [hvalue] at hplain

/-- There is a minus sign only before the digits of a negative number. -/
theorem minus_not_mem_signedDigits {n : Int} (hn : 0 ≤ n) : '-' ∉ signedDigits n := by
  rw [signedDigits, if_neg (by omega)]
  exact (isNumeral_digits n.natAbs).minus_not_mem (by decide)

end Number

namespace IntegerType

/-- A type that is not signed holds no negative number. -/
theorem nonneg_of_holds {type : IntegerType} {n : Int} (hsigned : type.isSigned = false)
    (hholds : type.holds n = true) : 0 ≤ n := by
  have hleast : type.least = 0 := by
    cases type with
    | int32 | int64 | isize => cases hsigned
    | uint8 | uint32 | uint64 | usize => rfl
  rw [holds, hleast, Bool.and_eq_true, decide_eq_true_eq] at hholds
  exact hholds.1

/-- A type reads the numerals for the numbers it holds, with a minus sign only if it is signed. -/
theorem read?_eq_some_iff {type : IntegerType} {text : String} {n : Int} :
    type.read? text = some n ↔
      IsSignedNumeral text.toList n ∧ (type.isSigned = true ∨ '-' ∉ text.toList) ∧
        type.holds n = true := by
  rw [read?, Option.filter_eq_some_iff, ← and_assoc]
  refine and_congr_left fun _ => ?_
  cases hsigned : type.isSigned with
  | true =>
    rw [if_pos rfl, Number.readSigned?_eq_some_iff]
    exact (and_iff_left (.inl rfl)).symm
  | false =>
    rw [if_neg Bool.false_ne_true, Number.map_cast, Option.map_eq_some_iff,
      Number.readUnsigned?_eq_some_iff_minus, or_iff_right Bool.false_ne_true]

/-- A numeral is read by the types that hold its number. -/
theorem read?_of_isSignedNumeral (type : IntegerType) {text : String} {n : Int}
    (hnumeral : IsSignedNumeral text.toList n) :
    type.read? text =
      if type.holds n = true ∧ (type.isSigned = true ∨ '-' ∉ text.toList) then some n
      else none := by
  split
  · next hread => exact read?_eq_some_iff.mpr ⟨hnumeral, hread.2, hread.1⟩
  · next hread =>
    rw [Option.eq_none_iff_forall_ne_some]
    intro m hm
    obtain ⟨hother, hsign, hholds⟩ := read?_eq_some_iff.mp hm
    cases hnumeral.unique hother
    exact hread ⟨hholds, hsign⟩

/-- The text of an integer is read back by the types that hold it, and by no other. -/
theorem read?_integerText (type : IntegerType) (n : Int) :
    type.read? (Number.integerText n) = if type.holds n then some n else none := by
  have hlist : (Number.integerText n).toList = Number.signedDigits n := String.toList_ofList
  have hsign (hholds : type.holds n = true) :
      type.isSigned = true ∨ '-' ∉ (Number.integerText n).toList := by
    cases hsigned : type.isSigned with
    | true => exact .inl rfl
    | false =>
      have hn := nonneg_of_holds hsigned hholds
      exact .inr (hlist ▸ Number.minus_not_mem_signedDigits hn)
  rw [read?_of_isSignedNumeral type (hlist ▸ Number.isSignedNumeral_signedDigits n)]
  simp only [and_iff_left_of_imp hsign]

end IntegerType

end BehaviorTree
