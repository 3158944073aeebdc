/-!
# Comparing names without regard to ASCII case

Element names, tree identifiers and boolean words are compared after mapping the letters
`A` to `Z` to lower case. No other character is folded.
-/

namespace BehaviorTree.Text

/-- The text with the letters `A` to `Z` in lower case. -/
def lowercase (text : String) : String := String.ofList (text.toList.map Char.toLower)

/-- Equality up to the case of ASCII letters. -/
def sameName (a b : String) : Bool := a.toList.map Char.toLower == b.toList.map Char.toLower

/-- Two names are the same exactly if they are equal in lower case. -/
theorem sameName_iff {a b : String} :
    sameName a b = true ↔ a.toList.map Char.toLower = b.toList.map Char.toLower := by
  simp [sameName]

/-- Every name is the same as itself. -/
@[simp] theorem sameName_self (a : String) : sameName a a = true := sameName_iff.mpr rfl

/-- Sameness of names is symmetric. -/
theorem sameName_comm (a b : String) : sameName a b = sameName b a := by
  rw [Bool.eq_iff_iff, sameName_iff, sameName_iff]
  exact eq_comm

/-- A name can be replaced by any other spelling of it. -/
theorem sameName_congr {a b : String} (hsame : sameName a b = true) (c : String) :
    sameName a c = sameName b c := by
  rw [Bool.eq_iff_iff, sameName_iff, sameName_iff, sameName_iff.mp hsame]

/-- The truth value that `true` or `false`, in any case of letters, stands for. -/
def boolWord? (text : String) : Option Bool :=
  if sameName text "true" then some true
  else if sameName text "false" then some false
  else none

end BehaviorTree.Text
