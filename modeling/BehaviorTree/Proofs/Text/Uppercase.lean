import BehaviorTree.Text.Uppercase
import Mathlib.Data.Nat.Bitwise

/-!
# What upper case forms consist of

The upper case form of a character is not empty, and each of its characters is its own upper case
form. This holds since the tables map no code point that they give as an image. The code points on
either side are compared as bit masks.
-/

namespace BehaviorTree.Text

/-- Code points with the distances of a run, from the given one on. -/
def CaseRun.progression (run : CaseRun) (start : Nat) : List Nat :=
  (List.range ((run.last - run.first) / run.stride + 1)).map fun k => start + run.stride * k

/-- The code points that the tables map. -/
def lowercaseCodes : List Nat :=
  longUppercase.map (·.1) ++ caseRuns.flatMap fun run => run.progression run.first

/-- The code points that the tables map to. -/
def uppercaseCodes : List Nat :=
  longUppercase.flatMap (·.2) ++ caseRuns.flatMap fun run => run.progression run.image

/-! ## The tables -/

/-- The mask with the bits at the given positions. -/
def bits (positions : List Nat) : Nat :=
  positions.foldr (fun position mask => 2 ^ position ||| mask) 0

/-- A bit of a mask is set exactly at the given positions. -/
theorem testBit_bits_iff {positions : List Nat} {position : Nat} :
    (bits positions).testBit position = true ↔ position ∈ positions := by
  induction positions with
  | nil => simp [bits]
  | cons first rest ih =>
    change (2 ^ first ||| bits rest).testBit position = true ↔ _
    rw [Nat.testBit_or, Bool.or_eq_true, ih, Nat.testBit_two_pow, decide_eq_true_eq, List.mem_cons,
      eq_comm]

/-- No code point is mapped and mapped to. This is one computation on masks. -/
theorem bits_disjoint : bits uppercaseCodes &&& bits lowercaseCodes = 0 := by decide +kernel

/-- A code point that the tables map to is not mapped itself. -/
theorem not_mem_lowercaseCodes {code : Nat} (hcode : code ∈ uppercaseCodes) :
    code ∉ lowercaseCodes := by
  intro hmapped
  have hboth : (bits uppercaseCodes &&& bits lowercaseCodes).testBit code = true := by
    rw [Nat.testBit_and, testBit_bits_iff.mpr hcode, testBit_bits_iff.mpr hmapped, Bool.and_self]
  rw [bits_disjoint, Nat.zero_testBit] at hboth
  cases hboth

/-- The tables map to code points of characters only. -/
theorem isValidChar_of_mem_uppercaseCodes : ∀ code ∈ uppercaseCodes, code.isValidChar := by
  decide +kernel

/-- No character is mapped to nothing. -/
theorem longUppercase_ne_nil : ∀ entry ∈ longUppercase, entry.2 ≠ [] := by decide

/-! ## Upper case forms -/

/-- A run maps the code points of one progression to those of another. -/
theorem CaseRun.mem_progression_of_covers {run : CaseRun} {code : Nat}
    (hcovers : run.covers code = true) :
    code ∈ run.progression run.first ∧
      run.image + (code - run.first) ∈ run.progression run.image := by
  simp only [CaseRun.covers, Bool.and_eq_true, decide_eq_true_eq, beq_iff_eq] at hcovers
  obtain ⟨⟨hfirst, hlast⟩, hstride⟩ := hcovers
  have hle : (code - run.first) / run.stride ≤ (run.last - run.first) / run.stride :=
    Nat.div_le_div_right (by omega)
  have hdistance : run.stride * ((code - run.first) / run.stride) = code - run.first :=
    Nat.mul_div_cancel' (Nat.dvd_of_mod_eq_zero hstride)
  have hrange := List.mem_range.mpr (Nat.lt_succ_of_le hle)
  exact ⟨List.mem_map.mpr ⟨_, hrange, by omega⟩, List.mem_map.mpr ⟨_, hrange, by rw [hdistance]⟩⟩

/-- A code point that the tables map has images, and any other character is its own upper case
form. -/
theorem uppercase_cases (c : Char) :
    (c.toNat ∈ lowercaseCodes ∧ ∃ codes, codes ≠ [] ∧ codes ⊆ uppercaseCodes ∧
      uppercase c = codes.map Char.ofNat) ∨
    uppercase c = [c] := by
  unfold uppercase lowercaseCodes uppercaseCodes
  split
  · next codes hlookup =>
    obtain ⟨before, after, htable, -⟩ := List.lookup_eq_some_iff.mp hlookup
    have hentry : (c.toNat, codes) ∈ longUppercase := by simp [htable]
    exact .inl ⟨List.mem_append_left _ (List.mem_map_of_mem hentry), codes,
      longUppercase_ne_nil _ hentry,
      fun code hcode => List.mem_append_left _ (List.mem_flatMap.mpr ⟨_, hentry, hcode⟩), rfl⟩
  · split
    · next run hfind =>
      have hrun := List.mem_of_find?_eq_some hfind
      have hcovers : run.covers c.toNat = true := by simpa using List.find?_some hfind
      obtain ⟨hcode, himage⟩ := CaseRun.mem_progression_of_covers hcovers
      exact .inl ⟨List.mem_append_right _ (List.mem_flatMap.mpr ⟨run, hrun, hcode⟩),
        [run.image + (c.toNat - run.first)], List.cons_ne_nil _ _, List.cons_subset.mpr
          ⟨List.mem_append_right _ (List.mem_flatMap.mpr ⟨run, hrun, himage⟩), List.nil_subset _⟩,
        rfl⟩
    · exact .inr rfl

/-- An upper case form has at least one character. -/
theorem uppercase_ne_nil (c : Char) : uppercase c ≠ [] := by
  obtain ⟨-, codes, hne, -, hcodes⟩ | hself := uppercase_cases c
  · rw [hcodes, Ne, List.map_eq_nil_iff]
    exact hne
  · rw [hself]
    exact List.cons_ne_nil _ _

/-- An upper case form consists of the character itself and of characters that the tables map to. -/
theorem mem_uppercase {c d : Char} (hmem : d ∈ uppercase c) :
    d = c ∧ uppercase c = [c] ∨ d.toNat ∈ uppercaseCodes := by
  obtain ⟨-, codes, -, hsub, hcodes⟩ | hself := uppercase_cases c
  · rw [hcodes] at hmem
    obtain ⟨code, hcode, rfl⟩ := List.mem_map.mp hmem
    refine .inr ?_
    rw [Char.ofNat, dif_pos (isValidChar_of_mem_uppercaseCodes code (hsub hcode))]
    exact hsub hcode
  · rw [hself] at hmem
    exact .inl ⟨List.mem_singleton.mp hmem, hself⟩

/-- Every character of an upper case form is its own upper case form. -/
theorem uppercase_of_mem_uppercase {c d : Char} (hmem : d ∈ uppercase c) : uppercase d = [d] := by
  obtain ⟨rfl, hself⟩ | himage := mem_uppercase hmem
  · exact hself
  · obtain ⟨hmapped, -⟩ | hself := uppercase_cases d
    · exact absurd hmapped (not_mem_lowercaseCodes himage)
    · exact hself

end BehaviorTree.Text
