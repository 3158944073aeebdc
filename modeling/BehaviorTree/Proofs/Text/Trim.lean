import BehaviorTree.Text.Blank
import Mathlib.Data.List.TakeWhile

/-!
# What trimming leaves

Trimming takes away blanks at the ends of a text and nothing else. It leaves nothing exactly if
there are only blanks, and everything exactly if the text stays as long as it is.
-/

namespace BehaviorTree.Text

/-- Trimming keeps the order of what it leaves. -/
theorem trimBlanks_sublist (cs : List Char) : (trimBlanks cs).Sublist cs := by
  rw [trimBlanks, ← List.reverse_sublist, List.reverse_reverse]
  exact (List.dropWhile_sublist _).trans (List.reverse_sublist.mpr (List.dropWhile_sublist _))

/-- Nothing is left exactly if there are only blanks. -/
theorem trimBlanks_eq_nil_iff {cs : List Char} : trimBlanks cs = [] ↔ ∀ c ∈ cs, isBlank c := by
  simp only [trimBlanks, List.reverse_eq_nil_iff, List.dropWhile_eq_nil_iff, List.mem_reverse]
  constructor
  · intro h
    cases hdrop : cs.dropWhile isBlank with
    | nil => exact List.dropWhile_eq_nil_iff.mp hdrop
    | cons c rest =>
      have hhead := List.head?_dropWhile_not isBlank cs
      rw [hdrop] at hhead h
      simp [h c List.mem_cons_self] at hhead
  · exact fun h c hc => h c ((List.dropWhile_sublist _).subset hc)

/-- Nothing is left of a text exactly if it is blank. -/
theorem trim_eq_empty_iff {text : String} : trim text = "" ↔ isBlankText text = true := by
  rw [isBlankText, List.all_eq_true, ← trimBlanks_eq_nil_iff, trim, ← String.ofList_nil,
    String.ofList_inj]

/-- Trimming takes nothing from a text that stays as long as it is. -/
theorem trim_eq_self_of_length {text : String}
    (hlength : (trim text).toList.length = text.toList.length) : trim text = text := by
  rw [trim, String.toList_ofList] at hlength
  rw [trim, (trimBlanks_sublist _).eq_of_length hlength, String.ofList_toList]

/-- Blanks in front of a core without blanks are dropped, and nothing else. -/
theorem dropWhile_isBlank_append {before core : List Char}
    (hbefore : ∀ c ∈ before, isBlank c = true) (hcore : ∀ c ∈ core, isBlank c = false)
    (hne : core ≠ []) (after : List Char) :
    (before ++ (core ++ after)).dropWhile isBlank = core ++ after := by
  rw [List.dropWhile_append_of_pos hbefore]
  cases core with
  | nil => exact absurd rfl hne
  | cons c core =>
    exact List.dropWhile_cons_of_neg (Bool.eq_false_iff.mp (hcore c List.mem_cons_self))

/-- Only what stands between the blanks is left. -/
theorem trimBlanks_append {before core after : List Char}
    (hbefore : ∀ c ∈ before, isBlank c = true) (hcore : ∀ c ∈ core, isBlank c = false)
    (hafter : ∀ c ∈ after, isBlank c = true) : trimBlanks (before ++ (core ++ after)) = core := by
  by_cases hne : core = []
  · subst hne
    exact trimBlanks_eq_nil_iff.mpr (List.forall_mem_append.mpr ⟨hbefore, hafter⟩)
  · have hlast : (after.reverse ++ (core.reverse ++ [])).dropWhile isBlank = core.reverse ++ [] :=
      dropWhile_isBlank_append (fun c hc => hafter c (List.mem_reverse.mp hc))
        (fun c hc => hcore c (List.mem_reverse.mp hc)) (List.reverse_ne_nil_iff.mpr hne) []
    rw [List.append_nil] at hlast
    rw [trimBlanks, dropWhile_isBlank_append hbefore hcore hne, List.reverse_append, hlast,
      List.reverse_reverse]

/-- A text without blanks stays as it is. -/
theorem trim_eq_self {text : String} (hblank : ∀ c ∈ text.toList, isBlank c = false) :
    trim text = text := by
  have htrim : trimBlanks ([] ++ (text.toList ++ [])) = text.toList :=
    trimBlanks_append nofun hblank nofun
  rw [List.nil_append, List.append_nil] at htrim
  rw [trim, htrim, String.ofList_toList]

end BehaviorTree.Text
