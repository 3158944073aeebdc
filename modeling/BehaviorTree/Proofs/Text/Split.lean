import BehaviorTree.Text.Split

/-!
# Where a text is split

A separator ends the part before it, and a part holds no separator. The first separator cuts a text
in one way only.
-/

namespace BehaviorTree.Text

/-- A text without the separator is one part. -/
theorem splitAt_of_not_mem {separator : Char} {part : List Char} (hpart : separator ∉ part) :
    splitAt separator part = [part] := by
  induction part with
  | nil => rfl
  | cons c part ih =>
    rw [List.mem_cons, not_or] at hpart
    rw [splitAt, if_neg (Ne.symm hpart.1), ih hpart.2]

/-- The first separator ends the first part. -/
theorem splitAt_append_cons {separator : Char} {part : List Char} (hpart : separator ∉ part)
    (rest : List Char) :
    splitAt separator (part ++ separator :: rest) = part :: splitAt separator rest := by
  induction part with
  | nil => rw [List.nil_append, splitAt, if_pos rfl]
  | cons c part ih =>
    rw [List.mem_cons, not_or] at hpart
    rw [List.cons_append, splitAt, if_neg (Ne.symm hpart.1), ih hpart.2]

/-- The first place of a character cuts a list in one way only. -/
theorem eq_of_append_cons_eq {α : Type} {mark : α} {first other rest tail : List α}
    (hfirst : mark ∉ first) (hother : mark ∉ other)
    (heq : first ++ mark :: rest = other ++ mark :: tail) : first = other ∧ rest = tail := by
  induction first generalizing other with
  | nil =>
    cases other with
    | nil => exact ⟨rfl, (List.cons.inj heq).2⟩
    | cons c other => exact absurd ((List.cons.inj heq).1 ▸ List.mem_cons_self) hother
  | cons c first ih =>
    cases other with
    | nil => exact absurd ((List.cons.inj heq).1 ▸ List.mem_cons_self) hfirst
    | cons d other =>
      obtain ⟨rfl, hrest⟩ := List.cons.inj heq
      obtain ⟨rfl, rfl⟩ := ih (fun hmem => hfirst (List.mem_cons_of_mem _ hmem))
        (fun hmem => hother (List.mem_cons_of_mem _ hmem)) hrest
      exact ⟨rfl, rfl⟩

end BehaviorTree.Text
