import BehaviorTree.Proofs.Context.Placeholder
import BehaviorTree.Proofs.Text.Split
import Mathlib.Logic.ExistsUnique

/-!
# What substitution means

There is exactly one way to cut a text into plain characters without an opening brace, tokens in
braces without a closing brace, and a tail without a placeholder. Substitution puts the replacement
of each token in the place of the token and its braces, or leaves both as they are, and keeps
everything else (`Placeholder.substitutes_tokens`).
-/

namespace BehaviorTree

namespace Placeholder

/-- What stands for a token in a result: its replacement, or the token in its braces. -/
def standIn (lookup : String → Option String) (token : String) : String :=
  (lookup token).getD (braced token)

/-- The plain characters, tokens and tail of a text one after the other, with something in the place
of each token. -/
def Cut.spell (cut : Cut) (shown : String → String) : List Char :=
  cut.parts.flatMap (fun part => part.plain ++ (shown (String.ofList part.token)).toList) ++
    cut.tail

/-- What expansion puts in is what stands for the token. -/
theorem expand_eq (lookup : String → Option String) (token : List Char) :
    expand lookup token = (standIn lookup (String.ofList token)).toList := by
  rw [expand, standIn]
  cases lookup (String.ofList token) with
  | none => simp [braced]
  | some replacement => rfl

/-- The parts are filled by writing what stands for each token after its plain characters. -/
theorem fillParts_eq (lookup : String → Option String) (parts : List Part) :
    fillParts lookup parts = parts.flatMap fun part =>
      part.plain ++ (standIn lookup (String.ofList part.token)).toList := by
  induction parts with
  | nil => rfl
  | cons part parts ih => rw [fillParts, ih, expand_eq, List.flatMap_cons]

/-- Filling in replacements is writing out what stands for each token. -/
theorem Cut.fill_eq_spell (cut : Cut) (lookup : String → Option String) :
    cut.fill lookup = cut.spell (standIn lookup) := by
  rw [fill, fillParts_eq, spell]

/-- The text itself is written out with every token in its braces. -/
theorem Cut.text_eq_spell (cut : Cut) : cut.text = cut.spell braced :=
  cut.fill_eq_spell fun _ => none

/-! ## There is one cut -/

/-- A text is written out part by part, each token between braces. -/
theorem spell_cons (part : Part) (parts : List Part) (tail : List Char) (htail : IsTail tail) :
    (⟨part :: parts, tail, htail⟩ : Cut).spell braced =
      part.plain ++ '\x7b' :: (part.token ++ '\x7d' ::
        (⟨parts, tail, htail⟩ : Cut).spell braced) := by
  simp [Cut.spell, braced]

/-- A tail is not the beginning of a part. -/
theorem not_isTail_placeholder (plain token rest : List Char) :
    ¬ IsTail (plain ++ '\x7b' :: (token ++ '\x7d' :: rest)) := fun htail =>
  htail plain (token ++ '\x7d' :: rest) rfl (by simp)

/-- A text is written out by one cut only. -/
theorem Cut.eq_of_spell {cut other : Cut} (hspell : cut.spell braced = other.spell braced) :
    cut = other := by
  obtain ⟨parts, tail, htail⟩ := cut
  obtain ⟨others, last, hlast⟩ := other
  induction parts generalizing others with
  | nil =>
    have htext : (⟨[], tail, htail⟩ : Cut).spell braced = tail := rfl
    cases others with
    | nil =>
      obtain rfl : tail = last := hspell
      rfl
    | cons part others =>
      rw [htext, spell_cons] at hspell
      exact absurd (hspell ▸ htail) (not_isTail_placeholder _ _ _)
  | cons part parts ih =>
    have htext : (⟨[], last, hlast⟩ : Cut).spell braced = last := rfl
    cases others with
    | nil =>
      rw [htext, spell_cons] at hspell
      exact absurd (hspell ▸ hlast) (not_isTail_placeholder _ _ _)
    | cons other others =>
      rw [spell_cons, spell_cons] at hspell
      obtain ⟨hplain, hafter⟩ :=
        Text.eq_of_append_cons_eq part.plain_unopened other.plain_unopened hspell
      obtain ⟨htoken, hrest⟩ :=
        Text.eq_of_append_cons_eq part.token_unclosed other.token_unclosed hafter
      obtain ⟨plain, token, hopen, hclose⟩ := part
      obtain ⟨plain', token', hopen', hclose'⟩ := other
      obtain rfl : plain = plain' := hplain
      obtain rfl : token = token' := htoken
      cases ih others hrest
      rfl

/-! ## Substitution by the cut -/

section

variable (lookup : String → Option String)

/-- A substitution, character by character, writes out what stands for each token. -/
theorem toList_substitute {cut : Cut} {text : String} (hcut : cut.spell braced = text.toList) :
    (substitute lookup text).toList = cut.spell (standIn lookup) := by
  rw [← cut.text_eq_spell] at hcut
  rw [substitute_eq lookup hcut, String.toList_ofList, cut.fill_eq_spell]

/-- Where the first of two texts closes its braces, the two are substituted one by one. -/
theorem substitute_append {first : String} (hclosed : IsClosed first.toList) (second : String) :
    substitute lookup (first ++ second) = substitute lookup first ++ substitute lookup second := by
  rw [substitute, String.toList_append, scan_append lookup hclosed, String.ofList_append,
    substitute, substitute]

/-- What has been put in is not scanned, and what comes after a token is scanned by itself. -/
theorem substitute_braced_append {token : String} (htoken : '\x7d' ∉ token.toList)
    (after : String) :
    substitute lookup (braced token ++ after) =
      standIn lookup token ++ substitute lookup after := by
  have hscan := scan_placeholder lookup htoken after.toList
  rw [expand_eq, String.ofList_toList] at hscan
  rw [substitute, String.toList_append, braced, String.toList_ofList, List.cons_append,
    List.append_assoc, List.singleton_append, hscan, String.ofList_append, String.ofList_toList,
    substitute]

end

end Placeholder

namespace Context

open Placeholder

/-- The path of a token is what stands in it after `config.`. -/
theorem configPath?_eq_some_iff {token path : String} :
    configPath? token = some path ↔ token = "config." ++ path := by
  have hlist : token = "config." ++ path ↔ token.toList = "config.".toList ++ path.toList := by
    rw [← String.toList_inj, String.toList_append]
  rw [configPath?, hlist]
  constructor
  · intro hpath
    split at hpath
    · next hprefix =>
      obtain ⟨rest, hrest⟩ := List.isPrefixOf_iff_prefix.mp hprefix
      obtain rfl := Option.some.inj hpath
      rw [← hrest, List.drop_left, @String.toList_ofList rest]
    · cases hpath
  · intro htoken
    rw [htoken, if_pos (List.isPrefixOf_iff_prefix.mpr (List.prefix_append _ _)), List.drop_left,
      String.ofList_toList]

/-- A token stands for the value under it, or else for the leaf of the configuration at the path
that it gives. -/
theorem lookupToken?_eq_some_iff {context : Context} {token value : String} :
    context.lookupToken? token = some value ↔
      context.getString? token = some value ∨
        context.getString? token = none ∧ ∃ path, token = "config." ++ path ∧
          context.configValue? path = some value := by
  rw [lookupToken?, Option.or_eq_some_iff, Option.bind_eq_some_iff]
  simp only [configPath?_eq_some_iff]

end Context

namespace Placeholder

/-- A text is cut into plain characters, tokens in braces and a tail in exactly one way, and what
substitution gives is the same with what stands for each token in the place of the token and its
braces. So the text stays as it is if no token has a replacement, only the replacements of its
tokens matter, texts that close their braces are substituted apart from what follows, and what is
put in is not looked at again. The texts of nodes and of attributes are substituted in this way. -/
theorem substitutes_tokens (lookup : String → Option String) (text : String) :
    (∃! cut : Cut, cut.spell braced = text.toList) ∧
    (∀ cut : Cut, cut.spell braced = text.toList →
      (substitute lookup text).toList = cut.spell (standIn lookup) ∧
      ((∀ part ∈ cut.parts, lookup (String.ofList part.token) = none) →
        substitute lookup text = text) ∧
      ∀ other : String → Option String,
        (∀ part ∈ cut.parts,
          lookup (String.ofList part.token) = other (String.ofList part.token)) →
        substitute lookup text = substitute other text) ∧
    (IsClosed text.toList → ∀ after,
      substitute lookup (text ++ after) = substitute lookup text ++ substitute lookup after ∧
      ∀ token : String, '\x7d' ∉ token.toList →
        substitute lookup (text ++ (braced token ++ after)) =
          substitute lookup text ++ (standIn lookup token ++ substitute lookup after)) ∧
    ∀ context : Context,
      context.resolvePlaceholders text = substitute context.lookupToken? text ∧
      context.insertValues text = substitute context.getString? text ∧
      ∀ token value, context.lookupToken? token = some value ↔
        context.getString? token = some value ∨
          context.getString? token = none ∧ ∃ path, token = "config." ++ path ∧
            context.configValue? path = some value := by
  obtain ⟨found, hfound⟩ := exists_cut text.toList
  rw [found.text_eq_spell] at hfound
  refine ⟨⟨found, hfound, fun other hother => Cut.eq_of_spell (hother.trans hfound.symm)⟩,
    fun cut hcut => ?_, fun hclosed after => ?_,
    fun context => ⟨rfl, rfl, fun _ _ => Context.lookupToken?_eq_some_iff⟩⟩
  · have hcongr : ∀ other : String → Option String, (∀ part ∈ cut.parts,
        lookup (String.ofList part.token) = other (String.ofList part.token)) →
        cut.spell (standIn lookup) = cut.spell (standIn other) := by
      intro other hsame
      rw [← cut.fill_eq_spell, ← cut.fill_eq_spell, Cut.fill_congr hsame]
    refine ⟨toList_substitute lookup hcut, fun hnone => ?_, fun other hsame => ?_⟩
    · rw [← String.toList_inj, toList_substitute lookup hcut, ← hcut]
      exact hcongr (fun _ => none) hnone
    · rw [← String.toList_inj, toList_substitute lookup hcut, toList_substitute other hcut]
      exact hcongr other hsame
  · refine ⟨substitute_append lookup hclosed after, fun token htoken => ?_⟩
    rw [substitute_append lookup hclosed, substitute_braced_append lookup htoken]

/-- A text with a brace in a token, stray braces and an accent. -/
def strayBraces : Cut where
  parts := [⟨"a\x7d".toList, "b\x7bc".toList, by decide, by decide⟩,
    ⟨"é".toList, "x".toList, by decide, by decide⟩]
  tail := "\x7b".toList
  isTail := isTail_of_unclosed (by decide)

/-- A replacement that looks like its own placeholder is put in once. -/
theorem substitutes_tokens_strayBraces :
    let lookup := fun token => if token = "x" then some "\x7bx\x7d\x7by" else none
    let text := "a\x7d\x7bb\x7bc\x7dé\x7bx\x7d\x7b"
    strayBraces.spell braced = text.toList ∧
      (∀ cut : Cut, cut.spell braced = text.toList → cut = strayBraces) ∧
      (substitute lookup text).toList = strayBraces.spell (standIn lookup) ∧
      strayBraces.spell (standIn lookup) = "a\x7d\x7bb\x7bc\x7dé\x7bx\x7d\x7by\x7b".toList := by
  intro lookup text
  obtain ⟨hunique, hcuts, -⟩ := substitutes_tokens lookup text
  have hcut : strayBraces.spell braced = text.toList := by decide
  exact ⟨hcut, fun cut hother => hunique.unique hother hcut, (hcuts strayBraces hcut).1,
    by decide⟩

end Placeholder

end BehaviorTree
