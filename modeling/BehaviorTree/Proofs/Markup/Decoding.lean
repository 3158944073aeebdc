import BehaviorTree.Proofs.Markup.Rendering
import BehaviorTree.Proofs.Text.Split

/-!
# What decoding replaces

Decoding replaces a reference by the character that it stands for and copies everything else. A
reference is one of five names or a code point in digits. The digits are read as those of any other
unsigned number, so a plus sign may stand before them, which makes a reference of a text that is
none by the rules of the format. Where no such text occurs, exactly the references are replaced
(`decode_replaces_iff`).
-/

namespace BehaviorTree.Entity

/-- A code point with a plus sign before its digits. -/
inductive RefersSigned : List Char → Char → Prop
  | decimal {digits : List Char} {c : Char} :
      IsNumeral 10 digits c.toNat → RefersSigned ('#' :: '+' :: digits) c
  | hexadecimal {mark : Char} {digits : List Char} {c : Char} :
      mark = 'x' ∨ mark = 'X' → IsNumeral 16 digits c.toNat →
      RefersSigned ('#' :: mark :: '+' :: digits) c

/-- A reference, or a code point with a plus sign. -/
def Denotes (name : List Char) (c : Char) : Prop := Refers name c ∨ RefersSigned name c

/-- A text and what becomes of it when each reference is replaced by its character and every other
character is copied. What has been put in is not looked at again. -/
inductive Replaces (refers : List Char → Char → Prop) : List Char → List Char → Prop
  | nil : Replaces refers [] []
  | reference {name rest out : List Char} {c : Char} :
      refers name c → Replaces refers rest out →
      Replaces refers ('&' :: (name ++ ';' :: rest)) (c :: out)
  | literal {rest out : List Char} {c : Char} :
      (∀ name d behind, refers name d → c :: rest ≠ '&' :: (name ++ ';' :: behind)) →
      Replaces refers rest out → Replaces refers (c :: rest) (c :: out)

/-! ## References -/

/-- A code point is read as a character exactly if it is the character's own. -/
theorem charAt?_eq_some_iff {code : Nat} {c : Char} : charAt? code = some c ↔ code = c.toNat := by
  constructor
  · intro hcode
    simp only [charAt?, Option.ite_none_right_eq_some, Option.some.injEq] at hcode
    obtain ⟨hvalid, rfl⟩ := hcode
    rw [Char.ofNat, dif_pos hvalid]
    rfl
  · rintro rfl
    exact charAt?_toNat c

/-- Digits are read as the code point of a character exactly if they are a numeral for it, with or
without a plus sign. -/
theorem codePoint_eq_some_iff {base : Nat} (hbase : base ≤ 16) {digits : List Char} {c : Char} :
    (Number.readUnsigned? base digits).bind charAt? = some c ↔
      IsNumeral base digits c.toNat ∨
        ∃ tail, digits = '+' :: tail ∧ IsNumeral base tail c.toNat := by
  simp only [Option.bind_eq_some_iff, charAt?_eq_some_iff, exists_eq_right]
  exact Number.readUnsigned?_eq_some_iff hbase

/-- A plus sign occurs in no reference. -/
theorem RefersSigned.not_refers {name : List Char} {c d : Char} (hsigned : RefersSigned name c) :
    ¬ Refers name d := by
  have hplus : '+' ∈ name := by cases hsigned <;> simp
  intro hrefers
  exact absurd (hrefers.isAlphanum '+' hplus) (by decide)

/-- What stands between an ampersand and a semicolon is taken for a character exactly if it is a
reference to it or a code point with a plus sign. -/
theorem denoted?_eq_some_iff {name : List Char} {c : Char} :
    denoted? name = some c ↔ Denotes name c := by
  constructor
  · intro hname
    unfold denoted? at hname
    split at hname
    · cases hname
      exact .inl (@Refers.named "lt" '<' (by decide))
    · cases hname
      exact .inl (@Refers.named "gt" '>' (by decide))
    · cases hname
      exact .inl (@Refers.named "amp" '&' (by decide))
    · cases hname
      exact .inl (@Refers.named "quot" '"' (by decide))
    · cases hname
      exact .inl (@Refers.named "apos" '\'' (by decide))
    · obtain hnumeral | ⟨digits, rfl, hnumeral⟩ := (codePoint_eq_some_iff (by decide)).mp hname
      · exact .inl (.hexadecimal (.inl rfl) hnumeral)
      · exact .inr (.hexadecimal (.inl rfl) hnumeral)
    · obtain hnumeral | ⟨digits, rfl, hnumeral⟩ := (codePoint_eq_some_iff (by decide)).mp hname
      · exact .inl (.hexadecimal (.inr rfl) hnumeral)
      · exact .inr (.hexadecimal (.inr rfl) hnumeral)
    · obtain hnumeral | ⟨digits, rfl, hnumeral⟩ := (codePoint_eq_some_iff (by decide)).mp hname
      · exact .inl (.decimal hnumeral)
      · exact .inr (.decimal hnumeral)
    · cases hname
  · rintro (hrefers | hsigned)
    · exact hrefers.denoted?_eq
    · have hcode {base : Nat} (hbase : base ≤ 16) {digits : List Char}
          (hnumeral : IsNumeral base digits c.toNat) :
          (Number.readUnsigned? base ('+' :: digits)).bind charAt? = some c :=
        (codePoint_eq_some_iff hbase).mpr (.inr ⟨digits, rfl, hnumeral⟩)
      cases hsigned with
      | decimal hnumeral => exact hcode (by decide) hnumeral
      | hexadecimal hmark hnumeral =>
        obtain rfl | rfl := hmark
        · exact hcode (by decide) hnumeral
        · exact hcode (by decide) hnumeral

/-- What is replaced ends with its own semicolon, and no other begins in it. -/
theorem Denotes.plain {name : List Char} {c : Char} (hdenotes : Denotes name c) :
    ∀ d ∈ name, d ≠ '&' ∧ d ≠ ';' := by
  have hdigits : ∀ d ∈ "0123456789abcdefABCDEF".toList, d ≠ '&' ∧ d ≠ ';' := fun d hd =>
    ⟨ne_of_mem_of_not_mem hd (by decide), ne_of_mem_of_not_mem hd (by decide)⟩
  obtain hrefers | hsigned := hdenotes
  · intro d hd
    have hplain := hrefers.plain d hd
    constructor <;> rintro rfl <;> exact hplain (by decide)
  · cases hsigned with
    | decimal hnumeral =>
      simp only [List.forall_mem_cons]
      exact ⟨by decide, by decide, fun d hd => hdigits d (hnumeral.mem_digits (by decide) d hd)⟩
    | hexadecimal hmark hnumeral =>
      simp only [List.forall_mem_cons]
      refine ⟨by decide, ?_, by decide,
        fun d hd => hdigits d (hnumeral.mem_digits (by decide) d hd)⟩
      obtain rfl | rfl := hmark <;> decide

/-- No reference begins before its semicolon has been read. -/
theorem Denotes.ampersand_not_mem {name : List Char} {c : Char} (hdenotes : Denotes name c) :
    '&' ∉ name ++ [';'] := by
  rw [List.mem_append, not_or]
  exact ⟨fun hmem => (hdenotes.plain _ hmem).1 rfl, by decide⟩

/-- What denotes a character is replaced by it, and decoding goes on behind the semicolon. -/
theorem Denotes.decode_eq {name : List Char} {c : Char} (hdenotes : Denotes name c)
    (rest : List Char) : decode ('&' :: (name ++ ';' :: rest)) = c :: decode rest :=
  decode_denoted hdenotes.plain (denoted?_eq_some_iff.mpr hdenotes) rest

/-! ## What is copied -/

/-- A character that is no ampersand is copied. -/
theorem decode_cons_of_ne {c : Char} (hc : c ≠ '&') (rest : List Char) :
    decode (c :: rest) = c :: decode rest := by
  rw [decode, scan, if_neg hc]
  rfl

/-- A text without an ampersand is copied. -/
theorem decode_append_of_not_mem {text : List Char} (htext : '&' ∉ text) (rest : List Char) :
    decode (text ++ rest) = text ++ decode rest := by
  induction text with
  | nil => rfl
  | cons c text ih =>
    rw [List.mem_cons, not_or] at htext
    rw [List.cons_append, decode_cons_of_ne (Ne.symm htext.1), ih htext.2, List.cons_append]

/-- Behind an ampersand either the next mark is a semicolon, and what stands before it is looked
up, or what has been read so far is copied. -/
theorem scan_some (soFar cs : List Char) :
    (∃ name behind, cs = name ++ ';' :: behind ∧ '&' ∉ name ∧
      scan (some soFar) cs = expand (soFar.reverse ++ name) ++ decode behind) ∨
    scan (some soFar) cs = '&' :: soFar.reverse ++ decode cs := by
  induction cs generalizing soFar with
  | nil => exact .inr (List.append_nil _).symm
  | cons c rest ih =>
    rw [scan]
    split
    · next hend =>
      subst hend
      exact .inl ⟨[], rest, rfl, List.not_mem_nil, by rw [List.append_nil]; rfl⟩
    · split
      · next hamp =>
        subst hamp
        exact .inr rfl
      · next hamp =>
        obtain ⟨name, behind, rfl, hname, hscan⟩ | hscan := ih (c :: soFar)
        · refine .inl ⟨c :: name, behind, rfl, ?_, ?_⟩
          · rw [List.mem_cons, not_or]
            exact ⟨Ne.symm hamp, hname⟩
          · rw [hscan, List.reverse_cons, List.append_assoc, List.singleton_append]
        · refine .inr ?_
          rw [hscan, decode_cons_of_ne hamp, List.reverse_cons, ← List.cons_append,
            List.append_assoc, List.singleton_append]

/-- A character is copied unless a reference begins with it. -/
theorem decode_literal {c : Char} {rest : List Char}
    (hliteral : ∀ name d behind, Denotes name d → c :: rest ≠ '&' :: (name ++ ';' :: behind)) :
    decode (c :: rest) = c :: decode rest := by
  by_cases hamp : c = '&'
  · subst hamp
    have hdecode : decode ('&' :: rest) = scan (some []) rest := rfl
    rw [hdecode]
    obtain ⟨name, behind, rfl, hname, hscan⟩ | hscan := scan_some [] rest
    · have hnone : denoted? name = none := by
        cases hdenoted : denoted? name with
        | none => rfl
        | some d => exact absurd rfl (hliteral name d behind (denoted?_eq_some_iff.mp hdenoted))
      have hplain : '&' ∉ name ++ [';'] := by simp [hname]
      have hrest : name ++ ';' :: behind = (name ++ [';']) ++ behind := by simp
      rw [hscan, List.reverse_nil, List.nil_append, expand, hnone, hrest,
        decode_append_of_not_mem hplain]
      rfl
    · exact hscan
  · exact decode_cons_of_ne hamp rest

/-! ## What decoding does -/

/-- The result of decoding is the text with its references replaced, those with a plus sign among
them. -/
theorem replaces_decode (raw : List Char) : Replaces Denotes raw (decode raw) := by
  induction hlength : raw.length using Nat.strongRecOn generalizing raw with
  | ind n ih =>
    cases raw with
    | nil => exact .nil
    | cons c rest =>
      by_cases hliteral :
          ∀ name d behind, Denotes name d → c :: rest ≠ '&' :: (name ++ ';' :: behind)
      · rw [decode_literal hliteral]
        exact .literal hliteral (ih rest.length (by simp [← hlength]) rest rfl)
      · push Not at hliteral
        obtain ⟨name, d, behind, hdenotes, heq⟩ := hliteral
        rw [heq] at hlength ⊢
        rw [hdenotes.decode_eq]
        exact .reference hdenotes (ih behind.length (by simp [← hlength]; omega) behind rfl)

/-- Decoding finds the one way to replace what denotes a character. -/
theorem decode_eq_of_replaces {raw out : List Char} (hreplaces : Replaces Denotes raw out) :
    decode raw = out := by
  induction hreplaces with
  | nil => rfl
  | reference hdenotes _ ih => rw [hdenotes.decode_eq, ih]
  | literal hliteral _ ih => rw [decode_literal hliteral, ih]

/-- A reference in the midst of a text is replaced, whatever stands on either side of it. -/
theorem scan_append_ampersand (state : Option (List Char)) (before rest : List Char) :
    scan state (before ++ '&' :: rest) = scan state before ++ decode ('&' :: rest) := by
  induction before generalizing state with
  | nil =>
    cases state with
    | none => rfl
    | some name => rfl
  | cons c before ih =>
    rw [List.cons_append]
    cases state with
    | none =>
      rw [scan, scan]
      split
      · exact ih _
      · rw [ih, List.cons_append]
    | some name =>
      rw [scan, scan]
      split
      · rw [ih, List.append_assoc]
      · split
        · rw [ih, List.append_assoc]
        · exact ih _

/-! ## Code points with a plus sign -/

/-- Somewhere in the text stands a code point with a plus sign, between an ampersand and a
semicolon. -/
def HoldsSigned (raw : List Char) : Prop :=
  ∃ name c, RefersSigned name c ∧ '&' :: (name ++ [';']) <:+: raw

/-- A signed code point in a text stands at its beginning or further on. -/
theorem holdsSigned_cons_iff {c : Char} {rest : List Char} :
    HoldsSigned (c :: rest) ↔
      (∃ name d behind, RefersSigned name d ∧ c :: rest = '&' :: (name ++ ';' :: behind)) ∨
        HoldsSigned rest := by
  have hspan (name behind : List Char) :
      '&' :: (name ++ [';']) ++ behind = '&' :: (name ++ ';' :: behind) := by simp
  simp only [HoldsSigned, List.infix_cons_iff]
  constructor
  · rintro ⟨name, d, hsigned, ⟨behind, heq⟩ | hinfix⟩
    · exact .inl ⟨name, d, behind, hsigned, by rw [← hspan, heq]⟩
    · exact .inr ⟨name, d, hsigned, hinfix⟩
  · rintro (⟨name, d, behind, hsigned, heq⟩ | ⟨name, d, hsigned, hinfix⟩)
    · exact ⟨name, d, hsigned, .inl ⟨behind, by rw [hspan, heq]⟩⟩
    · exact ⟨name, d, hsigned, .inr hinfix⟩

/-- A text without an ampersand adds no signed code point. -/
theorem holdsSigned_append_iff {text rest : List Char} (htext : '&' ∉ text) :
    HoldsSigned (text ++ rest) ↔ HoldsSigned rest := by
  induction text with
  | nil => rfl
  | cons c text ih =>
    rw [List.mem_cons, not_or] at htext
    rw [List.cons_append, holdsSigned_cons_iff, ih htext.2]
    refine or_iff_right ?_
    rintro ⟨name, d, behind, _, heq⟩
    exact htext.1 (List.cons.inj heq).1.symm

/-- No code point with a plus sign begins where a reference does. -/
theorem holdsSigned_reference_iff {name rest : List Char} {c : Char} (hrefers : Refers name c) :
    HoldsSigned ('&' :: (name ++ ';' :: rest)) ↔ HoldsSigned rest := by
  have hdenotes : Denotes name c := .inl hrefers
  have hsplit : name ++ ';' :: rest = (name ++ [';']) ++ rest := by simp
  rw [holdsSigned_cons_iff, hsplit, holdsSigned_append_iff hdenotes.ampersand_not_mem, ← hsplit]
  refine or_iff_right ?_
  rintro ⟨other, d, behind, hsigned, heq⟩
  have hother : Denotes other d := .inr hsigned
  obtain ⟨rfl, -⟩ := Text.eq_of_append_cons_eq (fun hmem => (hdenotes.plain _ hmem).2 rfl)
    (fun hmem => (hother.plain _ hmem).2 rfl) (List.cons.inj heq).2
  exact hsigned.not_refers hrefers

/-- Decoding leaves no more characters than replacing the references alone, and fewer where there
is a code point with a plus sign. -/
theorem Replaces.length_decode_le {raw out : List Char} (hreplaces : Replaces Refers raw out) :
    (decode raw).length ≤ out.length ∧
      (HoldsSigned raw → (decode raw).length < out.length) := by
  induction hreplaces with
  | nil =>
    refine ⟨Nat.le_refl _, ?_⟩
    rintro ⟨name, c, _, hinfix⟩
    cases List.infix_nil.mp hinfix
  | @reference name rest out c hrefers _ ih =>
    rw [decode_reference hrefers, holdsSigned_reference_iff hrefers, List.length_cons,
      List.length_cons]
    exact ⟨Nat.succ_le_succ ih.1, fun hholds => Nat.succ_lt_succ (ih.2 hholds)⟩
  | @literal rest out c _ _ ih =>
    rw [List.length_cons]
    by_cases hliteral :
        ∀ name d behind, Denotes name d → c :: rest ≠ '&' :: (name ++ ';' :: behind)
    · rw [decode_literal hliteral, List.length_cons, holdsSigned_cons_iff]
      refine ⟨Nat.succ_le_succ ih.1, ?_⟩
      rintro (⟨name, d, behind, hsigned, heq⟩ | hholds)
      · exact absurd heq (hliteral name d behind (.inr hsigned))
      · exact Nat.succ_lt_succ (ih.2 hholds)
    · push Not at hliteral
      obtain ⟨name, d, behind, hdenotes, heq⟩ := hliteral
      have hrest : decode rest = name ++ [';'] ++ decode behind := by
        rw [(List.cons.inj heq).2, ← decode_append_of_not_mem hdenotes.ampersand_not_mem]
        simp
      have hle := ih.1
      rw [hrest, List.length_append, List.length_append, List.length_singleton] at hle
      rw [heq, hdenotes.decode_eq, List.length_cons]
      exact ⟨by omega, fun _ => by omega⟩

/-- Where no signed code point stands, all that has been replaced are references. -/
theorem Replaces.of_not_holdsSigned {raw out : List Char} (hreplaces : Replaces Denotes raw out)
    (hnone : ¬ HoldsSigned raw) : Replaces Refers raw out := by
  induction hreplaces with
  | nil => exact .nil
  | @reference name rest out c hdenotes _ ih =>
    obtain hrefers | hsigned := hdenotes
    · exact .reference hrefers (ih fun hholds =>
        hnone ((holdsSigned_reference_iff hrefers).mpr hholds))
    · exact absurd (holdsSigned_cons_iff.mpr (.inl ⟨name, c, rest, hsigned, rfl⟩)) hnone
  | literal hliteral _ ih =>
    exact .literal (fun name d behind hrefers => hliteral name d behind (.inl hrefers))
      (ih fun hholds => hnone (holdsSigned_cons_iff.mpr (.inr hholds)))

/-- Decoding replaces the references, and the code points with a plus sign as if they were some; it
copies every other character. A reference is replaced wherever it stands. It is the references alone
that are replaced exactly if there is no code point with a plus sign. -/
theorem decode_replaces_iff (raw : List Char) :
    (∀ out, decode raw = out ↔ Replaces Denotes raw out) ∧
      (∀ before name c behind, Denotes name c → raw = before ++ '&' :: (name ++ ';' :: behind) →
        decode raw = decode before ++ c :: decode behind) ∧
      (Replaces Refers raw (decode raw) ↔ ¬ HoldsSigned raw) := by
  refine ⟨fun out => ⟨?_, decode_eq_of_replaces⟩, ?_, ?_, ?_⟩
  · rintro rfl
    exact replaces_decode raw
  · rintro before name c behind hdenotes rfl
    rw [← hdenotes.decode_eq]
    exact scan_append_ampersand none before _
  · exact fun hreplaces hholds => Nat.lt_irrefl _ (hreplaces.length_decode_le.2 hholds)
  · exact (replaces_decode raw).of_not_holdsSigned

/-- The number sixty-five with a plus sign refers to the letter with this code point. -/
theorem refersSigned_sixtyFive : RefersSigned "#+65".toList 'A' := by
  have hsix : IsDigitOf 10 '6' 6 := ⟨by decide, .inl rfl⟩
  have hfive : IsDigitOf 10 '5' 5 := ⟨by decide, .inl rfl⟩
  exact .decimal (.more (.digit hsix) hfive)

/-- A reference before a signed code point is replaced, and so is the latter. -/
theorem decode_replaces_iff_sixtyFive :
    Denotes "#+65".toList 'A' ∧ decode "&amp;&#+65;;".toList = "&A;".toList := by
  have hdenotes : Denotes "#+65".toList 'A' := .inr refersSigned_sixtyFive
  exact ⟨hdenotes, (decode_replaces_iff _).2.1 "&amp;".toList _ 'A' [';'] hdenotes rfl⟩

/-- A text that is no reference is replaced. -/
theorem not_only_references_replaced : ¬ ∀ raw, Replaces Refers raw (decode raw) := by
  intro h
  have hholds : HoldsSigned "&#+65;".toList := ⟨_, _, refersSigned_sixtyFive, List.infix_rfl⟩
  exact Nat.lt_irrefl _ ((h _).length_decode_le.2 hholds)

end BehaviorTree.Entity
