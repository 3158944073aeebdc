import BehaviorTree.Markup.Scanner
import BehaviorTree.Proofs.Markup.Grammar

/-!
# Scanning

The scanners find the lexical parts of the grammar. Each part is looked at in both directions:
what a scanner takes off a text is such a part, and a part is taken off whatever follows it, as
long as that does not go on with the part.
-/

namespace BehaviorTree.Markup

/-! ## Characters -/

/-- The spaces of the scanners are the characters of a gap. -/
theorem isSpace_iff {c : Char} : isSpace c = true ↔ c ∈ [' ', '\t', '\r', '\n'] := by
  simp [isSpace, or_assoc]

/-- The letters of the scanners are those of the grammar. -/
theorem isAlpha_iff {c : Char} : c.isAlpha = true ↔ IsLetter c := by
  have hupper : c.isUpper = true ↔ 'A' ≤ c ∧ c ≤ 'Z' := decide_eq_true_iff
  have hlower : c.isLower = true ↔ 'a' ≤ c ∧ c ≤ 'z' :=
    Bool.and_eq_true_iff.trans (and_congr decide_eq_true_iff decide_eq_true_iff)
  have halpha : c.isAlpha = true ↔ c.isUpper = true ∨ c.isLower = true := Bool.or_eq_true_iff
  rw [halpha, hupper, hlower, or_comm, IsLetter]

/-- A name begins for the scanners where it does in the grammar. -/
theorem isNameStart_iff {c : Char} :
    isNameStart c = true ↔ IsLetter c ∨ c ∈ ['_', ':'] := by
  simp [isNameStart, isAlpha_iff, or_assoc]

/-- A name goes on for the scanners where it does in the grammar. -/
theorem isNameChar_iff {c : Char} :
    isNameChar c = true ↔ IsLetter c ∨ IsDigit c ∨ c ∈ ['_', ':', '.', '-'] := by
  simp [isNameChar, Char.isAlphanum, isAlpha_iff, IsDigit, Char.isDigit, Char.le_def, or_assoc]

/-- A text that does not begin with a character of some class. -/
def Stops (p : Char → Bool) : List Char → Prop
  | [] => True
  | c :: _ => p c = false

/-- Nothing of a class is dropped where none of it begins. -/
theorem dropWhile_of_stops {p : Char → Bool} {rest : List Char} (hrest : Stops p rest) :
    rest.dropWhile p = rest := by
  cases rest with
  | nil => rfl
  | cons c rest => rw [List.dropWhile_cons_of_neg (by simp [show p c = false from hrest])]

/-- After a class has been dropped, none of it begins. -/
theorem stops_dropWhile (p : Char → Bool) (cs : List Char) : Stops p (cs.dropWhile p) := by
  induction cs with
  | nil => trivial
  | cons c cs ih =>
    rw [List.dropWhile_cons]
    split
    · exact ih
    · next hc => simpa [Stops] using hc

/-- A run of a class is taken off whole if what follows does not go on with it. -/
theorem takeWhile_append_of_stops {p : Char → Bool} {part rest : List Char}
    (hpart : ∀ c ∈ part, p c = true) (hrest : Stops p rest) :
    (part ++ rest).takeWhile p = part ∧ (part ++ rest).dropWhile p = rest := by
  rw [List.takeWhile_append_of_pos hpart, List.dropWhile_append_of_pos hpart,
    dropWhile_of_stops hrest]
  refine ⟨?_, rfl⟩
  cases rest with
  | nil => simp
  | cons c rest => rw [List.takeWhile_cons_of_neg (by simp [show p c = false from hrest]),
      List.append_nil]

/-- What is taken of a class belongs to it. -/
theorem forall_mem_takeWhile {p : Char → Bool} {cs : List Char} :
    ∀ c ∈ cs.takeWhile p, p c = true :=
  List.all_eq_true.mp List.all_takeWhile

/-! ## Gaps and names -/

/-- A gap consists of spaces of the scanners. -/
theorem isGap_iff {text : List Char} : IsGap text ↔ ∀ c ∈ text, isSpace c = true := by
  simp only [IsGap, isSpace_iff]

/-- What is skipped as a gap is one. -/
theorem skipSpace_eq_append (cs : List Char) : ∃ gap, cs = gap ++ skipSpace cs ∧ IsGap gap :=
  ⟨cs.takeWhile isSpace, List.takeWhile_append_dropWhile.symm,
    isGap_iff.mpr forall_mem_takeWhile⟩

/-- A gap is skipped together with whatever gap follows it. -/
theorem skipSpace_gap_append {gap : List Char} (hgap : IsGap gap) (rest : List Char) :
    skipSpace (gap ++ rest) = skipSpace rest :=
  List.dropWhile_append_of_pos (isGap_iff.mp hgap)

/-- Nothing is skipped where no gap begins. -/
theorem skipSpace_of_stops {rest : List Char} (hrest : Stops isSpace rest) :
    skipSpace rest = rest :=
  dropWhile_of_stops hrest

/-- What is skipped as a required gap is one that is not empty. -/
theorem afterSpace?_eq_some {cs rest : List Char} (hspace : afterSpace? cs = some rest) :
    ∃ gap, cs = gap ++ rest ∧ gap ≠ [] ∧ IsGap gap := by
  cases cs with
  | nil => cases hspace
  | cons c cs =>
    simp only [afterSpace?] at hspace
    split at hspace
    · next hc =>
      cases hspace
      obtain ⟨gap, hcs, hgap⟩ := skipSpace_eq_append cs
      refine ⟨c :: gap, by rw [List.cons_append, ← hcs], List.cons_ne_nil _ _, ?_⟩
      intro d hd
      rcases List.mem_cons.mp hd with rfl | hd
      · exact isSpace_iff.mp hc
      · exact hgap d hd
    · cases hspace

/-- A gap that is not empty is skipped where one is required. -/
theorem afterSpace?_gap_append {gap : List Char} (hgap : IsGap gap) (hne : gap ≠ [])
    (rest : List Char) : afterSpace? (gap ++ rest) = some (skipSpace rest) := by
  cases gap with
  | nil => exact absurd rfl hne
  | cons c gap =>
    have hc : isSpace c = true := isSpace_iff.mpr (hgap c List.mem_cons_self)
    have hgap' : IsGap gap := fun d hd => hgap d (List.mem_cons_of_mem c hd)
    rw [List.cons_append, afterSpace?, if_pos hc, skipSpace_gap_append hgap']

/-- A gap is missed where none begins. -/
theorem afterSpace?_eq_none {cs : List Char} (hcs : Stops isSpace cs) : afterSpace? cs = none := by
  cases cs with
  | nil => rfl
  | cons c cs => simp [afterSpace?, show isSpace c = false from hcs]

/-- What is read as a name is a name at the beginning of the text. -/
theorem name?_eq_some {cs name rest : List Char} (hname : name? cs = some (name, rest)) :
    cs = name ++ rest ∧ IsName name := by
  cases cs with
  | nil => cases hname
  | cons c cs =>
    simp only [name?] at hname
    split at hname
    · next hc =>
      cases hname
      exact ⟨by rw [List.cons_append, List.takeWhile_append_dropWhile],
        isNameStart_iff.mp hc, fun d hd => isNameChar_iff.mp (forall_mem_takeWhile d hd)⟩
    · cases hname

/-- A name is read whole if what follows does not go on with it. -/
theorem name?_append {name rest : List Char} (hname : IsName name)
    (hrest : Stops isNameChar rest) : name? (name ++ rest) = some (name, rest) := by
  cases name with
  | nil => exact hname.elim
  | cons c name =>
    have htail := takeWhile_append_of_stops (fun d hd => isNameChar_iff.mpr (hname.2 d hd)) hrest
    rw [List.cons_append, name?, if_pos (isNameStart_iff.mpr hname.1), htail.1, htail.2]

/-- Where a name begins there is no gap and no sign of markup. -/
theorem IsName.exists_eq_cons {name : List Char} (hname : IsName name) :
    ∃ c rest, name = c :: rest ∧ isNameStart c = true ∧ isSpace c = false := by
  cases name with
  | nil => exact hname.elim
  | cons c rest =>
    refine ⟨c, rest, rfl, isNameStart_iff.mpr hname.1, ?_⟩
    rw [Bool.eq_false_iff, Ne, isSpace_iff]
    have hstart := isNameStart_iff.mpr hname.1
    intro hspace
    simp only [List.mem_cons, List.not_mem_nil, or_false] at hspace
    rcases hspace with rfl | rfl | rfl | rfl <;> exact absurd hstart (by decide)

/-! ## Parts between marks -/

/-- What follows a mark is found exactly in the texts that begin with the mark. -/
theorem after?_eq_some_iff {mark cs rest : List Char} :
    after? mark cs = some rest ↔ cs = mark ++ rest := by
  induction mark generalizing cs with
  | nil => simp [after?, eq_comm]
  | cons m mark ih =>
    cases cs with
    | nil => simp [after?]
    | cons c cs =>
      by_cases hc : m = c
      · subst hc
        simp [after?, ih]
      · simp [after?, hc, Ne.symm hc]

/-- A mark ends where it first occurs in itself. -/
theorem endsFirst_self (mark : List Char) : EndsFirst mark mark := by
  refine ⟨List.suffix_refl mark, fun before after heq => ?_⟩
  have hlength := congrArg List.length heq
  simp only [List.length_append] at hlength
  exact List.eq_nil_of_length_eq_zero (by omega)

/-- A text that begins with a mark and ends where the mark first occurs is the mark. -/
theorem EndsFirst.eq_mark {mark text rest rest' : List Char} (htext : EndsFirst mark text)
    (heq : text ++ rest = mark ++ rest') : text = mark := by
  have hprefix : mark <+: text ++ rest := ⟨rest', heq.symm⟩
  obtain ⟨after, hafter⟩ := List.prefix_of_prefix_length_le hprefix
    (List.prefix_append text rest) htext.1.length_le
  have hnil := htext.2 [] after (by rw [List.nil_append, hafter])
  rw [← hafter, hnil, List.append_nil]

/-- A text that ends where a mark first occurs still does so without its first character, unless it
is the mark. -/
theorem EndsFirst.of_cons {mark text : List Char} {c : Char} (htext : EndsFirst mark (c :: text))
    (hne : c :: text ≠ mark) : EndsFirst mark text := by
  refine ⟨?_, fun before after heq => htext.2 (c :: before) after (by rw [heq]; rfl)⟩
  exact (List.suffix_cons_iff.mp htext.1).resolve_left (Ne.symm hne)

/-- A character in front of such a text leaves it one, if the mark does not begin with it. -/
theorem EndsFirst.cons {mark text : List Char} {c : Char} (htext : EndsFirst mark text)
    (hnot : ∀ after, c :: text ≠ mark ++ after) : EndsFirst mark (c :: text) := by
  refine ⟨htext.1.trans (List.suffix_cons c text), fun before after heq => ?_⟩
  cases before with
  | nil => exact absurd heq (hnot after)
  | cons b before =>
    obtain ⟨_, heq⟩ := List.cons.inj heq
    exact htext.2 before after heq

/-- What follows the first occurrence of a mark is found exactly behind a text that ends there. -/
theorem afterFirst?_eq_some_iff {mark cs rest : List Char} (hmark : mark ≠ []) :
    afterFirst? mark cs = some rest ↔ ∃ text, cs = text ++ rest ∧ EndsFirst mark text := by
  induction cs with
  | nil =>
    rw [afterFirst?, after?_eq_some_iff]
    constructor
    · intro heq
      exact absurd (List.append_eq_nil_iff.mp heq.symm).1 hmark
    · rintro ⟨text, heq, htext⟩
      obtain ⟨rfl, rfl⟩ := List.append_eq_nil_iff.mp heq.symm
      exact absurd (List.suffix_nil.mp htext.1) hmark
  | cons c cs ih =>
    rw [afterFirst?]
    cases hafter : after? mark (c :: cs) with
    | some found =>
      have hfound := after?_eq_some_iff.mp hafter
      simp only [Option.some.injEq]
      constructor
      · rintro rfl
        exact ⟨mark, hfound, endsFirst_self mark⟩
      · rintro ⟨text, heq, htext⟩
        rw [hfound] at heq
        rw [htext.eq_mark heq.symm] at heq
        exact List.append_cancel_left heq
    | none =>
      have hnot (after : List Char) : c :: cs ≠ mark ++ after := by
        intro heq
        rw [after?_eq_some_iff.mpr heq] at hafter
        cases hafter
      simp only
      rw [ih]
      constructor
      · rintro ⟨text, rfl, htext⟩
        refine ⟨c :: text, rfl, htext.cons fun after heq => hnot (after ++ rest) ?_⟩
        rw [← List.append_assoc, ← heq, List.cons_append]
      · rintro ⟨text, heq, htext⟩
        cases text with
        | nil => exact absurd (List.suffix_nil.mp htext.1) hmark
        | cons d text =>
          obtain ⟨rfl, rfl⟩ := List.cons.inj heq
          exact ⟨text, rfl, htext.of_cons fun hself => hnot rest (by rw [← hself]; rfl)⟩

/-- What follows an enclosed text is found exactly behind one. -/
theorem afterEnclosed?_eq_some_iff {opening closing : String} {cs rest : List Char}
    (hclosing : closing.toList ≠ []) :
    afterEnclosed? opening closing cs = some rest ↔
      ∃ text, cs = text ++ rest ∧ IsEnclosed opening closing text := by
  rw [afterEnclosed?, Option.bind_eq_some_iff]
  simp only [after?_eq_some_iff, afterFirst?_eq_some_iff hclosing, IsEnclosed]
  constructor
  · rintro ⟨_, rfl, text, rfl, htext⟩
    exact ⟨opening.toList ++ text, by rw [List.append_assoc], text, rfl, htext⟩
  · rintro ⟨_, rfl, text, rfl, htext⟩
    exact ⟨text ++ rest, by rw [List.append_assoc], text, rfl, htext⟩

/-- An enclosed text begins with its opening mark. -/
theorem IsEnclosed.exists_eq_append {opening closing : String} {text : List Char}
    (htext : IsEnclosed opening closing text) : ∃ rest, text = opening.toList ++ rest :=
  htext.imp fun _ h => h.1

/-- What follows a comment is found exactly behind one. -/
theorem afterComment?_eq_some_iff {cs rest : List Char} :
    afterComment? cs = some rest ↔ ∃ text, cs = text ++ rest ∧ IsComment text :=
  afterEnclosed?_eq_some_iff (by decide)

/-- What follows an instruction is found exactly behind one. -/
theorem afterInstruction?_eq_some_iff {cs rest : List Char} :
    afterInstruction? cs = some rest ↔ ∃ text, cs = text ++ rest ∧ IsInstruction text :=
  afterEnclosed?_eq_some_iff (by decide)

/-- What follows a character data section is found exactly behind one. -/
theorem afterCharacterData?_eq_some_iff {cs rest : List Char} :
    afterCharacterData? cs = some rest ↔ ∃ text, cs = text ++ rest ∧ IsCharacterData text :=
  afterEnclosed?_eq_some_iff (by decide)

/-- What follows a document type declaration is found exactly behind one. -/
theorem afterDoctype?_eq_some_iff {cs rest : List Char} :
    afterDoctype? cs = some rest ↔ ∃ text, cs = text ++ rest ∧ IsDoctype text :=
  afterEnclosed?_eq_some_iff (by decide)

/-! ## Parts without elements -/

/-- Skips text up to where markup begins. -/
def skipRun (cs : List Char) : List Char := cs.dropWhile (· ≠ '<')

/-- What is skipped as text is a run without markup that is not empty. -/
theorem afterText?_eq_some {cs rest : List Char} (htext : afterText? cs = some rest) :
    ∃ run, cs = run ++ rest ∧ run ≠ [] ∧ '<' ∉ run := by
  cases cs with
  | nil => cases htext
  | cons c cs =>
    simp only [afterText?] at htext
    split at htext
    · cases htext
    · next hc =>
      cases htext
      refine ⟨c :: cs.takeWhile (· ≠ '<'),
        by rw [List.cons_append, List.takeWhile_append_dropWhile], List.cons_ne_nil _ _, ?_⟩
      intro hmem
      rcases List.mem_cons.mp hmem with heq | hmem
      · exact hc heq.symm
      · simpa using forall_mem_takeWhile _ hmem

/-- A run of text is skipped together with whatever text follows it. -/
theorem skipRun_append {run : List Char} (hrun : '<' ∉ run) (rest : List Char) :
    skipRun (run ++ rest) = skipRun rest := by
  refine List.dropWhile_append_of_pos fun c hc => ?_
  rw [decide_eq_true_eq]
  rintro rfl
  exact hrun hc

/-- A run of text that is not empty is skipped where text is required. -/
theorem afterText?_append {run : List Char} (hne : run ≠ []) (hrun : '<' ∉ run)
    (rest : List Char) : afterText? (run ++ rest) = some (skipRun rest) := by
  cases run with
  | nil => exact absurd rfl hne
  | cons c run =>
    have hc : c ≠ '<' := fun heq => hrun (heq ▸ List.mem_cons_self)
    rw [List.cons_append, afterText?, if_neg hc]
    exact congrArg some (skipRun_append (fun hmem => hrun (List.mem_cons_of_mem c hmem)) rest)

/-- What is skipped between elements is a filler. -/
theorem afterFiller?_eq_some {cs rest : List Char} (hfiller : afterFiller? cs = some rest) :
    ∃ text, cs = text ++ rest ∧ IsFiller text := by
  simp only [afterFiller?, Option.or_eq_some_iff] at hfiller
  rcases hfiller with h | ⟨_, h | ⟨_, h | ⟨_, h⟩⟩⟩
  · exact (afterComment?_eq_some_iff.mp h).imp fun _ h => ⟨h.1, .comment h.2⟩
  · exact (afterCharacterData?_eq_some_iff.mp h).imp fun _ h => ⟨h.1, .characterData h.2⟩
  · exact (afterInstruction?_eq_some_iff.mp h).imp fun _ h => ⟨h.1, .instruction h.2⟩
  · exact (afterText?_eq_some h).imp fun _ h => ⟨h.1, .run h.2.1 h.2.2⟩

/-- What is skipped around the root element is a part that may stand there. -/
theorem afterMiscPart?_eq_some {cs rest : List Char} (hpart : afterMiscPart? cs = some rest) :
    ∃ text, cs = text ++ rest ∧ IsMiscPart text := by
  simp only [afterMiscPart?, Option.or_eq_some_iff] at hpart
  rcases hpart with h | ⟨_, h | ⟨_, h | ⟨_, h⟩⟩⟩
  · exact (afterSpace?_eq_some h).imp fun _ h => ⟨h.1, .gap h.2.1 h.2.2⟩
  · exact (afterComment?_eq_some_iff.mp h).imp fun _ h => ⟨h.1, .comment h.2⟩
  · exact (afterInstruction?_eq_some_iff.mp h).imp fun _ h => ⟨h.1, .instruction h.2⟩
  · exact (afterDoctype?_eq_some_iff.mp h).imp fun _ h => ⟨h.1, .doctype h.2⟩

/-! ## What begins where -/

/-- Where something else than markup begins, no part between marks does. -/
theorem afterEnclosed?_of_ne {opening closing : String} {mark : List Char} {c : Char}
    (hopening : opening.toList = '<' :: mark) (hc : c ≠ '<') (rest : List Char) :
    afterEnclosed? opening closing (c :: rest) = none := by
  rw [afterEnclosed?, hopening, after?, if_neg (Ne.symm hc), Option.bind_none]

/-- Where an element begins, no part between marks does. -/
theorem afterEnclosed?_of_isNameStart {opening closing : String} {mark : List Char} {m c : Char}
    (hopening : opening.toList = '<' :: m :: mark) (hm : isNameStart m = false)
    (hc : isNameStart c = true) (rest : List Char) :
    afterEnclosed? opening closing ('<' :: c :: rest) = none := by
  have hne : m ≠ c := by
    rintro rfl
    rw [hm] at hc
    cases hc
  rw [afterEnclosed?, hopening, after?, if_pos rfl, after?, if_neg hne, Option.bind_none]

/-- A run of text is skipped between elements together with whatever text follows it. -/
theorem afterFiller?_run_append {run : List Char} (hne : run ≠ []) (hrun : '<' ∉ run)
    (rest : List Char) : afterFiller? (run ++ rest) = some (skipRun rest) := by
  have htext := afterText?_append hne hrun rest
  cases run with
  | nil => exact absurd rfl hne
  | cons c run =>
    have hc : c ≠ '<' := fun heq => hrun (heq ▸ List.mem_cons_self)
    rw [List.cons_append] at htext ⊢
    rw [afterFiller?, afterComment?, afterEnclosed?_of_ne rfl hc, afterCharacterData?,
      afterEnclosed?_of_ne rfl hc, afterInstruction?, afterEnclosed?_of_ne rfl hc, htext]
    rfl

/-- A gap around the root element is skipped together with whatever gap follows it. -/
theorem afterMiscPart?_gap_append {gap : List Char} (hne : gap ≠ []) (hgap : IsGap gap)
    (rest : List Char) : afterMiscPart? (gap ++ rest) = some (skipSpace rest) := by
  rw [afterMiscPart?, afterSpace?_gap_append hgap hne, Option.some_or]

/-- A filler is a run of text, or it is markup that is taken off as a whole. -/
theorem IsFiller.run_or_markup {text : List Char} (htext : IsFiller text) :
    (text ≠ [] ∧ '<' ∉ text) ∨
      ∃ c inner, text = '<' :: c :: inner ∧ isNameStart c = false ∧
        ∀ rest, afterFiller? (text ++ rest) = some rest := by
  cases htext with
  | run hne hrun => exact Or.inl ⟨hne, hrun⟩
  | comment h =>
    obtain ⟨inner, heq⟩ := h.exists_eq_append
    refine Or.inr ⟨'!', '-' :: '-' :: inner, heq, rfl, fun rest => ?_⟩
    rw [afterFiller?, afterComment?_eq_some_iff.mpr ⟨text, rfl, h⟩, Option.some_or]
  | characterData h =>
    obtain ⟨inner, heq⟩ := h.exists_eq_append
    refine Or.inr ⟨'!', _, heq, rfl, fun rest => ?_⟩
    have hcomment : afterComment? (text ++ rest) = none := by rw [heq]; rfl
    rw [afterFiller?, hcomment, afterCharacterData?_eq_some_iff.mpr ⟨text, rfl, h⟩,
      Option.none_or, Option.some_or]
  | instruction h =>
    obtain ⟨inner, heq⟩ := h.exists_eq_append
    refine Or.inr ⟨'?', inner, heq, rfl, fun rest => ?_⟩
    have hcomment : afterComment? (text ++ rest) = none := by rw [heq]; rfl
    have hdata : afterCharacterData? (text ++ rest) = none := by rw [heq]; rfl
    rw [afterFiller?, hcomment, hdata, afterInstruction?_eq_some_iff.mpr ⟨text, rfl, h⟩,
      Option.none_or, Option.none_or, Option.some_or]

/-- A part around the root element is a gap, or it is markup that is taken off as a whole. -/
theorem IsMiscPart.gap_or_markup {text : List Char} (htext : IsMiscPart text) :
    (text ≠ [] ∧ IsGap text) ∨
      ∃ inner, text = '<' :: inner ∧ ∀ rest, afterMiscPart? (text ++ rest) = some rest := by
  cases htext with
  | gap hne hgap => exact Or.inl ⟨hne, hgap⟩
  | comment h =>
    obtain ⟨inner, heq⟩ := h.exists_eq_append
    refine Or.inr ⟨_, heq, fun rest => ?_⟩
    have hspace : afterSpace? (text ++ rest) = none := by rw [heq]; rfl
    rw [afterMiscPart?, hspace, afterComment?_eq_some_iff.mpr ⟨text, rfl, h⟩, Option.none_or,
      Option.some_or]
  | instruction h =>
    obtain ⟨inner, heq⟩ := h.exists_eq_append
    refine Or.inr ⟨_, heq, fun rest => ?_⟩
    have hspace : afterSpace? (text ++ rest) = none := by rw [heq]; rfl
    have hcomment : afterComment? (text ++ rest) = none := by rw [heq]; rfl
    rw [afterMiscPart?, hspace, hcomment, afterInstruction?_eq_some_iff.mpr ⟨text, rfl, h⟩,
      Option.none_or, Option.none_or, Option.some_or]
  | doctype h =>
    obtain ⟨inner, heq⟩ := h.exists_eq_append
    refine Or.inr ⟨_, heq, fun rest => ?_⟩
    have hspace : afterSpace? (text ++ rest) = none := by rw [heq]; rfl
    have hcomment : afterComment? (text ++ rest) = none := by rw [heq]; rfl
    have hinstruction : afterInstruction? (text ++ rest) = none := by rw [heq]; rfl
    rw [afterMiscPart?, hspace, hcomment, hinstruction,
      afterDoctype?_eq_some_iff.mpr ⟨text, rfl, h⟩]
    rfl

/-- Where an element begins, no part that may stand around the root element does. -/
theorem afterMiscPart?_of_isNameStart {c : Char} (hc : isNameStart c = true)
    (rest : List Char) : afterMiscPart? ('<' :: c :: rest) = none := by
  have hspace : afterSpace? ('<' :: c :: rest) = none := rfl
  rw [afterMiscPart?, hspace, afterComment?, afterEnclosed?_of_isNameStart rfl rfl hc,
    afterInstruction?, afterEnclosed?_of_isNameStart rfl rfl hc, afterDoctype?,
    afterEnclosed?_of_isNameStart rfl rfl hc]
  rfl

/-! ## Attributes -/

/-- A quoted value begins with a character that is no space. -/
theorem DerivesValue.exists_eq_cons {quoted value : List Char}
    (hvalue : DerivesValue quoted value) :
    ∃ c rest, quoted = c :: rest ∧ isSpace c = false := by
  cases hvalue with
  | double _ => exact ⟨'"', _, rfl, rfl⟩
  | single _ => exact ⟨'\'', _, rfl, rfl⟩

/-- What stands before the first occurrence of a character, and what stands from there on. -/
theorem dropWhile_ne_append {quote : Char} {raw : List Char} (hraw : quote ∉ raw)
    (rest : List Char) :
    (raw ++ quote :: rest).takeWhile (· ≠ quote) = raw ∧
      (raw ++ quote :: rest).dropWhile (· ≠ quote) = quote :: rest := by
  refine takeWhile_append_of_stops (fun c hc => ?_) (by simp [Stops])
  rw [decide_eq_true_eq]
  rintro rfl
  exact hraw hc

/-- A value that is quoted in any way is read, with its references decoded. -/
theorem quotedValue_append {quoted value : List Char} (hvalue : DerivesValue quoted value)
    (rest : List Char) : quotedValue (quoted ++ rest) = .ok (value, rest) := by
  cases hvalue with
  | double hraw =>
    obtain ⟨htake, hdrop⟩ := dropWhile_ne_append hraw rest
    simp only [List.cons_append, List.append_assoc, List.nil_append, quotedValue, htake, hdrop]
  | single hraw =>
    obtain ⟨htake, hdrop⟩ := dropWhile_ne_append hraw rest
    simp only [List.cons_append, List.append_assoc, List.nil_append, quotedValue, htake, hdrop]

/-- A text in which a character occurs, cut at its first occurrence. -/
theorem eq_append_of_dropWhile_ne {quote c : Char} {cs rest : List Char}
    (hdrop : cs.dropWhile (· ≠ quote) = c :: rest) :
    cs = cs.takeWhile (· ≠ quote) ++ quote :: rest ∧ quote ∉ cs.takeWhile (· ≠ quote) := by
  have hstops := stops_dropWhile (· ≠ quote) cs
  rw [hdrop] at hstops
  have hc : c = quote := by simpa [Stops] using hstops
  subst hc
  refine ⟨by rw [← hdrop, List.takeWhile_append_dropWhile], fun hmem => ?_⟩
  simpa using forall_mem_takeWhile _ hmem

/-- What is read as a value is a quoted text with this value. -/
theorem quotedValue_eq_ok {cs value rest : List Char}
    (hquoted : quotedValue cs = .ok (value, rest)) :
    ∃ quoted, cs = quoted ++ rest ∧ DerivesValue quoted value := by
  unfold quotedValue at hquoted
  split at hquoted
  · next inner =>
    split at hquoted
    · next hdrop =>
      cases hquoted
      obtain ⟨heq, hraw⟩ := eq_append_of_dropWhile_ne hdrop
      refine ⟨_, ?_, .double hraw⟩
      rw [List.cons_append, List.append_assoc]
      exact congrArg _ heq
    · cases hquoted
  · next inner =>
    split at hquoted
    · next hdrop =>
      cases hquoted
      obtain ⟨heq, hraw⟩ := eq_append_of_dropWhile_ne hdrop
      refine ⟨_, ?_, .single hraw⟩
      rw [List.cons_append, List.append_assoc]
      exact congrArg _ heq
    · cases hquoted
  · cases hquoted

end BehaviorTree.Markup
