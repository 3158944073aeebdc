import BehaviorTree.Proofs.Tree.Writing

/-!
# What a tree reads and writes

Of the built-in nodes only setters look at the blackboard. A setter reads the keys that the tokens
of its text name, and the configuration for a token that may be a path into it; it writes its own
key. The move of a built-in node depends on nothing else of the blackboard (`Kind.respond_congr`),
and it writes nothing else (`Kind.mem_written_of_mem_writes`).
-/

namespace BehaviorTree

namespace Placeholder

/-- The tokens that substitution looks up in a list of characters. After an opening brace the token
so far is carried along, last character first. -/
def tokens : Option (List Char) → List Char → List String
  | _, [] => []
  | none, c :: rest => if c = '\x7b' then tokens (some []) rest else tokens none rest
  | some token, c :: rest =>
    if c = '\x7d' then String.ofList token.reverse :: tokens none rest
    else tokens (some (c :: token)) rest

/-- Substitution looks nothing else up. -/
theorem scan_congr {lookup other : String → Option String} (carried : Option (List Char))
    (cs : List Char) (hsame : ∀ token ∈ tokens carried cs, lookup token = other token) :
    scan lookup carried cs = scan other carried cs := by
  induction cs generalizing carried with
  | nil => cases carried <;> rfl
  | cons c rest ih =>
    cases carried with
    | none =>
      rw [tokens] at hsame
      rw [scan, scan]
      split
      · next hopen =>
        rw [if_pos hopen] at hsame
        exact ih (some []) hsame
      · next hopen =>
        rw [if_neg hopen] at hsame
        rw [ih none hsame]
    | some token =>
      rw [tokens] at hsame
      rw [scan, scan]
      split
      · next hclose =>
        rw [if_pos hclose, List.forall_mem_cons] at hsame
        have hrest := ih none hsame.2
        rw [expand, expand, hsame.1, hrest]
      · next hclose =>
        rw [if_neg hclose] at hsame
        exact ih (some (c :: token)) hsame

end Placeholder

namespace Context

/-- The keys whose values may stand for a token. -/
def tokenKeys (token : String) : List String :=
  if (configPath? token).isSome then [token, configKey] else [token]

/-- The keys that filling in the placeholders of a text reads. -/
def textKeys (text : String) : List String :=
  (Placeholder.tokens none text.toList).flatMap tokenKeys

/-- Two contexts have the same under some keys. -/
def Agrees (keys : List String) (context other : Context) : Prop :=
  ∀ key ∈ keys, other.get? key = context.get? key

variable {context other : Context}

/-- Contexts that agree on some keys do so on fewer. -/
theorem Agrees.mono {keys fewer : List String} (hagrees : context.Agrees keys other)
    (hfewer : fewer ⊆ keys) : context.Agrees fewer other :=
  fun key hmem => hagrees key (hfewer hmem)

/-- A token stands for the same in contexts that agree on its keys. -/
theorem lookupToken?_of_agrees {token : String} (hagrees : context.Agrees (tokenKeys token) other) :
    other.lookupToken? token = context.lookupToken? token := by
  have htoken : other.get? token = context.get? token := by
    refine hagrees token ?_
    rw [tokenKeys]
    split <;> simp
  rw [lookupToken?, lookupToken?, getString?, getString?, htoken]
  cases hpath : configPath? token with
  | none => rfl
  | some path =>
    have hconfig : other.get? configKey = context.get? configKey := by
      refine hagrees configKey ?_
      rw [tokenKeys, hpath]
      simp
    rw [Option.bind_some, Option.bind_some, configValue?, configValue?, config?, config?, hconfig]

/-- Filling in the placeholders gives the same in contexts that agree on the keys of the text. -/
theorem resolvePlaceholders_of_agrees {text : String}
    (hagrees : context.Agrees (textKeys text) other) :
    other.resolvePlaceholders text = context.resolvePlaceholders text := by
  have hlookup : ∀ token ∈ Placeholder.tokens none text.toList,
      other.lookupToken? token = context.lookupToken? token := by
    intro token hmem
    refine lookupToken?_of_agrees (hagrees.mono fun key hkey => ?_)
    exact List.mem_flatMap.mpr ⟨token, hmem, hkey⟩
  rw [resolvePlaceholders, resolvePlaceholders, Placeholder.substitute, Placeholder.substitute,
    Placeholder.scan_congr none text.toList hlookup]

/-- The same writes on both sides leave the contexts in agreement. -/
theorem Agrees.setAll {keys : List String} (hagrees : context.Agrees keys other)
    (writes : List (String × Value)) :
    (context.setAll writes).Agrees keys (other.setAll writes) := by
  induction writes generalizing context other with
  | nil => exact hagrees
  | cons write writes ih =>
    refine ih fun key hmem => ?_
    rw [get?_set, get?_set, hagrees key hmem]

/-- What is written to other keys does not show. -/
theorem get?_setAll_of_notMem {key : String} {writes : List (String × Value)}
    (hother : ∀ write ∈ writes, write.1 ≠ key) :
    (context.setAll writes).get? key = context.get? key := by
  induction writes generalizing context with
  | nil => rfl
  | cons write writes ih =>
    obtain ⟨hfirst, hrest⟩ := List.forall_mem_cons.mp hother
    have hset : (context.set write.1 write.2).get? key = context.get? key := by
      rw [get?_set, if_neg (Ne.symm hfirst)]
    exact (ih hrest).trans hset

end Context

/-! ## Nodes -/

variable {κ : Type}

/-- The keys that a node reads. -/
def Kind.read : Kind κ → List String
  | .setValue settings => Context.textKeys settings.value
  | _ => []

/-- The keys that a node writes. -/
def Kind.written : Kind κ → List String
  | .setValue settings => [settings.key]
  | _ => []

mutual

/-- The keys that the nodes of a tree read. -/
def Tree.read : Tree κ → List String
  | ⟨_, kind, children⟩ => kind.read ++ Tree.readByAll children

/-- The keys that the nodes of several trees read. -/
def Tree.readByAll : List (Tree κ) → List String
  | [] => []
  | tree :: trees => tree.read ++ Tree.readByAll trees

end

mutual

/-- The keys that the nodes of a tree write. -/
def Tree.written : Tree κ → List String
  | ⟨_, kind, children⟩ => kind.written ++ Tree.writtenByAll children

/-- The keys that the nodes of several trees write. -/
def Tree.writtenByAll : List (Tree κ) → List String
  | [] => []
  | tree :: trees => tree.written ++ Tree.writtenByAll trees

end

variable [Application κ]

/-- What a setter does depends on the keys that its text reads. -/
theorem SetValue.respond_congr (settings : SetValueSettings) {name : String} {size now : Nat}
    {context other : Context} (hagrees : context.Agrees (Context.textKeys settings.value) other)
    (signal : Signal) :
    SetValue.respond settings ⟨name, size, now, other⟩ signal =
      SetValue.respond settings ⟨name, size, now, context⟩ signal := by
  cases signal with
  | started =>
    rw [SetValue.respond, SetValue.respond, SetValue.execute, SetValue.execute,
      Context.resolvePlaceholders_of_agrees hagrees]
  | _ => rfl

/-- The move of a built-in node depends on nothing of the blackboard but what it reads. -/
theorem Kind.respond_congr {kind : Kind κ} (hrelays : kind.relays) {name : String} {size now : Nat}
    {context other : Context} (hagrees : context.Agrees kind.read other) (state : kind.State)
    (signal : Signal) :
    kind.respond ⟨name, size, now, other⟩ state signal =
      kind.respond ⟨name, size, now, context⟩ state signal := by
  cases kind with
  | setValue settings => exact SetValue.respond_congr settings hagrees signal
  | custom node => cases hrelays
  | _ => rfl

/-- A built-in node writes nothing but its own key. -/
theorem Kind.mem_written_of_mem_writes {kind : Kind κ} (hrelays : kind.relays) {moment : Moment}
    {state : kind.State} {signal : Signal} {write : String × Value}
    (hmem : write ∈ (kind.respond moment state signal).writes) : write.1 ∈ kind.written := by
  by_cases hsetter : ∃ settings, kind = .setValue settings ∧ signal = .started
  · obtain ⟨settings, rfl, rfl⟩ := hsetter
    have hcases := SetValue.execute_cases settings moment
    rcases hcases with ⟨value, hmove, -⟩ | ⟨notice, hmove⟩
    · rw [Kind.respond, SetValue.respond, hmove, List.mem_singleton] at hmem
      rw [hmem]
      exact List.mem_singleton_self _
    · rw [Kind.respond, SetValue.respond, hmove] at hmem
      cases hmem
  · have hnone : (kind.respond moment state signal).writes = [] :=
      Kind.writes_respond hrelays moment state fun settings hkind hstarted =>
        hsetter ⟨settings, hkind, hstarted⟩
    rw [hnone] at hmem
    cases hmem

end BehaviorTree
