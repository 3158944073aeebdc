import BehaviorTree.Proofs.Journal.Milestones
import BehaviorTree.Proofs.Tree.JournalRelation
import BehaviorTree.Proofs.Tree.Answers
import BehaviorTree.Proofs.Tree.Binding

/-!
# Who writes to the blackboard

Of the built-in nodes only setters write, and only in executions that succeed. So the journal tells
what becomes of the shared context: an entry for the success of a setter puts the setter's value
under its key, and no other entry means a change (`Tree.Follows`). This is right about every turn of
a tree of built-in nodes whose nodes share the context (`Tree.isAccounted`).
-/

namespace BehaviorTree

/-! ## What a setter stores -/

namespace SetValue

/-- The names of the types in lower case. -/
def typeNames : List (String × ValueType) :=
  [("string", .text), ("bool", .bool), ("int", .integer .int32), ("double", .double)]

/-- Each name of a type is known in lower case. -/
theorem mem_typeNames_of_typeNamed? {name : String} {type : ValueType}
    (hnamed : typeNamed? name = some type) : (Text.lowercase name, type) ∈ typeNames := by
  unfold typeNamed? at hnamed
  split at hnamed <;> next hname => simp_all [typeNames]

/-- A text is converted to the type that is asked for. -/
theorem type_of_convert? {type : ValueType} {text : String} {value : Value}
    (hvalue : convert? type text = some value) : value.type = type := by
  unfold convert? at hvalue
  split at hvalue
  · cases hvalue
    rfl
  · obtain ⟨word, -, rfl⟩ := Option.map_eq_some_iff.mp hvalue
    rfl
  · unfold ValueType.read? at hvalue
    split at hvalue
    · cases hvalue
      rfl
    · split at hvalue
      · cases hvalue
        rfl
      · split at hvalue <;> cases hvalue
        rfl
    · obtain ⟨number, -, rfl⟩ := Option.map_eq_some_iff.mp hvalue
      rfl
    · obtain ⟨number, -, rfl⟩ := Option.map_eq_some_iff.mp hvalue
      rfl
    · obtain ⟨number, -, rfl⟩ := Option.map_eq_some_iff.mp hvalue
      rfl
    all_goals cases hvalue

end SetValue

/-- A setter makes one context into another: it has a key, its type is one that a setter knows, its
text with the placeholders filled in converts to a value of this type, and the value is put under
the key. -/
structure SetValueSettings.Stores (settings : SetValueSettings) (value : Value)
    (before after : Context) : Prop where
  /-- The key is not empty. -/
  key_ne : settings.key ≠ ""
  /-- The type is one that a setter knows. -/
  named : (Text.lowercase settings.valueType, value.type) ∈ SetValue.typeNames
  /-- The text with the placeholders filled in converts to the value. -/
  converted : SetValue.convert? value.type (before.resolvePlaceholders settings.value) = some value
  /-- The value is put under the key, and nothing else is changed. -/
  set_eq : after = before.set settings.key value

namespace SetValue

/-- The first move of a setter succeeds and stores a value, or it fails and stores nothing. -/
theorem execute_cases (settings : SetValueSettings) (moment : Moment) :
    (∃ value, execute settings moment = ⟨(), .finish .success, [], [(settings.key, value)]⟩ ∧
        settings.Stores value moment.context (moment.context.set settings.key value)) ∨
      ∃ notice, execute settings moment = .report () notice .failure := by
  unfold execute
  dsimp only
  split
  · exact .inr ⟨_, rfl⟩
  · next hkey =>
    split
    · exact .inr ⟨_, rfl⟩
    · next type hnamed =>
      split
      · next value hvalue =>
        have htype := type_of_convert? hvalue
        subst htype
        exact .inl ⟨value, rfl, hkey, mem_typeNames_of_typeNamed? hnamed, hvalue, rfl⟩
      · exact .inr ⟨_, rfl⟩

end SetValue

/-! ## What the journal tells -/

variable {κ : Type}

/-- The settings of the setter whose success an entry reports. -/
def Tree.setBy? (tree : Tree κ) (entry : Entry) : Option SetValueSettings :=
  match entry.happening, tree.at? entry.path with
  | .event (.exited _ .success _), some ⟨_, .setValue settings, _⟩ => some settings
  | _, _ => none

/-- What a journal makes of a context. -/
inductive Tree.Follows (tree : Tree κ) : Context → Journal → Context → Prop
  | done (context : Context) : tree.Follows context [] context
  | still {before after : Context} {entry : Entry} {journal : Journal}
      (hentry : tree.setBy? entry = none) (hrest : tree.Follows before journal after) :
      tree.Follows before (entry :: journal) after
  | stored {before between after : Context} {entry : Entry} {journal : Journal}
      {settings : SetValueSettings} {value : Value} (hentry : tree.setBy? entry = some settings)
      (hstores : settings.Stores value before between)
      (hrest : tree.Follows between journal after) :
      tree.Follows before (entry :: journal) after

namespace Tree.Follows

variable {tree : Tree κ} {before between after : Context} {first rest journal : Journal}

/-- What two journals make of a context is what the second makes of what the first has made of
it. -/
theorem append (hfirst : tree.Follows before first between)
    (hrest : tree.Follows between rest after) : tree.Follows before (first ++ rest) after := by
  induction hfirst with
  | done context => exact hrest
  | still hentry _ ih => exact .still hentry (ih hrest)
  | stored hentry hstores _ ih => exact .stored hentry hstores (ih hrest)

/-- A journal that tells of no setter leaves the context as it is. -/
theorem quiet (hjournal : ∀ entry ∈ journal, tree.setBy? entry = none) (context : Context) :
    tree.Follows context journal context := by
  induction journal with
  | nil => exact .done context
  | cons entry journal ih =>
    exact .still (hjournal entry List.mem_cons_self)
      (ih fun other hmem => hjournal other (List.mem_cons_of_mem _ hmem))

/-- A key that is there stays there. -/
theorem isSome_get? (hfollows : tree.Follows before journal after) (key : String)
    (hkey : (before.get? key).isSome) : (after.get? key).isSome := by
  induction hfollows with
  | done context => exact hkey
  | still hentry _ ih => exact ih hkey
  | stored hentry hstores _ ih =>
    refine ih ?_
    rw [hstores.set_eq, Context.get?_set]
    split
    · rfl
    · exact hkey

/-- Only a setter with a key changes what is under the key, and the last of them decides. -/
theorem changed (hfollows : tree.Follows before journal after) (key : String) :
    after.get? key = before.get? key ∨
      ∃ first entry rest settings value middle later, journal = first ++ entry :: rest ∧
        tree.setBy? entry = some settings ∧ settings.key = key ∧
        tree.Follows before first middle ∧ settings.Stores value middle later ∧
        tree.Follows later rest after ∧ after.get? key = some value := by
  induction hfollows with
  | done context => exact .inl rfl
  | @still before after entry journal hentry hrest ih =>
    refine ih.imp_right ?_
    rintro ⟨first, other, rest, settings, value, middle, later, rfl, hset, hkey, hfirst, hstores,
      hlater, hget⟩
    exact ⟨entry :: first, other, rest, settings, value, middle, later, rfl, hset, hkey,
      .still hentry hfirst, hstores, hlater, hget⟩
  | @stored before between after entry journal settings value hentry hstores hrest ih =>
    obtain hsame | ⟨first, other, rest, others, last, middle, later, rfl, hset, hkey, hfirst, hlast,
      hlater, hget⟩ := ih
    · rw [hstores.set_eq, Context.get?_set] at hsame
      split at hsame
      · next hkey =>
        exact .inr ⟨[], entry, journal, settings, value, before, between, rfl, hentry, hkey.symm,
          .done before, hstores, hrest, hsame⟩
      · exact .inl hsame
    · exact .inr ⟨entry :: first, other, rest, others, last, middle, later, rfl, hset, hkey,
        .stored hentry hstores hfirst, hlast, hlater, hget⟩

end Tree.Follows

/-! ## The children's journals -/

/-- A position inside a child is one in the tree with that index. -/
theorem Tree.below?_eq (trees : List (Tree κ)) (index : Nat) (path : Path) :
    Tree.below? trees index path = (trees[index]?).bind (·.at? path) := by
  induction trees generalizing index with
  | nil => rfl
  | cons tree trees ih =>
    cases index with
    | zero => rw [Tree.below?, List.getElem?_cons_zero, Option.bind_some]
    | succ index => rw [Tree.below?, ih, List.getElem?_cons_succ]

/-- Seen from the parent, an entry reports the success of the same setter. -/
theorem Tree.setBy?_under {name : String} {kind : Kind κ} {children : List (Tree κ)} {index : Nat}
    {child : Tree κ} (hchild : children[index]? = some child) (entry : Entry) :
    Tree.setBy? ⟨name, kind, children⟩ (entry.under index) = child.setBy? entry := by
  have hat : Tree.at? ⟨name, kind, children⟩ (entry.under index).path = child.at? entry.path := by
    rw [Entry.under, Tree.at?, Tree.below?_eq, hchild, Option.bind_some]
  rw [Tree.setBy?, hat]
  rfl

/-- Seen from the parent, a journal makes the same of a context. -/
theorem Tree.Follows.under {name : String} {kind : Kind κ} {children : List (Tree κ)} {index : Nat}
    {child : Tree κ} (hchild : children[index]? = some child) {before after : Context}
    {journal : Journal} (hfollows : child.Follows before journal after) :
    Tree.Follows ⟨name, kind, children⟩ before (journal.map (·.under index)) after := by
  induction hfollows with
  | done context => exact .done context
  | still hentry _ ih => exact .still ((Tree.setBy?_under hchild _).trans hentry) ih
  | stored hentry hstores _ ih =>
    exact .stored ((Tree.setBy?_under hchild _).trans hentry) hstores ih

/-! ## Turns of a node -/

/-- A notice reports the success of no setter. -/
theorem Tree.setBy?_noticeAt (tree : Tree κ) (now : Nat) (notice : Notice) :
    tree.setBy? (noticeAt now notice) = none := rfl

/-- The journal of the tree tells what becomes of the context with a number. -/
def Tree.account (tree : Tree κ) (id : Nat) : Account where
  tells := fun before journal after => ∀ context, before[id]? = some context →
    ∃ later, after[id]? = some later ∧ tree.Follows context journal later
  still := fun _ context hcontext => ⟨context, hcontext, .done context⟩
  append := by
    intro before first between rest after hfirst hrest context hcontext
    obtain ⟨middle, hmiddle, hfollows⟩ := hfirst context hcontext
    obtain ⟨later, hlater, hothers⟩ := hrest middle hmiddle
    exact ⟨later, hlater, hfollows.append hothers⟩
  notices := by
    intro contexts now notices context hcontext
    refine ⟨context, hcontext, .quiet (fun entry hmem => ?_) context⟩
    obtain ⟨notice, -, rfl⟩ := List.mem_map.mp hmem
    exact tree.setBy?_noticeAt now notice

/-- A journal that reports no success of a setter leaves the contexts as they are. -/
theorem Tree.tells_quiet {tree : Tree κ} {journal : Journal}
    (hjournal : ∀ entry ∈ journal, tree.setBy? entry = none) (id : Nat) (contexts : List Context) :
    (tree.account id).tells contexts journal contexts :=
  fun context hcontext => ⟨context, hcontext, .quiet hjournal context⟩

/-- The journal of a child tells no less, seen from its parent. -/
theorem Tree.tells_under {name : String} {kind : Kind κ} {children : List (Tree κ)}
    {id index : Nat} {child : Tree κ} (hchild : children[index]? = some child)
    {before after : List Context} {journal : Journal}
    (htells : (child.account id).tells before journal after) :
    (Tree.account ⟨name, kind, children⟩ id).tells before (journal.map (·.under index)) after := by
  intro context hcontext
  obtain ⟨later, hlater, hfollows⟩ := htells context hcontext
  exact ⟨later, hlater, hfollows.under hchild⟩

/-- A journal without milestones tells of no setter. -/
theorem Tree.setBy?_of_milestones (tree : Tree κ) {journal : Journal}
    (hnone : Journal.milestones journal = []) : ∀ entry ∈ journal, tree.setBy? entry = none := by
  intro entry hmem
  have hentry := List.filterMap_eq_nil_iff.mp hnone entry hmem
  obtain ⟨time, path, happening⟩ := entry
  cases happening with
  | notice notice => rfl
  | event event =>
    cases event with
    | exited node status gauge => cases hentry
    | _ => rfl

variable [Application κ]

/-! ### Nodes that write nothing -/

/-- A chain writes nothing. -/
theorem Chain.writes_respond (passed : Status) (moment : Moment) (cursor : Nat) (signal : Signal) :
    (Chain.respond passed moment cursor signal).writes = [] := by
  unfold Chain.respond Chain.proceed
  repeat' split
  all_goals rfl

/-- A retry node writes nothing. -/
theorem Retry.writes_respond (settings : RetrySettings) (moment : Moment) (signal : Signal) :
    (Retry.respond settings moment signal).writes = [] := by
  unfold Retry.respond Retry.attempt
  repeat' split
  all_goals rfl

/-- A node that retries until success writes nothing. -/
theorem Persist.writes_respond (settings : PersistSettings) (moment : Moment) (count : Nat)
    (signal : Signal) : (Persist.respond settings moment count signal).writes = [] := by
  unfold Persist.respond Persist.attempt Persist.giveUp
  repeat' split
  all_goals rfl

/-- A timeout writes nothing. -/
theorem Timeout.writes_respond (limit : Int) (moment : Moment) (signal : Signal) :
    (Timeout.respond limit moment signal).writes = [] := by
  unfold Timeout.respond
  repeat' split
  all_goals rfl

/-- A repeat node writes nothing. -/
theorem Repeat.writes_respond (settings : RepeatSettings) (moment : Moment) (done : Nat)
    (signal : Signal) : (Repeat.respond settings moment done signal).writes = [] := by
  unfold Repeat.respond
  repeat' split
  all_goals rfl

/-- A node that relabels the status of its child writes nothing. -/
theorem Relabel.writes_respond (image : Status → Status) (moment : Moment) (signal : Signal) :
    (Relabel.respond image moment signal).writes = [] := by
  unfold Relabel.respond
  repeat' split
  all_goals rfl

/-- A wait writes nothing. -/
theorem Wait.writes_respond (delay : Int) (moment : Moment) (begun : Option Nat)
    (signal : Signal) : (Wait.respond delay moment begun signal).writes = [] := by
  unfold Wait.respond
  repeat' split
  all_goals rfl

/-- A built-in node writes nothing, unless it is a setter that begins an execution. -/
theorem Kind.writes_respond {kind : Kind κ} (hrelays : kind.relays) (moment : Moment)
    (state : kind.State) {signal : Signal}
    (hsignal : ∀ settings, kind = .setValue settings → signal ≠ .started) :
    (kind.respond moment state signal).writes = [] := by
  cases kind with
  | sequence => exact Chain.writes_respond .success moment state signal
  | selector => exact Chain.writes_respond .failure moment state signal
  | parallel settings => cases signal <;> rfl
  | retry settings => exact Retry.writes_respond settings moment signal
  | retryUntilSuccess settings => exact Persist.writes_respond settings moment state signal
  | timeout limit => exact Timeout.writes_respond limit moment signal
  | repeating settings => exact Repeat.writes_respond settings moment state signal
  | inverter => exact Relabel.writes_respond Status.inverted moment signal
  | succeeder => exact Relabel.writes_respond Relabel.succeeded moment signal
  | wait delay => exact Wait.writes_respond delay moment state signal
  | setValue settings =>
    cases signal with
    | started => exact absurd rfl (hsignal settings rfl)
    | _ => rfl
  | alwaysSuccess => rfl
  | forceFailure => rfl
  | custom node => cases hrelays

/-! ### Setters -/

section

variable {μ : Type} (crew : Crew μ) (name : String) (settings : SetValueSettings) (size : Nat)

/-- A setter that begins an execution answers success and stores a value, or it answers failure and
stores nothing. -/
theorem Crew.turn_setter (cell : Cell (Kind.setValue settings : Kind κ).State) (below : μ)
    (world : World) :
    (∃ value, settings.Stores value (world.context cell.binding)
        ((world.context cell.binding).set settings.key value) ∧
      crew.turn name (.setValue settings : Kind κ) size none cell below world =
        { result := .answered .success
          memory := (⟨(), (world.write cell.binding [(settings.key, value)]).2⟩, below)
          world := (world.write cell.binding [(settings.key, value)]).1 }) ∨
      ∃ notice, crew.turn name (.setValue settings : Kind κ) size none cell below world =
        { result := .answered .failure
          memory := (⟨(), cell.binding⟩, below)
          world
          journal := [noticeAt world.now notice] } := by
  have hturn := crew.drive_signal name (.setValue settings : Kind κ) size 3 .started cell below
    world
  obtain ⟨value, hmove, hstores⟩ | ⟨notice, hmove⟩ :=
    SetValue.execute_cases settings ⟨name, size, world.now, world.context cell.binding⟩
  · refine .inl ⟨value, hstores, hturn.trans ?_⟩
    dsimp only [Kind.respond, SetValue.respond]
    rw [hmove, Crew.serve, Crew.drive_stop]
    rfl
  · refine .inr ⟨notice, hturn.trans ?_⟩
    dsimp only [Kind.respond, SetValue.respond]
    rw [hmove, Move.report, World.write_nil, Crew.serve, Crew.drive_stop]
    rfl

/-- A setter that goes on with an execution does not succeed. -/
theorem Crew.turn_setter_some (run : Run) (cell : Cell (Kind.setValue settings : Kind κ).State)
    (below : μ) (world : World) :
    (crew.turn name (.setValue settings : Kind κ) size (some run) cell below world).result ≠
      .answered .success := by
  have hgoesOn := crew.goesOn_recheck run below world
  rw [Crew.turn, Progress.andThen_eq, Progress.result_after]
  generalize crew.recheck run below world = checked at hgoesOn ⊢
  cases hreply : checked.result with
  | stop outcome =>
    rw [Crew.drive_stop]
    rintro rfl
    rw [hreply] at hgoesOn
    exact hgoesOn
  | signal signal =>
    have hfailure : (Kind.setValue settings : Kind κ).respond
        ⟨name, size, checked.world.now, checked.world.context cell.binding⟩ cell.state signal =
          .finish () .failure := by
      rw [hreply] at hgoesOn
      cases signal with
      | started => exact absurd rfl hgoesOn
      | _ => rfl
    have hallowance : (Kind.setValue settings : Kind κ).allowance size = 3 + 1 := rfl
    rw [hallowance, Crew.drive_signal, hfailure]
    dsimp only [Move.finish]
    rw [World.write_nil, Crew.serve, Crew.drive_stop]
    intro hsucceeds
    cases hsucceeds

end

/-! ## Turns of a tree -/

/-- Whichever turn is had in a tree whose nodes share the context with a number, the journal tells
what becomes of that context. -/
def Tree.IsAccounted (tree : Tree κ) (id : Nat) : Prop :=
  ∀ path run (memory : Memory tree) world, memory.IsBoundTo id →
    (tree.account id).tells world.contexts (advanceAt tree path run memory world).journal
      (advanceAt tree path run memory world).world.contexts

section

variable {id : Nat} {name : String} {kind : Kind κ} {children : List (Tree κ)}

/-- There is no child with the index, or its journal tells what becomes of the context. -/
theorem told_advanceIn {trees : List (Tree κ)} (htrees : ∀ tree ∈ trees, tree.IsAccounted id)
    (index : Nat) (path : Path) (run : Option Run) {below : Memories trees} {world : World}
    (hbound : below.AreBoundTo id) :
    let progress := advanceAt.advanceIn trees index path run below world
    (progress.journal = [] ∧ progress.world = world) ∨
      ∃ child, trees[index]? = some child ∧
        (child.account id).tells world.contexts progress.journal progress.world.contexts := by
  induction trees generalizing index with
  | nil =>
    cases below
    rw [advanceAt.advanceIn]
    exact .inl ⟨rfl, rfl⟩
  | cons tree trees ih =>
    cases below with
    | cons first rest =>
      cases index with
      | zero =>
        rw [advanceAt.advanceIn]
        exact .inr ⟨tree, rfl, htrees tree List.mem_cons_self path run first world hbound.1⟩
      | succ index =>
        rw [advanceAt.advanceIn]
        exact ih (fun tree hmem => htrees tree (List.mem_cons_of_mem _ hmem)) index hbound.2

/-- The journal of a turn inside a child tells of its writes, seen from the parent. -/
theorem told_under (hchildren : ∀ tree ∈ children, tree.IsAccounted id) (index : Nat) (path : Path)
    (run : Option Run) {below : Memories children} {world : World} (hbound : below.AreBoundTo id) :
    let progress := (advanceAt.advanceIn children index path run below world).under index
    (Tree.account ⟨name, kind, children⟩ id).tells world.contexts progress.journal
      progress.world.contexts := by
  intro progress
  obtain ⟨hjournal, hworld⟩ | ⟨child, hchild, htells⟩ :=
    told_advanceIn hchildren index path run hbound
  · have hnone : progress.journal = [] := congrArg (List.map (Entry.under index)) hjournal
    have hsame : progress.world = world := hworld
    rw [hnone, hsame]
    exact Account.still _ _
  · exact Tree.tells_under hchild htells

/-- What the children do is told, seen from their parent. -/
theorem accounts_crewOf (hchildren : ∀ tree ∈ children, tree.IsAccounted id) :
    (crewOf children).Accounts (Tree.account ⟨name, kind, children⟩ id)
      (Memories.AreBoundTo id) where
  advance := by
    intro index run below world hbound
    have hstays : ∀ tree ∈ children, tree.StaysBound id world.contexts.length :=
      fun tree _ => staysBound id _ tree
    have htold := @told_under _ _ id name kind children hchildren index [] run below world hbound
    rw [advanceIn_nil] at htold
    exact ⟨(bound_advanceChild hstays index run hbound rfl).1, htold⟩
  sideBySide := ⟨children.length, advanceAll_eq children⟩
  abort := by
    intro now index below contexts hbound
    refine ⟨hbound.abortChild now index, Tree.tells_quiet (Tree.setBy?_of_milestones _ ?_) id _⟩
    rw [Journal.milestones_map_under]
    exact congrArg (List.map (Milestone.under index))
      (milestones_abortChild now children index below)
  reset := by
    intro now index below contexts hbound
    refine ⟨hbound.resetChild now index, Tree.tells_quiet (Tree.setBy?_of_milestones _ ?_) id _⟩
    rw [Journal.milestones_map_under]
    exact congrArg (List.map (Milestone.under index))
      (milestones_resetChild now children index below)

end

omit [Application κ] in
/-- Each of several trees of built-in nodes is one itself. -/
theorem Tree.isBuiltIn_of_mem {children : List (Tree κ)} (hchildren : Tree.AreBuiltIn children) :
    ∀ tree ∈ children, tree.IsBuiltIn := by
  induction children with
  | nil => exact List.forall_mem_nil _
  | cons first rest ih =>
    intro tree hmem
    cases hmem with
    | head => exact hchildren.1
    | tail _ hmem => exact ih hchildren.2 tree hmem

/-- The entry for the end of an execution tells of no setter, unless a setter succeeds. -/
theorem Tree.setBy?_exitEntry {name : String} {kind : Kind κ} {children : List (Tree κ)} {μ : Type}
    {progress : Progress Outcome (Cell kind.State × μ)}
    (hresult : ∀ settings, kind = .setValue settings → progress.result ≠ .answered .success) :
    ∀ entry ∈ exitEntry name kind progress,
      Tree.setBy? ⟨name, kind, children⟩ entry = none := by
  intro entry hmem
  unfold exitEntry at hmem
  split at hmem
  · next status hanswered =>
    rw [List.mem_singleton] at hmem
    subst hmem
    cases kind with
    | setValue settings =>
      have hstatus := hresult settings rfl
      rw [hanswered] at hstatus
      cases status with
      | success => exact absurd rfl hstatus
      | _ => rfl
    | _ => cases status <;> rfl
  · cases hmem

omit [Application κ] in
/-- The entry for the beginning of an execution reports the success of no setter. -/
theorem Tree.setBy?_entryOf (tree : Tree κ) (name : String) (run : Option Run) (world : World) :
    ∀ entry ∈ entryOf name run world, tree.setBy? entry = none := by
  intro entry hmem
  cases run with
  | none =>
    rw [entryOf, List.mem_singleton] at hmem
    subst hmem
    rfl
  | some run => cases hmem

section

variable {id : Nat} {name : String} {children : List (Tree κ)} {below : Memories children}
  {world : World}

/-- A turn in which no setter begins an execution at the root. -/
theorem Tree.tells_advance_of_writes {kind : Kind κ} {run : Option Run} {cell : Cell kind.State}
    (hrelays : kind.relays) (hchildren : ∀ tree ∈ children, tree.IsAccounted id)
    (hbelow : below.AreBoundTo id)
    (hsetter : ∀ settings, kind = .setValue settings → run ≠ none) :
    (Tree.account ⟨name, kind, children⟩ id).tells world.contexts
      (advance ⟨name, kind, children⟩ run (.node cell below) world).journal
      (advance ⟨name, kind, children⟩ run (.node cell below) world).world.contexts := by
  have hcrew := @accounts_crewOf _ _ id name kind children hchildren
  have hturn := @Crew.Accounts.turn _ _ _ _ _ _ below world hcrew name kind
    (fun moment state signal hsignal =>
      Kind.writes_respond hrelays moment state fun _ _ => hsignal) children.length run
    (fun hrun moment state =>
      Kind.writes_respond hrelays moment state fun settings hkind =>
        absurd hrun (hsetter settings hkind)) cell hbelow
  have hresult : ∀ settings, kind = .setValue settings →
      (turnOf name kind children run cell below world).result ≠ .answered .success := by
    rintro settings rfl
    cases run with
    | none => exact absurd rfl (hsetter settings rfl)
    | some run => exact Crew.turn_setter_some _ name settings _ run cell below world
  rw [advance_eq]
  have hentry := Tree.tells_quiet
    (Tree.setBy?_entryOf ⟨name, kind, children⟩ name run world) id world.contexts
  have hexit := Tree.tells_quiet (@Tree.setBy?_exitEntry _ _ name kind children _ _ hresult) id
    (turnOf name kind children run cell below world).world.contexts
  have hdriven := (Tree.account ⟨name, kind, children⟩ id).append hentry hturn.tells
  exact (Tree.account ⟨name, kind, children⟩ id).append hdriven hexit

/-- The journal of a turn in which a setter begins tells what it stores. -/
theorem Tree.tells_advance_setter {settings : SetValueSettings}
    {cell : Cell (Kind.setValue settings : Kind κ).State} (hbinding : cell.binding = .shared id) :
    (Tree.account ⟨name, .setValue settings, children⟩ id).tells world.contexts
      (advance ⟨name, .setValue settings, children⟩ none (.node cell below) world).journal
      (advance ⟨name, .setValue settings, children⟩ none (.node cell below) world).world.contexts
      := by
  intro context hcontext
  rw [advance_eq, Crew.turnOf_eq]
  obtain ⟨value, hstores, hturn⟩ | ⟨notice, hturn⟩ :=
    (crewOf children).turn_setter name settings children.length cell below world
  · rw [hturn, hbinding]
    have hfound : world.context cell.binding = context := by
      rw [hbinding, World.context, hcontext]
      rfl
    rw [hfound] at hstores
    refine ⟨context.set settings.key value, ?_, ?_⟩
    · simp [World.write, World.modifyContext, hcontext, Context.setAll]
    · exact .still rfl (.stored rfl hstores (.done _))
  · rw [hturn]
    exact ⟨context, hcontext, .still rfl (.still rfl (.still rfl (.done context)))⟩

end

/-- Whichever turn is had in a tree of built-in nodes, the journal tells what becomes of the context
that the nodes share. -/
theorem Tree.isAccounted (id : Nat) (tree : Tree κ) (hbuiltIn : tree.IsBuiltIn) :
    tree.IsAccounted id := by
  induction tree using Tree.nodeInduction with
  | node name kind children ih =>
    intro path run memory world hbound
    have hchildren : ∀ tree ∈ children, tree.IsAccounted id := fun tree hmem =>
      ih tree hmem (Tree.isBuiltIn_of_mem hbuiltIn.2 tree hmem)
    cases memory with
    | node cell below =>
      cases path with
      | nil =>
        rw [advanceAt_nil]
        by_cases hsetter : ∃ settings, kind = .setValue settings ∧ run = none
        · obtain ⟨settings, rfl, rfl⟩ := hsetter
          exact Tree.tells_advance_setter hbound.1
        · exact Tree.tells_advance_of_writes hbuiltIn.1 hchildren hbound.2
            fun settings hkind hrun => hsetter ⟨settings, hkind, hrun⟩
      | cons index path =>
        rw [advanceAt]
        exact told_under hchildren index path run hbound.2

end BehaviorTree
