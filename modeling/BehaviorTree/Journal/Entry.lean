import BehaviorTree.Journal.Notice
import BehaviorTree.Node.Kind

/-!
# The journal

A journal lists what happened in order: the events in the life of the nodes and the notices
for the operator. Each entry carries its time and the position of the node it is about,
relative to the tree that the journal belongs to.
-/

namespace BehaviorTree

/-- A position in a tree: the child indices that lead to it from the root. -/
abbrev Path := List Nat

/-- What happens to a node, named as it was called at that time. -/
inductive Event where
  | renamed (old new : String)
  | bound (node : String)
  | configured (node key : String) (value : PropertyValue) (settings : List (String × String))
  | adopted (node child : String)
  | refused (node child : String)
  /-- A child that a node refused is not used. -/
  | dropped (node : String)
  | entered (node : String)
  | exited (node : String) (status : Status) (gauge : Option Gauge)
  | abortBegun (node : String)
  | abortDone (node : String) (gauge : Option Gauge)
  | resetBegun (node : String)
  | resetDone (node : String) (gauge : Option Gauge)
  deriving DecidableEq

namespace Event

/-- A gauge with a blank before it, or nothing. -/
def gaugeText : Option Gauge → String
  | some gauge => " " ++ gauge.text
  | none => ""

/-- The settings of a node as a text, with commas between them. -/
def settingsText (settings : List (String × String)) : String :=
  ",".intercalate (settings.map fun setting => setting.1 ++ "=" ++ setting.2)

/-- An event as a line of a trace tells it. -/
def text : Event → String
  | renamed old new => "rename " ++ old ++ " to " ++ new
  | bound node => "init " ++ node
  | configured node key value settings =>
    "prop " ++ node ++ " " ++ key ++ "=" ++ value.type.text ++ ":" ++ value.text ++ " -> " ++
      settingsText settings
  | adopted node child => "child " ++ node ++ " " ++ child ++ " ok"
  | refused node child => "child " ++ node ++ " " ++ child ++ " TooManyNodes"
  | dropped node => "refused " ++ node ++ " (Attempted to add too many nodes)"
  | entered node => "enter " ++ node
  | exited node status gauge => "exit " ++ node ++ " " ++ status.text ++ gaugeText gauge
  | abortBegun node => "abort " ++ node
  | abortDone node gauge => "aborted " ++ node ++ gaugeText gauge
  | resetBegun node => "reset " ++ node
  | resetDone node gauge => "done-reset " ++ node ++ gaugeText gauge

end Event

/-- An event or a notice. -/
inductive Happening where
  | event (event : Event)
  | notice (notice : Notice)
  deriving DecidableEq

/-- Something that happened at a node: when, where, and what. -/
structure Entry where
  /-- The time in milliseconds. -/
  time : Nat
  /-- The position of the node. -/
  path : Path
  /-- The event or notice. -/
  happening : Happening
  deriving DecidableEq

/-- The entry of something that happens below the child with this index, seen from above. -/
def Entry.under (index : Nat) (entry : Entry) : Entry := { entry with path := index :: entry.path }

/-- What happened, in order. -/
abbrev Journal := List Entry

namespace Journal

/-- The events as lines of text, each with its time in milliseconds. -/
def trace (journal : Journal) : List String :=
  journal.filterMap fun entry =>
    match entry.happening with
    | .event event => some (Number.integerText entry.time ++ " " ++ event.text)
    | .notice _ => none

/-- The notices in order. -/
def notices (journal : Journal) : List Notice :=
  journal.filterMap fun entry =>
    match entry.happening with
    | .event _ => none
    | .notice notice => some notice

end Journal

end BehaviorTree
