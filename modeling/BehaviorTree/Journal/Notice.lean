import BehaviorTree.Status
import BehaviorTree.Number.Integer

/-!
# Notices

What the program reports to its operator. A notice has a level, a fixed message and a few
named fields that hold text.
-/

namespace BehaviorTree

/-- How much a notice matters. -/
inductive Level where
  | info
  | warn
  | error
  deriving DecidableEq

/-- The name of a level in a log. -/
def Level.text : Level → String
  | info => "INFO"
  | warn => "WARN"
  | error => "ERROR"

/-- Everything that is reported, by occasion. -/
inductive Notice where
  /-- A document has been read from a file. -/
  | fileRead
  | treeLoading (tree : String)
  | treeLoaded (tree : String)
  | unexpectedFormat (format : String)
  | mainTreeUnnamed
  | mainTreeMissing (requested : String)
  | treeRedefined (id : String)
  | childrenIgnored (node : String) (count : Nat)
  | remapIgnored (subtree : String)
  | propertyRejected (node : String) (reason : String)
  | valueNotConverted (key : String)
  | agentSectionIgnored
  | statusChanged (tree : String) (status : Status) (tick : Nat)
  | abortingTree (tree : String)
  | retriesExhausted (node : String) (limit : Int)
  | retrySucceeded (node : String) (attempt : Nat)
  | retryGaveUp (node : String) (limit : Int)
  | timedOut (node : String) (limit : Int)
  | childTaskFailed (node : String)
  | childHeld (node : String)
  | repeatStopped (node : String) (iteration : Nat)
  | keyMissing (node : String)
  | valueTypeUnknown (node : String) (type : String)
  | valueRejected (node key type value : String)
  deriving DecidableEq

namespace Notice

/-- Losses and odd documents are warnings, a broken child task is an error, and the usual course of
things is information. -/
def level : Notice → Level
  | fileRead | treeLoading _ | treeLoaded _ | statusChanged .. | abortingTree _
  | retrySucceeded .. => .info
  | childTaskFailed _ => .error
  | _ => .warn

/-- A notice in the words of a log. -/
def message : Notice → String
  | fileRead => "read behavior tree file"
  | treeLoading _ => "loading behavior tree"
  | treeLoaded _ => "behavior tree loaded"
  | unexpectedFormat _ => "unexpected BTCPP_format, version 4 is recommended"
  | mainTreeUnnamed =>
    "main_tree_to_execute attribute is missing, using the first BehaviorTree"
  | mainTreeMissing _ => "main tree not found, using the first BehaviorTree"
  | treeRedefined _ => "duplicate BehaviorTree ID, using the last definition"
  | childrenIgnored .. => "node takes no children, ignoring child elements"
  | remapIgnored _ => "SubTree remapping is not supported, remap elements are ignored"
  | propertyRejected .. => "failed to set property"
  | valueNotConverted _ => "failed to convert context value"
  | agentSectionIgnored => "ignoring malformed Agent section in config"
  | statusChanged .. => "tree status changed"
  | abortingTree _ => "aborting tree"
  | retriesExhausted .. => "retry failed after all attempts"
  | retrySucceeded .. => "retry-until-success succeeded"
  | retryGaveUp .. => "retry-until-success gave up"
  | timedOut .. => "timeout exceeded, aborting child"
  | childTaskFailed _ => "timeout child task failed"
  | childHeld _ => "child is still held by a detached execution, not re-initialized"
  | repeatStopped .. => "repeat stopped by failure"
  | keyMissing _ => "no key to set"
  | valueTypeUnknown .. => "unknown value type"
  | valueRejected .. => "could not convert value"

/-- The named fields, numbers in decimal. -/
def fields : Notice → List (String × String)
  | fileRead | mainTreeUnnamed | agentSectionIgnored => []
  | treeLoading tree | treeLoaded tree | abortingTree tree => [("tree", tree)]
  | unexpectedFormat format => [("btcpp_format", format)]
  | mainTreeMissing requested => [("requested", requested)]
  | treeRedefined id => [("id", id)]
  | childrenIgnored node count => [("node", node), ("count", Number.integerText count)]
  | remapIgnored subtree => [("subtree", subtree)]
  | propertyRejected node reason => [("node", node), ("error", reason)]
  | valueNotConverted key => [("key", key)]
  | statusChanged tree status tick =>
    [("tree", tree), ("status", status.text), ("tick", Number.integerText tick)]
  | retriesExhausted node limit | retryGaveUp node limit =>
    [("node", node), ("max", Number.integerText limit)]
  | retrySucceeded node attempt => [("node", node), ("attempt", Number.integerText attempt)]
  | timedOut node limit => [("node", node), ("timeout_ms", Number.integerText limit)]
  | childTaskFailed node | childHeld node | keyMissing node => [("node", node)]
  | repeatStopped node iteration =>
    [("node", node), ("iteration", Number.integerText iteration)]
  | valueTypeUnknown node type => [("node", node), ("value_type", type)]
  | valueRejected node key type value =>
    [("node", node), ("key", key), ("value_type", type), ("value", value)]

end Notice

end BehaviorTree
