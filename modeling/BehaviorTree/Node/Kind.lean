import BehaviorTree.Node.Application
import BehaviorTree.Node.Chain
import BehaviorTree.Node.Gather
import BehaviorTree.Node.Persist
import BehaviorTree.Node.Relabel
import BehaviorTree.Node.Repeat
import BehaviorTree.Node.Retry
import BehaviorTree.Node.SetValue
import BehaviorTree.Node.Timeout
import BehaviorTree.Node.Wait

/-!
# Node types

A kind is a node type together with its settings. This file says for every kind what a
document may set, how many children it takes, what state it keeps, how it moves, and what
an abort and a reset do to its state.
-/

namespace BehaviorTree

/-- The built-in node types and those of an application. -/
inductive Kind (κ : Type) where
  | sequence
  | selector
  | parallel (settings : ParallelSettings)
  | retry (settings : RetrySettings)
  | retryUntilSuccess (settings : PersistSettings)
  | timeout (limit : Int)
  | repeating (settings : RepeatSettings)
  | inverter
  | succeeder
  | wait (delay : Int)
  | setValue (settings : SetValueSettings)
  | alwaysSuccess
  | forceFailure
  | custom (node : κ)

/-- What a node shows of its state: the position of a chain, or a count. -/
inductive Gauge where
  | cursor (position : Nat)
  | attempt (count : Nat)
  | iteration (count : Nat)
  deriving DecidableEq

/-- What a node shows of its state, in the words of a trace. -/
def Gauge.text : Gauge → String
  | cursor position => "cursor=" ++ Number.integerText position
  | attempt count => "current_attempt=" ++ Number.integerText count
  | iteration count => "current_iteration=" ++ Number.integerText count

namespace Kind

variable {κ : Type} [Application κ]

/-- The name of a node that has not been given one. -/
def title : Kind κ → String
  | sequence => "Sequence"
  | selector => "Selector"
  | parallel _ => "Parallel"
  | retry _ => "Retry"
  | retryUntilSuccess _ => "RetryUntilSuccess"
  | timeout _ => "Timeout"
  | repeating _ => "Repeat"
  | inverter => "Inverter"
  | succeeder => "Succeeder"
  | wait _ => "Wait"
  | setValue _ => "SetBlackboardValue"
  | alwaysSuccess => "AlwaysSuccess"
  | forceFailure => "ForceFailure"
  | custom node => Application.title node

/-- The properties that a document may set, in declared order. -/
def properties : Kind κ → List Property
  | parallel _ => [⟨"SuccessThreshold", .int⟩, ⟨"FailureThreshold", .int⟩]
  | retry _ => [⟨"MaxRetries", .int⟩, ⟨"BackoffMs", .int⟩, ⟨"ExponentialBackoff", .bool⟩]
  | retryUntilSuccess _ => [⟨"NumAttempts", .int⟩, ⟨"DelayMs", .int⟩]
  | timeout _ => [⟨"TimeoutMs", .int⟩]
  | repeating _ => [⟨"Count", .int⟩, ⟨"StopOnFailure", .bool⟩]
  | wait _ => [⟨"DelayMs", .int⟩]
  | setValue _ => [⟨"Key", .string⟩, ⟨"Value", .string⟩, ⟨"ValueType", .string⟩]
  | custom node => Application.properties node
  | sequence | selector | inverter | succeeder | alwaysSuccess | forceFailure => []

/-- The kind with a property set. A key or a type that is not declared changes nothing. -/
def configure (kind : Kind κ) (key : String) (value : PropertyValue) : Kind κ :=
  match kind with
  | parallel settings =>
    match key, value with
    | "SuccessThreshold", .int n => parallel { settings with successThreshold := n }
    | "FailureThreshold", .int n => parallel { settings with failureThreshold := n }
    | _, _ => kind
  | retry settings =>
    match key, value with
    | "MaxRetries", .int n => retry { settings with maxRetries := n }
    | "BackoffMs", .int n => retry { settings with backoff := n }
    | "ExponentialBackoff", .bool b => retry { settings with exponential := b }
    | _, _ => kind
  | retryUntilSuccess settings =>
    match key, value with
    | "NumAttempts", .int n => retryUntilSuccess { settings with attempts := n }
    | "DelayMs", .int n => retryUntilSuccess { settings with delay := n }
    | _, _ => kind
  | timeout _ =>
    match key, value with
    | "TimeoutMs", .int n => timeout n
    | _, _ => kind
  | repeating settings =>
    match key, value with
    | "Count", .int n => repeating { settings with count := n }
    | "StopOnFailure", .bool b => repeating { settings with stopOnFailure := b }
    | _, _ => kind
  | wait _ =>
    match key, value with
    | "DelayMs", .int n => wait n
    | _, _ => kind
  | setValue settings =>
    match key, value with
    | "Key", .string text => setValue { settings with key := text }
    | "Value", .string text => setValue { settings with value := text }
    | "ValueType", .string text => setValue { settings with valueType := text }
    | _, _ => kind
  | custom node => custom (Application.configure node key value)
  | sequence | selector | inverter | succeeder | alwaysSuccess | forceFailure => kind

/-- A truth value as it stands among the settings of a node. -/
def boolText (value : Bool) : String := if value then "true" else "false"

/-- The present settings by name, for display. -/
def settings : Kind κ → List (String × String)
  | parallel s =>
    [("success_threshold", Number.integerText s.successThreshold),
     ("failure_threshold", Number.integerText s.failureThreshold)]
  | retry s =>
    [("max_retries", Number.integerText s.maxRetries),
     ("backoff_ms", Number.integerText s.backoff),
     ("exponential_backoff", boolText s.exponential)]
  | retryUntilSuccess s =>
    [("num_attempts", Number.integerText s.attempts), ("delay_ms", Number.integerText s.delay)]
  | timeout limit => [("timeout_ms", Number.integerText limit)]
  | repeating s =>
    [("count", Number.integerText s.count), ("stop_on_failure", boolText s.stopOnFailure)]
  | wait delay => [("delay_ms", Number.integerText delay)]
  | setValue s => [("key", s.key), ("value", s.value), ("value_type", s.valueType)]
  | custom node => Application.settings node
  | sequence | selector | inverter | succeeder | alwaysSuccess | forceFailure => []

/-- How many children a document must give. -/
def arity : Kind κ → Arity
  | sequence | selector | parallel _ => .any
  | retry _ | retryUntilSuccess _ | timeout _ | repeating _ | inverter | succeeder => .exactly 1
  | wait _ | setValue _ | alwaysSuccess | forceFailure => .exactly 0
  | custom node => Application.arity node

/-- Whether a node with so many children takes one more. -/
def admits (kind : Kind κ) (count : Nat) : Bool :=
  match kind with
  | custom node => Application.admits node count
  | kind =>
    match kind.arity with
    | .any => true
    | .exactly limit => count < limit

/-- What a node of the kind keeps between moves. -/
def State : Kind κ → Type
  | sequence | selector | retryUntilSuccess _ | repeating _ => Nat
  | wait _ => Option Nat
  | parallel _ | retry _ | timeout _ | inverter | succeeder | setValue _ => Unit
  | alwaysSuccess | forceFailure => Unit
  | custom node => Application.State node

/-- The state of a node that has never moved. -/
def initial : (kind : Kind κ) → kind.State
  | sequence | selector | retryUntilSuccess _ | repeating _ => (0 : Nat)
  | wait _ => (none : Option Nat)
  | parallel _ | retry _ | timeout _ | inverter | succeeder | setValue _ => ()
  | alwaysSuccess | forceFailure => ()
  | custom node => Application.initial node

/-- The move of a node in answer to a signal. -/
def respond : (kind : Kind κ) → Moment → kind.State → Signal → Move kind.State
  | sequence, moment, cursor, signal => Chain.respond .success moment cursor signal
  | selector, moment, cursor, signal => Chain.respond .failure moment cursor signal
  | parallel settings, _, _, signal => Gather.respond settings signal
  | retry settings, moment, _, signal => Retry.respond settings moment signal
  | retryUntilSuccess settings, moment, count, signal =>
    Persist.respond settings moment count signal
  | timeout limit, moment, _, signal => Timeout.respond limit moment signal
  | repeating settings, moment, done, signal => Repeat.respond settings moment done signal
  | inverter, moment, _, signal => Relabel.respond Status.inverted moment signal
  | succeeder, moment, _, signal => Relabel.respond Relabel.succeeded moment signal
  | wait delay, moment, begun, signal => Wait.respond delay moment begun signal
  | setValue settings, moment, _, signal => SetValue.respond settings moment signal
  | alwaysSuccess, _, _, _ => .finish () .success
  | forceFailure, _, _, _ => .finish () .failure
  | custom node, moment, state, signal => Application.respond node moment state signal

/-- The state after an abort. Counts and waits are given up, cursors stay. -/
def aborted : (kind : Kind κ) → kind.State → kind.State
  | sequence, cursor => cursor
  | selector, cursor => cursor
  | retryUntilSuccess _, _ => (0 : Nat)
  | repeating _, _ => (0 : Nat)
  | wait _, _ => (none : Option Nat)
  | parallel _, state | retry _, state | timeout _, state | inverter, state | succeeder, state
  | setValue _, state | alwaysSuccess, state | forceFailure, state => state
  | custom node, state => Application.aborted node state

/-- The state after a reset: that of a node that has never moved, unless an application
decides otherwise. -/
def restored : (kind : Kind κ) → kind.State → kind.State
  | custom node, state => Application.restored node state
  | kind, _ => kind.initial

/-- What a node shows of its state. -/
def gauge? : (kind : Kind κ) → kind.State → Option Gauge
  | sequence, cursor => some (.cursor cursor)
  | selector, cursor => some (.cursor cursor)
  | retryUntilSuccess _, count => some (.attempt count)
  | repeating _, done => some (.iteration done)
  | _, _ => none

/-- Whether abort, reset and binding a context go on to the children. -/
def relays : Kind κ → Bool
  | custom _ => false
  | _ => true

/-- How many moves are allowed where nothing else bounds them. Only a node that retries
without limit, or one of an application, can come near this number within one instant. -/
def patience : Nat := Nat.pow 2 40

/-- How many moves a node with so many children may make without waiting. Every node that
ends at all stays within its allowance. -/
def allowance (kind : Kind κ) (size : Nat) : Nat :=
  match kind with
  | sequence | selector => size + 2
  | retry settings => 2 * settings.maxRetries.toNat + 2
  | retryUntilSuccess settings =>
    if settings.attempts < 0 then patience else 2 * settings.attempts.toNat + 3
  | custom _ => patience
  | _ => 4

end Kind

end BehaviorTree
