import BehaviorTree.Node.Application
import BehaviorTree.Text.Split

/-!
# A cast of nodes for rehearsing trees

An application with a few node types that make the behaviour of a tree visible: leaves that
follow a script, show their properties on the blackboard or look at a key, and two nodes
with children that treat them in their own way.
-/

namespace BehaviorTree

/-- The properties of a probe, one of every type. -/
structure ProbeSettings where
  /-- The property that is a text. -/
  text : String := ""
  /-- The property that is a 32-bit integer. -/
  int : Int := 0
  /-- The property that is a 64-bit integer. -/
  long : Int := 0
  /-- The property that is a floating-point number. -/
  double : Binary := Binary.zero .double false
  /-- The property that is a flag. -/
  flag : Bool := false
  /-- The property that takes any text as it is. -/
  raw : String := ""
  deriving DecidableEq

/-- The node types of the cast. -/
inductive Performer where
  /-- Follows a comma separated script, one entry for each execution, the last one for all
  further executions. -/
  | scripted (script setKey : String)
  /-- Writes its properties to the blackboard. -/
  | probe (settings : ProbeSettings)
  /-- Succeeds if a key holds a true value. It may come with a name of its own. -/
  | check (key : String) (title : String)
  /-- Executes two children in order, whatever they answer. -/
  | pair
  /-- Takes two children and never executes them. -/
  | picky
  deriving DecidableEq

/-- How often a scripted node was executed, and how many of these executions have come to
their end. -/
structure Score where
  /-- The executions that have begun. -/
  calls : Nat := 0
  /-- The executions that have come to their end. -/
  finished : Nat := 0
  deriving DecidableEq

/-- An entry of a script: a letter, and how long to sleep first. -/
structure Cue where
  /-- The letter that says what the node does. -/
  letter : String
  /-- The time to sleep before that, in milliseconds. -/
  delay : Nat
  deriving DecidableEq

namespace Cue

/-- Reads an entry. The part after an at sign is the delay in milliseconds. -/
def ofChars (cs : List Char) : Cue :=
  match cs.span (· ≠ '@') with
  | (letter, _ :: delay) =>
    ⟨String.ofList letter, (Number.readUnsigned? 10 delay).getD 0⟩
  | (letter, []) => ⟨String.ofList letter, 0⟩

/-- The entry of a script for an execution, counted from zero. -/
def ofScript (script : String) (call : Nat) : Cue :=
  let entries := Text.splitAt ',' script.toList
  ofChars ((entries[min call (entries.length - 1)]?).getD [])

/-- What an entry asks for in the end. -/
def request (cue : Cue) : Request :=
  match cue.letter with
  | "F" => .finish .failure
  | "R" => .finish .running
  | "P" => .crash
  | _ => .finish .success

end Cue

namespace Performer

/-- What a performer keeps between moves. Only one with a script has to remember how far it is. -/
def State : Performer → Type
  | scripted .. => Score
  | _ => Unit

/-- A performer that has not moved stands at the beginning of its script. -/
def initial : (node : Performer) → node.State
  | scripted .. => ({} : Score)
  | probe _ | check .. | pair | picky => ()

/-- The name of a performer that has been given none. -/
def title : Performer → String
  | scripted .. => "Scripted"
  | check _ title => title
  | _ => ""

/-- The properties that attributes can set. -/
def properties : Performer → List Property
  | scripted .. => [⟨"Script", .string⟩, ⟨"SetKey", .string⟩]
  | probe _ =>
    [⟨"Text", .string⟩, ⟨"IntValue", .int⟩, ⟨"LongValue", .long⟩, ⟨"DoubleValue", .double⟩,
     ⟨"Flag", .bool⟩, ⟨"Raw", .raw⟩]
  | check .. => [⟨"Key", .string⟩]
  | pair | picky => []

/-- Sets one property. A key that the performer does not have, or a value of another type, changes
nothing. -/
def configure (node : Performer) (key : String) (value : PropertyValue) : Performer :=
  match node, key, value with
  | scripted _ setKey, "Script", .string text => scripted text setKey
  | scripted script _, "SetKey", .string text => scripted script text
  | probe settings, "Text", .string text => probe { settings with text }
  | probe settings, "IntValue", .int n => probe { settings with int := n }
  | probe settings, "LongValue", .long n => probe { settings with long := n }
  | probe settings, "DoubleValue", .double x => probe { settings with double := x }
  | probe settings, "Flag", .bool b => probe { settings with flag := b }
  | probe settings, "Raw", .string text => probe { settings with raw := text }
  | check _ title, "Key", .string text => check text title
  | node, _, _ => node

/-- The present settings by name, for display. -/
def settings : Performer → List (String × String)
  | scripted script setKey => [("script", script), ("set_key", setKey)]
  | probe s =>
    [("text", s.text), ("int", Number.integerText s.int), ("long", Number.integerText s.long),
     ("double", Decimal.text .double s.double), ("flag", if s.flag then "true" else "false"),
     ("raw", s.raw)]
  | check key _ => [("key", key)]
  | pair | picky => []

/-- How many children a document must give. -/
def arity : Performer → Arity
  | scripted .. | probe _ | check .. => .exactly 0
  | pair => .exactly 2
  | picky => .any

/-- Whether a performer with so many children takes one more. -/
def admits (node : Performer) (count : Nat) : Bool :=
  match node with
  | scripted .. | probe _ | check .. => false
  | pair => true
  | picky => count < 2

/-- The end of an execution of a scripted node. -/
def conclude (setKey : String) (score : Score) (cue : Cue) : Move Score :=
  let finished := score.finished + 1
  { state := { score with finished }
    request := cue.request
    writes := if setKey = "" then [] else [(setKey, .integer .int32 finished)] }

/-- Begins the execution with the next entry of the script. The mark of a sleep is the number
of its entry. -/
def playNext (script setKey : String) (score : Score) : Move Score :=
  let call := score.calls
  let score := { score with calls := call + 1 }
  let cue := Cue.ofScript script call
  if cue.delay = 0 then conclude setKey score cue
  else .ask score (.sleep call cue.delay)

/-- What a probe writes. -/
def probeWrites (s : ProbeSettings) : List (String × Value) :=
  [("probe.text", .text s.text), ("probe.int", .integer .int32 s.int),
   ("probe.long", .integer .int64 s.long), ("probe.double", .double s.double),
   ("probe.flag", .bool s.flag), ("probe.raw", .text s.raw)]

/-- Executes the children of a pair in order and answers what the last one answers. -/
def runPair (size : Nat) : Signal → Move Unit
  | .started => if size = 0 then .finish () .failure else .ask () (.run 0 0)
  | .answered position status =>
    if position + 1 < size then .ask () (.run (position + 1) (position + 1))
    else .finish () status
  | _ => .finish () .failure

/-- Looks up the key of a check. -/
def runCheck (key : String) (context : Context) : Move Unit :=
  let (holds, notices) := context.getTruth key
  { state := (), request := .finish (if holds then .success else .failure), notices }

/-- The move of a performer in answer to a signal. -/
def respond : (node : Performer) → Moment → node.State → Signal → Move node.State
  | scripted script setKey, _, score, .started => playNext script setKey score
  | scripted script setKey, _, score, .woken call =>
    conclude setKey score (Cue.ofScript script call)
  | scripted .., _, score, _ => .finish score .failure
  | probe settings, _, _, _ =>
    { state := (), request := .finish .success, writes := probeWrites settings }
  | check key _, moment, _, _ => runCheck key moment.context
  | pair, moment, _, signal => runPair moment.size signal
  | picky, _, _, _ => .finish () .success

end Performer

/-- Performers are an application's own nodes. Abort and reset leave what they keep as it is. -/
instance : Application Performer where
  State := Performer.State
  initial := Performer.initial
  title := Performer.title
  properties := Performer.properties
  configure := Performer.configure
  settings := Performer.settings
  arity := Performer.arity
  admits := Performer.admits
  respond := Performer.respond
  aborted := fun _ state => state
  restored := fun _ state => state

namespace Performer

/-- The cast under the names that documents use. -/
def roles : List (String × Performer) :=
  [("Scripted", .scripted "S" ""), ("Probe", .probe {}), ("Check", .check "" ""), ("Pair", .pair),
   ("Picky", .picky)]

end Performer

end BehaviorTree
