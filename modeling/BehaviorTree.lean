import BehaviorTree.Document.Load
import BehaviorTree.Json.Reader
import BehaviorTree.Rehearsal.Cast
import BehaviorTree.Schedule.Session
import BehaviorTree.Tree.Build
import BehaviorTree.Proofs.Number.Numeral
import BehaviorTree.Proofs.Text.Trim
import BehaviorTree.Proofs.Context.StringForm
import BehaviorTree.Proofs.Context.Placeholder
import BehaviorTree.Proofs.Document.Definitions
import BehaviorTree.Proofs.Document.MainTree
import BehaviorTree.Proofs.Document.Mentions
import BehaviorTree.Proofs.Document.Visit
import BehaviorTree.Proofs.Document.Cycle
import BehaviorTree.Proofs.Document.CycleAlarm
import BehaviorTree.Proofs.Document.Inlining
import BehaviorTree.Proofs.Markup.Grammar
import BehaviorTree.Proofs.Markup.Scanning
import BehaviorTree.Proofs.Markup.Acceptance
import BehaviorTree.Proofs.Tree.Turn
import BehaviorTree.Proofs.Tree.Stage
import BehaviorTree.Proofs.Node.Budget
import BehaviorTree.Proofs.Tree.Control
import BehaviorTree.Proofs.Journal.Milestones
import BehaviorTree.Proofs.Tree.Answers
import BehaviorTree.Proofs.Node.Discipline
import BehaviorTree.Proofs.Schedule.Foreground
import BehaviorTree.Proofs.Schedule.Resumption
import BehaviorTree.Proofs.Node.Overlap
import BehaviorTree.Proofs.Tree.SideBySide
import BehaviorTree.Proofs.Tree.ChildrenInvariant
import BehaviorTree.Proofs.Tree.Binding
import BehaviorTree.Proofs.Schedule.MemoryInvariant
import BehaviorTree.Proofs.Schedule.Renewal
import BehaviorTree.Proofs.Tree.Beginning
import BehaviorTree.Proofs.Tree.Blank
import BehaviorTree.Proofs.Schedule.Reset
import BehaviorTree.Proofs.Tree.Duality
import BehaviorTree.Proofs.Schedule.RoundBound
import BehaviorTree.Proofs.Schedule.Simulation
import BehaviorTree.Proofs.Schedule.Duality
import BehaviorTree.Proofs.Markup.Rendering
import BehaviorTree.Proofs.Tree.JournalRelation
import BehaviorTree.Proofs.Tree.Writing
import BehaviorTree.Proofs.Schedule.Blackboard
import BehaviorTree.Proofs.Tree.Parts
import BehaviorTree.Proofs.Tree.Walk
import BehaviorTree.Proofs.Tree.Flattening
import BehaviorTree.Proofs.Tree.Nesting
import BehaviorTree.Proofs.Schedule.Flattening
import BehaviorTree.Proofs.Tree.Calls
import BehaviorTree.Proofs.Tree.Numbering
import BehaviorTree.Proofs.Schedule.Calling
import BehaviorTree.Proofs.Schedule.Numbering
import BehaviorTree.Proofs.Tree.Race
import BehaviorTree.Proofs.Schedule.ForegroundWait
import BehaviorTree.Proofs.Schedule.Detached
import BehaviorTree.Proofs.Schedule.Race
import BehaviorTree.Proofs.Document.Listing
import BehaviorTree.Proofs.Document.Setter
import BehaviorTree.Proofs.Document.Shape
import BehaviorTree.Proofs.Tree.Preorder
import BehaviorTree.Proofs.Tree.Passage
import BehaviorTree.Proofs.Schedule.Passage
import BehaviorTree.Proofs.Tree.Sharing
import BehaviorTree.Proofs.Document.Assembly
import BehaviorTree.Proofs.Schedule.Sharing
import BehaviorTree.Proofs.Tree.WorldRelation
import BehaviorTree.Proofs.Tree.Footprint
import BehaviorTree.Proofs.Tree.Effect
import BehaviorTree.Proofs.Tree.Repetition
import BehaviorTree.Proofs.Tree.Independence
import BehaviorTree.Proofs.Schedule.Commuting
import BehaviorTree.Proofs.Node.RequestCost
import BehaviorTree.Proofs.Tree.PendingCalls
import BehaviorTree.Proofs.Tree.RemainingCost
import BehaviorTree.Proofs.Tree.DueTimers
import BehaviorTree.Proofs.Tree.ChildTurnCost
import BehaviorTree.Proofs.Tree.Quota
import BehaviorTree.Proofs.Schedule.Quota
import BehaviorTree.Proofs.Tree.ChildEvents
import BehaviorTree.Proofs.Tree.Exchanges
import BehaviorTree.Proofs.Tree.Tick
import BehaviorTree.Proofs.Tree.OnePass
import BehaviorTree.Proofs.Tree.Conclusion
import BehaviorTree.Proofs.Tree.Retrying
import BehaviorTree.Proofs.Tree.Iteration
import BehaviorTree.Proofs.Tree.TwoRetries
import BehaviorTree.Proofs.Schedule.History
import BehaviorTree.Proofs.Tree.ChildHistory
import BehaviorTree.Proofs.Tree.Gathering
import BehaviorTree.Proofs.Schedule.Gathering
import BehaviorTree.Proofs.Tree.Waiting
import BehaviorTree.Proofs.Node.Setting
import BehaviorTree.Proofs.Document.Attributes
import BehaviorTree.Proofs.Context.Substitution
import BehaviorTree.Proofs.Text.Split
import BehaviorTree.Proofs.Markup.Decoding
import BehaviorTree.Proofs.Markup.Progress
import BehaviorTree.Proofs.Markup.Failing
import BehaviorTree.Proofs.Json.Ordered
import BehaviorTree.Proofs.Context.ConfigPath
import BehaviorTree.Proofs.Context.IntegerForm
import BehaviorTree.Proofs.Document.Index
import BehaviorTree.Proofs.Text.Uppercase
import BehaviorTree.Proofs.Property.Spelling
