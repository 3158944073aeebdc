import BehaviorTree.Node.Move

/-!
# Time limits

A timeout runs its child as a task of its own and answers what the child answers, unless the
limit comes first. Then it asks the child to abort and fails at once; the task is left to
end by itself. A limit that is not positive comes first always.
-/

namespace BehaviorTree.Timeout

/-- The machine of a timeout. It races its child against the limit, and asks it to abort if the
limit comes first. -/
def respond (limit : Int) (moment : Moment) : Signal → Move Unit
  | .started => if moment.size = 0 then .finish () .failure else .ask () (.race 0 limit.toNat)
  | .joined (some status) => .finish () status
  | .joined none => .report () (.childTaskFailed moment.name) .failure
  | .expired => ⟨(), .abortChild 0, [.timedOut moment.name limit], []⟩
  | _ => .finish () .failure

end BehaviorTree.Timeout
