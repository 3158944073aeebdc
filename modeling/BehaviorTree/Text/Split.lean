/-!
# Splitting at a separator

The parts of a list of characters between the occurrences of a separator, empty ones
included, so that there is always one part more than there are separators.
-/

namespace BehaviorTree.Text

/-- The parts between the occurrences of a separator. -/
def splitAt (separator : Char) : List Char → List (List Char)
  | [] => [[]]
  | c :: rest =>
    if c = separator then [] :: splitAt separator rest
    else
      match splitAt separator rest with
      | [] => [[c]]
      | first :: others => (c :: first) :: others

end BehaviorTree.Text
