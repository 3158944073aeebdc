import BehaviorTree.Number.Integer

/-!
# Why a document cannot be loaded

Each error names its cause with the data that its message shows.
-/

namespace BehaviorTree

/-- Why a file gives no text. -/
inductive FileError where
  | notFound
  | notDirectory
  | isDirectory
  | nameTooLong
  | badName
  | notText
  deriving DecidableEq

/-- What the operating system says of a file that cannot be read. -/
def FileError.message : FileError → String
  | notFound => "No such file or directory (os error 2)"
  | notDirectory => "Not a directory (os error 20)"
  | isDirectory => "Is a directory (os error 21)"
  | nameTooLong => "File name too long (os error 36)"
  | badName => "file name contained an unexpected NUL byte"
  | notText => "stream did not contain valid UTF-8"

/-- Why a tree cannot be loaded. A cycle is given by the tree names on the way around. -/
inductive LoadError where
  | unreadable (path : String) (reason : FileError)
  | malformed (line : Nat) (reason : String)
  | invalidRoot (name : String)
  | missingTree (available : List String)
  | emptyTree (id : String)
  | unknownNode (name : String) (available : List String)
  | childCount (node type : String) (expected found : Nat)
  | childRefused (type : String)
  | missingSubtreeId
  | subtreeNotFound (id : String) (available : List String)
  | subtreeCycle (path : List String)
  deriving DecidableEq

namespace LoadError

/-- Names with a comma between neighbours. -/
def listed (names : List String) : String := ", ".intercalate names

/-- What a failure to load a tree says to its reader. -/
def message : LoadError → String
  | unreadable path reason => "failed to read tree file " ++ path ++ ": " ++ reason.message
  | malformed line reason =>
    "malformed tree document at line " ++ Number.integerText line ++ ": " ++ reason
  | invalidRoot name =>
    "invalid root element <" ++ name ++
      ">, expected <root BTCPP_format=\"4\" main_tree_to_execute=\"TreeName\">"
  | missingTree available =>
    "no BehaviorTree found, available elements: " ++ listed available
  | emptyTree id => "BehaviorTree '" ++ id ++ "' must contain a root node"
  | unknownNode name available =>
    "unknown node type '" ++ name ++ "', available types: " ++ listed available
  | childCount node type expected found =>
    "node '" ++ node ++ "' (" ++ type ++ ") requires exactly " ++
      Number.integerText expected ++ " child element(s), found " ++ Number.integerText found
  | childRefused type => "Attempted to add too many nodes to " ++ type
  | missingSubtreeId => "SubTree element requires an ID attribute"
  | subtreeNotFound id available =>
    "SubTree '" ++ id ++ "' not found, available trees: " ++ listed available
  | subtreeCycle path =>
    "detected recursive SubTree reference: " ++ " → ".intercalate path

end LoadError

end BehaviorTree
