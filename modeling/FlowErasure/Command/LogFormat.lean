/-!
# Log formats
-/

namespace FlowErasure.Command

inductive LogFormat where
  | text
  | tree
  | json
  deriving DecidableEq, Repr, Inhabited

namespace LogFormat

def label : LogFormat → String
  | .text => "Text"
  | .tree => "Tree"
  | .json => "Json"

/-- The format with a given name, in letters of either case; any other name is plain text. -/
def ofName (name : String) : LogFormat :=
  match String.ofList (name.toList.map Char.toLower) with
  | "tree" => .tree
  | "json" => .json
  | _ => .text

end LogFormat

end FlowErasure.Command
