/-!
# File names

A path is a sequence of names divided by slashes. Empty names and single dots in it mean nothing.
-/

namespace FlowErasure.Command

/-- The parts of a path between its slashes. -/
def splitPath (path : List Char) : List (List Char) :=
  path.foldr
    (fun c parts =>
      if c = '/' then [] :: parts
      else
        match parts with
        | [] => [[c]]
        | part :: parts => (c :: part) :: parts)
    [[]]

/-- The names in a path. -/
def pathNames (path : List Char) : List (List Char) :=
  (splitPath path).filter fun name => !name.isEmpty && name != ['.']

/-- The last name in a path, if it names a file and does not lead upwards. -/
def fileName? (path : List Char) : Option (List Char) :=
  match (pathNames path).getLast? with
  | some name => if name = ['.', '.'] then none else some name
  | none => none

/-- A file name up to its last dot. A name without a dot after its first character is its own
stem. -/
def stem (name : List Char) : List Char :=
  match name.reverse.dropWhile (· != '.') with
  | [] | [_] => name
  | _ :: rest => rest.reverse

/-- The stem of the last name in a path. -/
def fileStem? (path : List Char) : Option (List Char) :=
  (fileName? path).map stem

end FlowErasure.Command
