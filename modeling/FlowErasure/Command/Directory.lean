import FlowErasure.Command.FileName
import FlowErasure.Text.Units

/-!
# Directories in memory

The files below one directory, by their names from there. A directory exists if a file in it does.
Paths lead through directories that exist; they can lead up, but not out.
-/

namespace FlowErasure.Command

/-- The names that lead from the directory to a file. -/
abbrev Location := List (List Char)

structure Directory where
  files : List (Location × List UInt8)
  deriving DecidableEq, Repr, Inhabited

namespace Directory

def file? (d : Directory) (location : Location) : Option (List UInt8) :=
  (d.files.find? (·.1 == location)).map (·.2)

/-- Does a directory exist at a location? -/
def hasDirectory (d : Directory) (location : Location) : Bool :=
  location.isEmpty ||
    d.files.any fun (name, _) => location.length < name.length && location.isPrefixOf name

/-- The longest name in bytes. -/
def nameLimit : Nat :=
  255

/-- The longest path in bytes. -/
def pathLimit : Nat :=
  4095

/-- Can a file have this name? -/
def isName (name : List Char) : Bool :=
  Text.byteLength name ≤ nameLimit && !name.contains '\x00'

/-- Where names lead from a location. Each name but the last must lead to a directory, and so must
the last if it is empty or a dot. -/
def resolveFrom (d : Directory) (here : Location) : List (List Char) → Option Location
  | [] => some here
  | name :: names =>
    if !d.hasDirectory here then none
    else if name = [] || name = ['.'] then d.resolveFrom here names
    else if name = ['.', '.'] then
      if here.isEmpty then none else d.resolveFrom here.dropLast names
    else if isName name then d.resolveFrom (here ++ [name]) names
    else none

/-- Where a path leads. A path that starts with a slash leads out. -/
def resolve (d : Directory) (path : List Char) : Option Location :=
  if pathLimit < Text.byteLength path || path.head? = some '/' then none
  else d.resolveFrom [] (splitPath path)

/-- The bytes of the file a path leads to. -/
def read (d : Directory) (path : List Char) : Option (List UInt8) := do
  d.file? (← d.resolve path)

/-- Puts a file in the place of what was at a location. -/
def insert (d : Directory) (location : Location) (contents : List UInt8) : Directory where
  files := d.files.filter (·.1 != location) ++ [(location, contents)]

/-- Writes the file a path leads to; there must be no directory. -/
def write (d : Directory) (path : List Char) (contents : List UInt8) : Option Directory := do
  let location ← d.resolve path
  if d.hasDirectory location then none else some (d.insert location contents)

end Directory

end FlowErasure.Command
