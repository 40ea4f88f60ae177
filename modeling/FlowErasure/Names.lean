/-!
# Names

A pool of distinct strings. A name is stored once and referred to by its place in the pool; place 0
holds the empty string and stands for "no name".
-/

namespace FlowErasure

/-- Place of a string in the pool. -/
abbrev Atom := Nat

/-- The strings named so far, without repetition. -/
structure Names where
  strings : Array String
  deriving DecidableEq, Repr, Inhabited

namespace Names

/-- The pool that holds only the empty string. -/
def empty : Names where
  strings := #[""]

def size (names : Names) : Nat :=
  names.strings.size

def isEmpty (names : Names) : Bool :=
  names.size ≤ 1

def find? (names : Names) (s : String) : Option Atom :=
  names.strings.idxOf? s

/-- The place of `s`, which is added at the end when it is new. -/
def intern (names : Names) (s : String) : Atom × Names :=
  match names.find? s with
  | some atom => (atom, names)
  | none => (names.size, { strings := names.strings.push s })

/-- The string at a place, the empty string where there is none. -/
def resolve (names : Names) (atom : Atom) : String :=
  names.strings.getD atom ""

def internAll (names : Names) (ss : List String) : Names :=
  ss.foldl (fun names s => (names.intern s).2) names

/-- Words that nearly every source uses. -/
def commonStrings : List String :=
  ["type", "interface", "declare", "module", "implements", "extends", "static", "get", "set", "of",
   "from", "as", "async", "await", "let", "yield", "any", "mixed", "number", "string", "boolean",
   "bool", "Array", "Object", "Function", "Promise", "constructor", "prototype", "length", "value",
   "exports", "require"]

/-- The pool a source starts with. -/
def common : Names :=
  empty.internAll commonStrings

end Names

end FlowErasure
