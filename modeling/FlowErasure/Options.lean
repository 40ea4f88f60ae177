import FlowErasure.Compile
import FlowErasure.Text.Quoted

/-!
# Options in JSON

Compile options are an object with the keys `sourceFileName` and `sourceMapName`, each at most once,
or an array of at most these two values in this order. A value is a string or null; null and a value
that is not given are the same. Nothing else is accepted.
-/

namespace FlowErasure.CompileOptions

/-- The blanks of JSON. -/
def isJsonBlank (c : Char) : Bool :=
  c == ' ' || c == '\t' || c == '\n' || c == '\r'

def skipBlanks (cs : List Char) : List Char :=
  cs.dropWhile isJsonBlank

/-- A string or null, and what comes after it. -/
def readValue? : List Char → Option (Option String × List Char)
  | 'n' :: 'u' :: 'l' :: 'l' :: cs => some (none, cs)
  | cs => (Text.unquote? cs).map fun (text, rest) => (some (String.ofList text), rest)

inductive Key where
  | sourceFileName
  | sourceMapName
  deriving DecidableEq, Repr, Inhabited

def Key.ofText? : String → Option Key
  | "sourceFileName" => some .sourceFileName
  | "sourceMapName" => some .sourceMapName
  | _ => none

def withValue (options : CompileOptions) (value : Option String) : Key → CompileOptions
  | .sourceFileName => { options with sourceFileName := value }
  | .sourceMapName => { options with sourceMapName := value }

/-- A key with its value, and what comes after them. -/
def readMember? (cs : List Char) : Option (Key × Option String × List Char) := do
  let (text, cs) ← Text.unquote? cs
  let key ← Key.ofText? (String.ofList text)
  match skipBlanks cs with
  | ':' :: cs =>
    let (value, cs) ← readValue? (skipBlanks cs)
    return (key, value, cs)
  | _ => none

/-- Members of an object up to its closing brace. `keys` may still be given. -/
def readMembers? (keys : List Key) : Nat → CompileOptions → List Char →
    Option (CompileOptions × List Char)
  | 0, _, _ => none
  | bound + 1, options, cs => do
    let (key, value, cs) ← readMember? cs
    if !keys.contains key then none
    else
      let options := options.withValue value key
      match skipBlanks cs with
      | ',' :: cs => readMembers? (keys.erase key) bound options (skipBlanks cs)
      | '\x7d' :: cs => some (options, cs)
      | _ => none

/-- Elements of an array up to its closing bracket, one for each key at most. -/
def readElements? : List Key → CompileOptions → List Char → Option (CompileOptions × List Char)
  | [], _, _ => none
  | key :: keys, options, cs => do
    let (value, cs) ← readValue? cs
    let options := options.withValue value key
    match skipBlanks cs with
    | ',' :: cs => readElements? keys options (skipBlanks cs)
    | ']' :: cs => some (options, cs)
    | _ => none

/-- The keys in the order of an array. -/
def keys : List Key :=
  [.sourceFileName, .sourceMapName]

def readObject? (cs : List Char) : Option (CompileOptions × List Char) :=
  match skipBlanks cs with
  | '\x7d' :: cs => some ({}, cs)
  | cs => readMembers? keys keys.length {} cs

def readArray? (cs : List Char) : Option (CompileOptions × List Char) :=
  match skipBlanks cs with
  | ']' :: cs => some ({}, cs)
  | cs => readElements? keys {} cs

/-- Reads options. Only blanks may come after them. -/
def ofJson? (text : List Char) : Option CompileOptions := do
  let (options, rest) ←
    match skipBlanks text with
    | '\x7b' :: cs => readObject? cs
    | '[' :: cs => readArray? cs
    | _ => none
  if (skipBlanks rest).isEmpty then some options else none

end FlowErasure.CompileOptions
