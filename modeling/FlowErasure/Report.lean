import FlowErasure.ParseError

/-!
# Error reports

A parse error for a reader: its place, code and text, and the line it is on with a marker below.
-/

namespace FlowErasure

namespace Report

/-- Terminal styles. -/
inductive Style where
  | category
  | code
  | marker
  deriving DecidableEq, Repr, Inhabited

/-- The parameters of the escape sequence that starts a style. -/
def Style.parameters : Style → String
  | .category => "1;31"
  | .code => "94"
  | .marker => "31"

/-- A text in a style, or as it is without colour. -/
def paint (color : Bool) (style : Style) (text : String) : String :=
  if color then "\x1b[" ++ style.parameters ++ "m" ++ text ++ "\x1b[0m" else text

/-- The longest marker. -/
def markerLimit : Nat :=
  80

/-- One blank for each character before a column; tabs stay tabs. `units` is the column of the first
character, counted from one. -/
def padding (column units : Nat) : List Char → List Char
  | [] => []
  | c :: cs =>
    if column ≤ units then []
    else (if c = '\t' then '\t' else ' ') :: padding column (units + Text.units c) cs

/-- A text without the line ends at its end. -/
def trimLineEnd (cs : List Char) : List Char :=
  (cs.reverse.dropWhile Text.isLineBreak).reverse

/-- The text of a line, counted from zero, without its end. -/
def lineText? (lines : Lines) (line : Nat) : Option (List Char) := do
  let start ← lines.start? line
  let stop := (lines.start? (line + 1)).getD lines.size
  return trimLineEnd (← Text.slice? lines.text start stop)

/-- How many characters the marker has: as many as the error is long, within the line and within the
limit, but one at least. -/
def markerWidth (length available : Nat) : Nat :=
  min (max 1 (min length markerLimit)) (max available 1)

/-- A number of at least three places. -/
def lineNumber (n : Nat) : String :=
  let digits := toString n
  String.ofList (List.replicate (3 - digits.length) ' ') ++ digits

/-- The line of the error and the marker below it. -/
def snippet? (color : Bool) (e : ParseError) (text : List Char) : Option String := do
  if e.line = 0 then none
  else
    let line ← lineText? (Lines.ofText text) (e.line - 1)
    let pad := padding e.column 1 line
    let width := markerWidth e.length (line.length - pad.length)
    let marker := paint color .marker (String.ofList (List.replicate width '~'))
    return "\n  " ++ lineNumber e.line ++ "   " ++ String.ofList line ++ "\n        " ++
      String.ofList pad ++ marker

end Report

/-- The report of an error in a text. There is no snippet if the text has no such line. -/
def ParseError.report (e : ParseError) (color : Bool) (text : List Char) : String :=
  e.fileName ++ ":" ++ toString e.line ++ ":" ++ toString e.column ++ " - " ++
    Report.paint color .category "error" ++ " " ++
    Report.paint color .code ("FS" ++ toString e.code) ++ ": " ++ e.text ++
    (Report.snippet? color e text).getD ""

end FlowErasure
