import FlowErasure.Syntax.Path
import FlowErasure.Text.Bytes
import FlowErasure.Text.Lines

/-!
# Edits

A changed node is laid out as its source text with some edits. They are found by comparing the slots
a node had before its first change with those it has now. Elements of a list can only have been taken
out or exchanged one for one.
-/

namespace FlowErasure

/-- Why a tree has no layout. -/
inductive LayoutError where
  | missingNode (node : Handle)
  | missingSpan (kind : NodeKind)
  | insertedNode (kind : NodeKind) (field : Field)
  deriving DecidableEq, Repr, Inhabited

namespace LayoutError

def label : LayoutError → String
  | .missingNode _ => "MissingNode"
  | .missingSpan _ => "MissingSpan"
  | .insertedNode _ _ => "InsertedNode"

def message : LayoutError → String
  | .missingNode node => "node " ++ Handle.text node ++ " does not exist"
  | .missingSpan kind => "cannot print " ++ kind.label ++ ": the node has no source text"
  | .insertedNode kind field =>
    "cannot print " ++ kind.label ++ "." ++ field.spelling ++
      ": the slot gained a node that is not in the source"

end LayoutError

namespace Layout

/-- A source with its bytes and its lines. -/
structure Source where
  text : List Char
  bytes : List UInt8
  lines : Lines
  deriving Repr, Inhabited

def Source.ofText (text : List Char) : Source where
  text := text
  bytes := Text.bytes text
  lines := Lines.ofText text

inductive EditAction where
  /-- Lay out this node in place of the range. -/
  | print (id : NodeId)
  /-- Drop a part from the middle of a node. -/
  | removeField
  /-- Drop statements or class members, and write a semicolon for them if it is needed. -/
  | removeLines (semicolon : Bool)
  /-- Drop exactly the range. -/
  | removeExact
  deriving DecidableEq, Repr, Inhabited

/-- A change of the source range of a node. -/
structure Edit where
  start : Nat
  stop : Nat
  action : EditAction
  deriving DecidableEq, Repr, Inhabited

/-- The node of a handle that must exist. -/
def require (tree : Tree) (node : Handle) : Except LayoutError (NodeId × Node) :=
  match node.bind fun id => (tree.get? id).map (id, ·) with
  | some found => return found
  | none => throw (.missingNode node)

/-- A node that has stayed is laid out anew if it or something below it has changed. -/
def editOfKept (tree : Tree) (node : Handle) : List Edit :=
  match require tree node with
  | .ok (id, node) => if node.marks.any then [⟨node.start, node.stop, .print id⟩] else []
  | .error _ => []

/-- One node in place of another. The new one must cover some text. -/
def editOfExchanged (tree : Tree) (old new : Handle) : Except LayoutError Edit := do
  let (_, replaced) ← require tree old
  let (id, replacement) ← require tree new
  if replacement.hasSpan then return ⟨replaced.start, replaced.stop, .print id⟩
  else throw (.missingSpan replacement.kind)

/-! ## Lists -/

/-- Compares the elements of a list with the elements it has now. Answers the edits for what has
stayed or was exchanged, and for each old element whether it was taken out. An element was exchanged
if from there on there are as many new elements as old ones. -/
def alignList (tree : Tree) (kind : NodeKind) (field : Field) :
    List Handle → List Handle → Except LayoutError (List Edit × List (Handle × Bool))
  | [], [] => return ([], [])
  | [], _ :: _ => throw (.insertedNode kind field)
  | old :: olds, [] => do
    let (edits, removed) ← alignList tree kind field olds []
    return (edits, (old, true) :: removed)
  | old :: olds, new :: news => do
    if new = old then
      let (edits, removed) ← alignList tree kind field olds news
      return (editOfKept tree new ++ edits, (old, false) :: removed)
    else if news.length = olds.length then
      let edit ← editOfExchanged tree old new
      let (edits, removed) ← alignList tree kind field olds news
      return (edit :: edits, (old, false) :: removed)
    else
      let (edits, removed) ← alignList tree kind field olds (new :: news)
      return (edits, (old, true) :: removed)

/-- Would the node after removed statements be read as a continuation of the one before them? -/
def continuesAcross (source : Source) (before after : Node) : Bool :=
  let terminated := 0 < before.stop && source.bytes[before.stop - 1]? == some 0x3B
  let hazard := (source.bytes[after.start]?).any [0x28, 0x5B, 0x60, 0x2B, 0x2D, 0x2F].contains
  !terminated && hazard

/-- The edit that drops statements or class members. A semicolon stands for them if without it the
next one would be read as a continuation of the one before. -/
def editOfLines (source : Source) (tree : Tree) (start stop : Nat) (before after : Handle) :
    Except LayoutError Edit := do
  if before.isNone || after.isNone then return ⟨start, stop, .removeLines false⟩
  let (_, before) ← require tree before
  let (_, after) ← require tree after
  return ⟨start, stop, .removeLines (continuesAcross source before after)⟩

/-- The edit that drops elements of a list with separators. The separator after them goes too, or
the one before if nothing remains after. -/
def editOfSeparated (tree : Tree) (start stop : Nat) (before after : Handle) :
    Except LayoutError Edit := do
  if after.isSome then
    let (_, after) ← require tree after
    return ⟨start, after.start, .removeExact⟩
  else if before.isSome then
    let (_, before) ← require tree before
    return ⟨before.stop, stop, .removeExact⟩
  else return ⟨start, stop, .removeExact⟩

/-- The edit that drops a run of elements, the last first, between the elements that remain next to
it. A run of holes leaves no edit. -/
def editOfRun (source : Source) (tree : Tree) (shape : FieldShape) (before after : Handle)
    (run : List NodeId) : Except LayoutError (List Edit) := do
  match run.getLast?, run.head? with
  | some first, some last =>
    let (_, first) ← require tree first
    let (_, last) ← require tree last
    if shape == .block then return [← editOfLines source tree first.start last.stop before after]
    else return [← editOfSeparated tree first.start last.stop before after]
  | _, _ => return []

/-- The next element that remains. -/
def nextKept? : List (Handle × Bool) → Handle
  | [] => none
  | (some id, false) :: _ => id
  | _ :: rest => nextKept? rest

/-- The edits that drop the runs of removed elements. `before` is the last element that remains so
far, and `run` are the removed elements since then, the last first. -/
def editsOfRuns (source : Source) (tree : Tree) (shape : FieldShape) (before : Handle)
    (run : List NodeId) : List (Handle × Bool) → Except LayoutError (List Edit)
  | [] => editOfRun source tree shape before none run
  | (node, true) :: rest => editsOfRuns source tree shape before (node.toList ++ run) rest
  | (node, false) :: rest => do
    let edits ← editOfRun source tree shape before (nextKept? ((node, false) :: rest)) run
    return edits ++ (← editsOfRuns source tree shape (node <|> before) [] rest)

/-- The edits of a sequence field. -/
def editsOfList (source : Source) (tree : Tree) (kind : NodeKind) (spec : FieldSpec)
    (old new : List Handle) : Except LayoutError (List Edit) := do
  let (edits, elements) ← alignList tree kind spec.field old new
  return edits ++ (← editsOfRuns source tree spec.shape none [] elements)

/-! ## Nodes -/

/-- The edits of one field, from what it held and what it holds. A list that was cleared goes with
its keyword and its delimiters. -/
def editsOfField (source : Source) (tree : Tree) (kind : NodeKind) (spec : FieldSpec)
    (before after : Slot) : Except LayoutError (List Edit) := do
  match before, after with
  | .list old, .list new => editsOfList source tree kind spec old.nodes new.nodes
  | .list old, _ =>
    if old.start < old.stop then return [⟨old.start, old.stop, .removeField⟩] else return []
  | .node old, .node new =>
    if old = new then return editOfKept tree new
    else return [← editOfExchanged tree old new]
  | .node old, _ =>
    let (_, old) ← require tree old
    return [⟨old.start, old.stop, .removeField⟩]
  | .absent, after => if after.isPopulated then throw (.insertedNode kind spec.field) else return []

/-- The edits of a node, field by field. -/
def editsOfNode (source : Source) (tree : Tree) (node : Node) : Except LayoutError (List Edit) := do
  let before := node.before.getD node.slots
  let edits ← ((node.kind.schema.zip before).zip node.slots).mapM fun ((spec, before), after) =>
    editsOfField source tree node.kind spec before after
  return edits.flatten

end Layout

end FlowErasure
