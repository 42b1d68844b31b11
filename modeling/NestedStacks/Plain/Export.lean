/-
Documents as plain data.

A tagged value becomes a record with one field, the name of its function.  An attribute has
three spellings in documents and one form in plain data.

* `Tree.toData` — the plain data of a document;
* `keyText` — the name of a field.
-/
import NestedStacks.Plain.Data
import NestedStacks.Tag.Node

namespace NestedStacks

/-- The name of the field that a key becomes. -/
def keyText : Tree → Except DocumentError String
  | .str s => .ok s
  | .num n => .ok n.text
  | .bool b => .ok (if b then "true" else "false")
  | .null => .ok "null"
  | t => .error (.invalidKey t.shape)

/-- A resource and its attribute, which the first point separates. -/
def attributeData (s : String) : Data :=
  match Text.cut '.' s.toList with
  | (front, none) => .arr [.str (String.ofList front)]
  | (front, some behind) => .arr [.str (String.ofList front), .str (String.ofList behind)]

/-- The record with one field. -/
def Data.single (name : String) (d : Data) : Data := .obj [(name, d)]

/-- The plain data of a tag on a text. -/
def scalarData (tag : Tag) (s : String) : Data :=
  match tag with
  | .intrinsic .getAtt => .single Intrinsic.getAtt.functionName (attributeData s)
  | .intrinsic .ref =>
    if s.toList.contains '.' then .single Intrinsic.getAtt.functionName (attributeData s)
    else .single tag.functionName (.str s)
  | _ => .single tag.functionName (.str s)

namespace Tree

mutual
/-- The plain data of a document. -/
def toData : Tree → Except DocumentError Data
  | .null => .ok .null
  | .bool b => .ok (.bool b)
  | .num n => .ok (.ofNumber n)
  | .str s => .ok (.str s)
  | .seq items => do return .arr (← itemsToData items)
  | .map entries => do return .obj (← entriesToData entries [])
  | .tagged tag payload => do
    let node ← TaggedNode.ofTagged tag payload
    match node.payload with
    | .scalar s => return scalarData node.tag s
    | _ => return .single node.tag.functionName (← toData payload)

/-- The plain data of several documents. -/
def itemsToData : List Tree → Except DocumentError (List Data)
  | [] => .ok []
  | t :: rest => do
    let d ← toData t
    return d :: (← itemsToData rest)

/-- Sets the fields that the entries of a mapping become, in order. -/
def entriesToData : List (Tree × Tree) → List (String × Data) →
    Except DocumentError (List (String × Data))
  | [], fields => .ok fields
  | (k, v) :: rest, fields => do
    let name ← keyText k
    let d ← toData v
    entriesToData rest (Data.setField name d fields)
end

end Tree

namespace TaggedNode

/-- The plain data of a node, whatever its payload is. -/
def toData (n : TaggedNode) : Except DocumentError Data :=
  match n.payload with
  | .scalar s => .ok (scalarData n.tag s)
  | .sequence items => do return .single n.tag.functionName (← (Tree.seq items).toData)
  | .mapping entries => do return .single n.tag.functionName (← (Tree.map entries).toData)

end TaggedNode

end NestedStacks
