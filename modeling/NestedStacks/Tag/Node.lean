/-
Tagged nodes: a tag of the catalog together with its payload.

* `TaggedNode.construct` — checks a payload against the tag, and turns scalars into text;
* `TaggedNode.ofTagged`, `TaggedNode.toTree` — from a document and back.
-/
import NestedStacks.Error

namespace NestedStacks

/-- The payload of a tagged node. -/
inductive Payload where
  | scalar (text : String)
  | sequence (items : List Tree)
  | mapping (entries : Entries)
  deriving Inhabited

/-- The payload as a tree. -/
def Payload.toTree : Payload → Tree
  | .scalar s => .str s
  | .sequence items => .seq items
  | .mapping entries => .map entries

/-- A tag with its payload. -/
structure TaggedNode where
  tag : Tag
  payload : Payload

namespace TaggedNode

/-- The text of a scalar payload. -/
def scalarText? : Tree → Option String
  | .str s => some s
  | .num n => some n.text
  | .bool b => some (if b then "true" else "false")
  | .null => some ""
  | _ => none

/-- The payload that a tag of some kind makes of a tree.  Where a sequence or a scalar is
accepted, any scalar is taken as its text. -/
def payload? (kind : PayloadKind) (raw : Tree) : Option Payload :=
  match kind, raw with
  | .sequence, .seq items => some (.sequence items)
  | .sequence, _ => none
  | .sequenceOrScalar, .seq items => some (.sequence items)
  | .sequenceOrScalar, t => (scalarText? t).map .scalar
  | .scalar, t => (scalarText? t).map .scalar

/-- Puts a tag on a payload that it accepts. -/
def construct (tag : Tag) (raw : Tree) : Except DocumentError TaggedNode :=
  match payload? tag.kind raw with
  | some payload => .ok ⟨tag, payload⟩
  | none => .error (.shape tag raw.shape)

/-- The node of a tagged value in a document. -/
def ofTagged (tag : String) (raw : Tree) : Except DocumentError TaggedNode :=
  match Tag.ofYaml? tag with
  | some t => construct t raw
  | none => .error (.unknownTag tag)

/-- The node as a tagged value, in the standard spelling. -/
def toTree (n : TaggedNode) : Tree := .tagged n.tag.spelling n.payload.toTree

end TaggedNode

end NestedStacks
