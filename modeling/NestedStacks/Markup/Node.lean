/-
Nodes: a document as it is written, before scalars are read as values and aliases as copies.

* `Node.weight` — the number of events of a node, which limits the aliases that are followed;
* `NodeTag.ofOctets` — what a written tag means for the value below it.
-/
import NestedStacks.Markup.Token

namespace NestedStacks.Markup

/-- What the tag of a node says about its value. -/
inductive NodeTag where
  | none
  /-- A local tag, which stays on the value. -/
  | named (name : String)
  | bool
  | int
  | float
  | null
  /-- Any other tag: a scalar below it is a string. -/
  | other
  deriving DecidableEq, Repr

/-- The tag with these octets.  A local tag starts with an exclamation mark, which is not a
part of its name unless it is alone; one that is no proper text is ignored. -/
def NodeTag.ofOctets (octets : List UInt8) : NodeTag :=
  match octets, String.fromUTF8? ⟨octets.toArray⟩ with
  | 33 :: rest, some s => .named (if rest.isEmpty then s else (s.drop 1).toString)
  | 33 :: _, .none => .none
  | _, some "tag:yaml.org,2002:bool" => .bool
  | _, some "tag:yaml.org,2002:int" => .int
  | _, some "tag:yaml.org,2002:float" => .float
  | _, some "tag:yaml.org,2002:null" => .null
  | _, _ => .other

/-- What stands in front of a node. -/
structure Properties (α : Type) where
  tag : NodeTag := .none
  anchor : Option α := none

/-- A written document; anchors and aliases have names in `α`. -/
inductive Node (α : Type) where
  | scalar (properties : Properties α) (style : ScalarStyle) (text : String)
  | seq (properties : Properties α) (items : List (Node α))
  | map (properties : Properties α) (entries : List (Node α × Node α))
  | aliasOf (name : α)

namespace Node

variable {α : Type}

/-- The node that stands where nothing is written. -/
def empty (properties : Properties α) : Node α := .scalar properties .plain ""

mutual
/-- The number of events: two for a collection and those inside it, one for anything else. -/
def weight : Node α → Nat
  | .scalar _ _ _ => 1
  | .seq _ items => 2 + weightItems items
  | .map _ entries => 2 + weightEntries entries
  | .aliasOf _ => 1

/-- The number of events of several nodes. -/
def weightItems : List (Node α) → Nat
  | [] => 0
  | n :: rest => n.weight + weightItems rest

/-- The number of events of several entries. -/
def weightEntries : List (Node α × Node α) → Nat
  | [] => 0
  | (k, v) :: rest => k.weight + v.weight + weightEntries rest
end

end Node

end NestedStacks.Markup
