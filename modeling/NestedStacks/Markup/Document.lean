/-
From text to documents: aliases become copies and scalars become values.

An anchor is known from the start of its node on.  It gets as its number how many different
names are known there, so a name that is given again shares its number with the next new name,
and a number stands for the last node that has it.

* `parse` — the document of a text;
* `Written` — a text before aliases are followed.
-/
import NestedStacks.Markup.Node.Grammar
import NestedStacks.Markup.Token.Lexer
import NestedStacks.Markup.Scalar

namespace NestedStacks.Markup

/-- The numbers of the anchors known at some place, latest first. -/
abbrev AnchorNumbers := List (String × Nat)

namespace AnchorNumbers

/-- How many different names are known. -/
def size (known : AnchorNumbers) : Nat := (known.map (·.1)).eraseDups.length

/-- Adds an anchor and gives it its number. -/
def define (name : Option String) (known : AnchorNumbers) : Option Nat × AnchorNumbers :=
  match name with
  | none => (none, known)
  | some name => (some known.size, (name, known.size) :: known)

end AnchorNumbers

namespace Node

mutual
/-- Replaces the names of anchors and aliases by numbers. -/
def number : Node String → AnchorNumbers → Except Fault (Node Nat × AnchorNumbers)
  | .scalar props style text, known =>
    let (anchor, known) := AnchorNumbers.define props.anchor known
    .ok (.scalar ⟨props.tag, anchor⟩ style text, known)
  | .seq props items, known => do
    let (anchor, known) := AnchorNumbers.define props.anchor known
    let (items, known) ← numberItems items known
    return (.seq ⟨props.tag, anchor⟩ items, known)
  | .map props entries, known => do
    let (anchor, known) := AnchorNumbers.define props.anchor known
    let (entries, known) ← numberEntries entries known
    return (.map ⟨props.tag, anchor⟩ entries, known)
  | .aliasOf name, known =>
    match known.find? (·.1 == name) with
    | some (_, n) => .ok (.aliasOf n, known)
    | none => .error .unknownAlias

/-- Numbers several nodes in order. -/
def numberItems :
    List (Node String) → AnchorNumbers → Except Fault (List (Node Nat) × AnchorNumbers)
  | [], known => .ok ([], known)
  | n :: rest, known => do
    let (n, known) ← n.number known
    let (rest, known) ← numberItems rest known
    return (n :: rest, known)

/-- Numbers the nodes of several entries in order. -/
def numberEntries : List (Node String × Node String) → AnchorNumbers →
    Except Fault (List (Node Nat × Node Nat) × AnchorNumbers)
  | [], known => .ok ([], known)
  | (k, v) :: rest, known => do
    let (k, known) ← k.number known
    let (v, known) ← v.number known
    let (rest, known) ← numberEntries rest known
    return ((k, v) :: rest, known)
end

mutual
/-- The anchored nodes with their numbers, in the order of their starts, in front of `later`. -/
def anchored : Node Nat → List (Nat × Node Nat) → List (Nat × Node Nat)
  | n@(.scalar props _ _), later => props.anchor.toList.map (·, n) ++ later
  | n@(.seq props items), later =>
    props.anchor.toList.map (·, n) ++ anchoredItems items later
  | n@(.map props entries), later =>
    props.anchor.toList.map (·, n) ++ anchoredEntries entries later
  | .aliasOf _, later => later

/-- The anchored nodes among several nodes. -/
def anchoredItems : List (Node Nat) → List (Nat × Node Nat) → List (Nat × Node Nat)
  | [], later => later
  | n :: rest, later => n.anchored (anchoredItems rest later)

/-- The anchored nodes among several entries. -/
def anchoredEntries :
    List (Node Nat × Node Nat) → List (Nat × Node Nat) → List (Nat × Node Nat)
  | [], later => later
  | (k, v) :: rest, later => k.anchored (v.anchored (anchoredEntries rest later))
end

end Node

/-- A written document together with what its aliases stand for. -/
structure Written where
  root : Node Nat
  /-- The anchored nodes, the last one with a number first. -/
  targets : List (Nat × Node Nat)

namespace Written

/-- The node behind an alias; any other node is itself. -/
def target? (w : Written) : Node Nat → Option (Node Nat)
  | .aliasOf n => (w.targets.find? (·.1 == n)).map (·.2)
  | n => some n

/-- How many aliases may be followed. -/
def aliasLimit (w : Written) : Nat := 100 * w.root.weight

end Written

/-- Reads the written form of the only document of a text. -/
def write? (text : String) : Except Fault (Option Written) := do
  let tokens ← Token.scan text.toList
  match ← Document.ofTokens tokens with
  | none => return none
  | some root =>
    let (root, _) ← root.number []
    return some ⟨root, (root.anchored []).reverse⟩

/-- How deep collections may stand inside one another. -/
def depthLimit : Nat := 128

/-- A local tag stays on the value, every other one is used up. -/
def putTag (tag : NodeTag) (t : Tree) : Tree :=
  match tag with
  | .named name => .tagged name t
  | _ => t

/-- Puts the entries of a mapping together; equal keys are refused. -/
def distinctEntries : Entries → List (Tree × Tree) → Except Fault Entries
  | acc, [] => .ok acc.reverse
  | acc, (k, v) :: rest =>
    if Entries.contains acc k then .error .duplicateKey
    else distinctEntries ((k, v) :: acc) rest

/-- The value of a node with `depth` levels of collections left.  The state counts how many
aliases may still be followed. -/
def valueOf (w : Written) : Nat → Node Nat → StateT Nat (Except Fault) Tree
  | depth, n => do
    if let .aliasOf _ := n then
      let left ← get
      if left = 0 then throw Fault.aliasLimit
      set (left - 1)
    match w.target? n with
    | some (.scalar props style text) => return putTag props.tag (← scalarValue props.tag style text)
    | some (.seq props items) =>
      match depth with
      | 0 => throw Fault.depthLimit
      | depth + 1 => return putTag props.tag (.seq (← items.mapM (valueOf w depth)))
    | some (.map props entries) =>
      match depth with
      | 0 => throw Fault.depthLimit
      | depth + 1 =>
        let entries ← entries.mapM fun (k, v) => do
          let k ← valueOf w depth k
          let v ← valueOf w depth v
          return (k, v)
        return putTag props.tag (.map (← distinctEntries [] entries))
    | _ => throw Fault.unknownAlias

/-- Reads the only document of a text; a text without any is null. -/
def parse (text : String) : Except Fault Tree := do
  match ← write? text with
  | none => return .null
  | some w => return (← (valueOf w depthLimit w.root).run w.aliasLimit).1

end NestedStacks.Markup
