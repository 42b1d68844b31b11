/-
Loading documents: every tagged value is checked against the catalog and written in its
standard spelling; macros are replaced by what they stand for, if that is wanted.

* `Tree.load` — the check of a whole document, outside in and in document order;
* `resolveMacro` — the value of a macro in a scope;
* `loadFile` — a document from a file.
-/
import NestedStacks.Run.Basic
import NestedStacks.Load.Scope
import NestedStacks.Markup.Document
import NestedStacks.Plain.Export
import NestedStacks.Text.Blank

namespace NestedStacks

/-- How macros are replaced. -/
abbrev Resolver := MacroTag → String → Run DocumentError Tree

namespace Tree

mutual
/-- Checks every tagged value outside keys; macros are replaced if there is a resolver. -/
def load (resolve : Option Resolver) : Tree → Run DocumentError Tree
  | .seq items => do return .seq (← loadItems resolve items)
  | .map entries => do return .map (← loadEntries resolve entries)
  | .tagged tag payload => do
    let node ← Run.ofExcept (TaggedNode.ofTagged tag payload)
    match node.payload with
    | .scalar argument =>
      match node.tag, resolve with
      | .macroTag m, some r => do
        Run.note .debug .loading ("Resolving " ++ node.tag.spelling ++ " " ++ argument)
        r m argument
      | _, _ => return node.toTree
    | _ => return .tagged node.tag.spelling (← load resolve payload)
  | t => return t

/-- Checks several documents in order. -/
def loadItems (resolve : Option Resolver) : List Tree → Run DocumentError (List Tree)
  | [] => return []
  | t :: rest => do
    let t ← load resolve t
    return t :: (← loadItems resolve rest)

/-- Checks the values of several entries in order; keys stay as they are. -/
def loadEntries (resolve : Option Resolver) :
    List (Tree × Tree) → Run DocumentError (List (Tree × Tree))
  | [] => return []
  | (k, v) :: rest => do
    let v ← load resolve v
    return (k, v) :: (← loadEntries resolve rest)
end

end Tree

/-- Reads and checks the document of a text. -/
def loadWith (resolve : Option Resolver) (text : String) : Run DocumentError Tree := do
  let raw ← Run.ofExcept ((Markup.parse text).mapError .parse)
  raw.load resolve

/-- Reads the file that a macro includes. -/
def includedFile (tag : MacroTag) (scope : Scope) (argument : String) :
    Run DocumentError (Path × String) := do
  let argument := Text.trim argument
  if argument.isEmpty then Run.fail (.missingPath tag)
  else
    let path := scope.resolve argument
    Run.note .debug .including ("Including " ++ path.quoted)
    let text ← (Run.read path).mapError (.ofFault path)
    return (path, text)

/-- The value of a macro.  Documents that are included may include further ones, `depth` of
them in a row. -/
def resolveMacro (depth : Nat) (scope : Scope) : Resolver := fun tag argument =>
  match tag with
  | .generateUuid => do return .str (← Run.draw)
  | .includeString => do
    let (_, text) ← includedFile tag scope argument
    return .str text
  | .includeJson => do
    let (path, text) ← includedFile tag scope argument
    match depth with
    | 0 => Run.fail (.endlessInclude path)
    | depth + 1 =>
      let document ← loadWith (some (resolveMacro depth (.ofFile path))) text
      let data ← Run.ofExcept document.toData
      return .str data.compact

/-- The resolver for a scope, if macros are to be replaced. -/
def resolver? (macros : Bool) (depth : Nat) (scope : Scope) : Option Resolver :=
  if macros then some (resolveMacro depth scope) else none

/-- Reads and checks the document of a text in a scope. -/
def loadText (macros : Bool) (scope : Scope) (text : String) : Run DocumentError Tree := do
  loadWith (resolver? macros (← Run.depth) scope) text

/-- Reads and checks the document in a file. -/
def loadFile (macros : Bool) (path : Path) : Run DocumentError Tree := do
  Run.note .debug .loading ("Loading template from " ++ path.quoted)
  let text ← (Run.read path).mapError (.ofFault path)
  let document ← loadText macros (.ofFile path) text
  Run.note .info .loading ("Loaded template " ++ path.text)
  return document

end NestedStacks
