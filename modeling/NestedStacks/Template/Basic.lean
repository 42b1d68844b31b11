/-
Templates: documents whose root is a mapping, with resources by name.

* `Template.resources` — the resources in order;
* `Template.setResources` — other resources, of two with one name the later one;
* `collisions` — the names given more than once.
-/
import NestedStacks.Run.Basic
import NestedStacks.Template.Resource
import NestedStacks.Plain.Export
import NestedStacks.Markup.Printer

namespace NestedStacks

/-- A template: the entries of its root. -/
structure Template where
  root : Entries
  deriving Inhabited

/-- Resources with their names, in order. -/
abbrev Resources := List (String × Resource)

namespace Template

/-- The template that a document holds; an empty document is an empty template. -/
def ofTree : Tree → Except StackError Template
  | .map root => .ok ⟨root⟩
  | .null => .ok ⟨[]⟩
  | _ => .error (.invalidTemplate .rootNotMapping)

/-- The template as a document. -/
def toTree (t : Template) : Tree := .map t.root

/-- The value of a key of the root. -/
def get? (t : Template) (key : String) : Option Tree := t.root.get? key

/-- The resource of one entry. -/
def resourceOf (entry : Tree × Tree) : Except StackError (String × Resource) := do
  let name ← (keyText entry.1).mapError .document
  let r ← Resource.ofTree name entry.2
  return (name, r)

/-- The resources in order; a template need not have any. -/
def resources (t : Template) : Except StackError Resources :=
  match t.get? "Resources" with
  | none => .ok []
  | some .null => .ok []
  | some (.map entries) => entries.mapM resourceOf
  | some _ => .error (.invalidTemplate .resourcesNotMapping)

/-- Resources as a mapping: a name given again replaces the earlier resource in its place. -/
def resourceEntries (rs : Resources) : Entries :=
  rs.foldl (fun entries r => Entries.set entries r.1 r.2.toTree) []

/-- The template with other resources. -/
def setResources (t : Template) (rs : Resources) : Template :=
  ⟨t.root.set "Resources" (.map (resourceEntries rs))⟩

/-- The template as a document text. -/
def yaml (t : Template) : Except StackError String :=
  match Markup.print t.toTree with
  | some text => .ok text
  | none => .error (.document .serialize)

/-- The template as plain data. -/
def data (t : Template) : Except StackError Data := t.toTree.toData.mapError .document

end Template

/-- The names that repeat one of `seen` or an earlier one, in order. -/
def collisions (seen : List String) : List String → List String
  | [] => []
  | name :: rest =>
    if seen.contains name then name :: collisions seen rest
    else collisions (name :: seen) rest

/-- What is reported about names given more than once. -/
def collisionMessage (name : String) : String :=
  "Resource name collision: " ++ name ++ " defined more than once"

/-- Sets the resources of a template and reports the names given more than once. -/
def Template.assemble (t : Template) (rs : Resources) : Run StackError Template := do
  Run.noteAll .warn .assembling ((collisions [] (rs.map (·.1))).map collisionMessage)
  return t.setResources rs

end NestedStacks
