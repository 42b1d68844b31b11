/-
Flattening: resources that stand for a template are replaced by the resources of that template.

The name of the stack resource is put in front of the names of the resources that replace it.
References inside a template are renamed with its resources; parameters that the stack is given
keep their names.

* `processResources` — the resources that a template comes to;
* `flatten` — the template in a file without nested templates.
-/
import NestedStacks.Load.Loader
import NestedStacks.Template.Basic
import NestedStacks.Template.Retarget

namespace NestedStacks

/-- Reads a template from a file. -/
def Template.load (macros : Bool) (path : Path) : Run StackError Template := do
  let document ← (loadFile macros path).mapError .document
  Run.ofExcept (Template.ofTree document)

namespace Resource

/-- The kind of stack that a resource has to be. -/
def stackKind (r : Resource) : Except StackError StackKind :=
  let type := r.type?.getD ""
  match StackKind.ofType? type with
  | some kind => .ok kind
  | none => .error (.unsupportedResource type)

/-- The location of a local template that a resource has to have. -/
def templateLocation (r : Resource) (name : String) : Except StackError String :=
  let location := r.location?.getD ""
  if isTemplateLocation location then .ok location
  else .error (.config (.locationEnding name location))

/-- The parameters of a stack, which it need not have. -/
def parameters (r : Resource) (kind : StackKind) (name : String) : Except StackError Entries :=
  match r.property? "Parameters" with
  | none => .ok []
  | some .null => .ok []
  | some (.map entries) => .ok entries
  | some _ => .error (.config (.parametersNotMapping kind name))

/-- The path of the template that a stack stands for, and its naming. -/
def nestedContext (r : Resource) (name : String) (ctx : Context) (workingDirectory : Path) :
    Except StackError (StackKind × Path × Context) := do
  let kind ← r.stackKind
  let master ←
    match ctx.location with
    | some master => .ok master
    | none => .error (.config (.locationRequired kind name))
  let location ← r.templateLocation name
  let parameters ← r.parameters kind name
  let path := Path.locate workingDirectory master location
  return (kind, path, .nested path parameters name)

end Resource

/-- The resource under its final name and with renamed references. -/
def renameResource (ctx : Context) (name : String) (r : Resource) :
    Run StackError (String × Resource) := do
  let final := ctx.prefixed name
  let changed ← Run.ofExcept ((r.retarget ctx).mapError .document)
  if final ≠ name then
    Run.note .debug .flattening ("Renamed " ++ name ++ " to " ++ final)
  return (final, changed)

/-- The resources that a template comes to, with at most `depth` templates below it. -/
def processResources (macros : Bool) (depth : Nat) (t : Template) (ctx : Context) :
    Run StackError Resources := do
  let rs ← Run.ofExcept t.resources
  let parts ← rs.mapM fun (name, r) => do
    if r.needsFlattening then
      let (kind, path, nested) ←
        Run.ofExcept (r.nestedContext name ctx (← Run.workingDirectory))
      match depth with
      | 0 => Run.fail (.endlessNesting path)
      | depth + 1 =>
        Run.note .debug .flattening
          ("Inlining " ++ kind.resourceType ++ " " ++ name ++ " from " ++ path.text)
        let inner ← Template.load macros path
        processResources macros depth inner nested
    else
      return [← renameResource ctx name r]
  return parts.flatten

/-- The resources that a template comes to. -/
def Template.process (macros : Bool) (t : Template) (ctx : Context) : Run StackError Resources := do
  processResources macros (← Run.depth) t ctx

/-- The template in a file without nested templates. -/
def flatten (macros : Bool) (path : Path) : Run StackError Template := do
  Run.note .info .flattening ("Flattening " ++ path.text)
  let t ← Template.load macros path
  let rs ← t.process macros (.root path)
  let flattened ← t.assemble rs
  Run.note .info .flattening
    ("Flattened " ++ path.text ++ " into " ++ toString rs.length ++ " resources")
  return flattened

end NestedStacks
