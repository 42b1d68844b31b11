/-
The naming of one template: where it is, which parameters it is given, and what is put in front
of the names of its resources.

* `Context.retarget` — the name that a reference has after renaming;
* `Context.retargetPath` — the same for a reference to an attribute.
-/
import NestedStacks.Document.Tree
import NestedStacks.Path

namespace NestedStacks

/-- The naming of one template. -/
structure Context where
  /-- The path of the template. -/
  location : Option Path := none
  /-- The parameters given by the stack around it. -/
  bindings : Entries := []
  /-- What is put in front of names. -/
  namePrefix : String := ""
  deriving Inhabited

namespace Context

/-- The naming of the outermost template: nothing is renamed. -/
def root (location : Path) : Context := ⟨some location, [], ""⟩

/-- The naming of a template that a stack resource stands for. -/
def nested (location : Path) (bindings : Entries) (namePrefix : String) : Context :=
  ⟨some location, bindings, namePrefix⟩

/-- Whether a name is a parameter given from outside. -/
def isBound (ctx : Context) (name : String) : Bool := ctx.bindings.hasKey name

/-- The name of a resource after renaming. -/
def prefixed (ctx : Context) (name : String) : String := ctx.namePrefix ++ name

/-- Names of pseudo parameters, which belong to no template. -/
def isPseudo (name : String) : Bool := "AWS::".toList.isPrefixOf name.toList

/-- The name that a reference has after renaming. -/
def retarget (ctx : Context) (name : String) : String :=
  if ctx.isBound name || isPseudo name then name else ctx.prefixed name

/-- The reference to a resource or, behind the first point, to its attribute after renaming. -/
def retargetPath (ctx : Context) (path : String) : String :=
  match Text.cut '.' path.toList with
  | (name, none) => ctx.retarget (String.ofList name)
  | (name, some rest) =>
    ctx.retarget (String.ofList name) ++ "." ++ String.ofList rest

end Context

end NestedStacks
