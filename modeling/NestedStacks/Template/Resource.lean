/-
Resources: the entries of a template's `Resources`.

A resource keeps all its keys in their order; those with a meaning have names here.
-/
import NestedStacks.Error
import NestedStacks.Template.Context

namespace NestedStacks

/-- A resource: a mapping with whatever keys it has. -/
structure Resource where
  body : Entries
  deriving Inhabited

namespace Resource

/-- The value of a key. -/
def get? (r : Resource) (key : String) : Option Tree := r.body.get? key

/-- Sets the value of a key, in its old place or else at the end. -/
def set (r : Resource) (key : String) (value : Tree) : Resource := ⟨r.body.set key value⟩

/-- The resource as a tree. -/
def toTree (r : Resource) : Tree := .map r.body

/-- A resource of a type, without anything else. -/
def ofType (type : String) : Resource := ⟨[(.str "Type", .str type)]⟩

/-- The resource with a name whose body is a tree. -/
def ofTree (name : String) : Tree → Except StackError Resource
  | .map body => .ok ⟨body⟩
  | _ => .error (.invalidTemplate (.resourceNotMapping name))

/-- The type of a resource, seen through tags. -/
def type? (r : Resource) : Option String := (r.get? "Type").bind Tree.asString?

/-- The properties of a resource. -/
def properties? (r : Resource) : Option Tree := r.get? "Properties"

/-- One of the properties, with the tags in front of all of them ignored. -/
def property? (r : Resource) (key : String) : Option Tree :=
  (r.properties?.bind Tree.asEntries?).bind fun entries => Entries.get? entries key

/-- What happens to the resource when its stack is deleted. -/
def deletionPolicy? (r : Resource) : Option String :=
  (r.get? "DeletionPolicy").bind Tree.asString?

/-- Sets what happens to the resource when its stack is deleted. -/
def setDeletionPolicy (r : Resource) (policy : String) : Resource :=
  r.set "DeletionPolicy" (.str policy)

/-- The kind of stack that a resource is. -/
def stackKind? (r : Resource) : Option StackKind := r.type?.bind StackKind.ofType?

/-- The text of the location of a stack, seen through tags. -/
def location? (r : Resource) : Option String := (r.property? "Location").bind Tree.asString?

/-- Whether a location is that of a local template. -/
def isTemplateLocation (location : String) : Bool :=
  templateExtension.toList.isSuffixOf location.toList

/-- Whether a resource is a stack that stands for a local template. -/
def needsFlattening (r : Resource) : Bool :=
  r.stackKind?.isSome && r.location?.any isTemplateLocation

end Resource

end NestedStacks
