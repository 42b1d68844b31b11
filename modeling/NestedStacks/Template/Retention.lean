/-
Retention: resources that hold data get a policy that keeps them when the stack is deleted.

* `Marker.mark` — the template with the policy on all resources of stateful types;
* `Marker.run` — the same, with reports.
-/
import NestedStacks.Template.Basic

namespace NestedStacks

/-- The types of resources that hold data worth keeping. -/
def statefulTypes : List String :=
  ["AWS::DynamoDB::Table", "AWS::Cognito::UserPool", "AWS::Cognito::IdentityPool",
    "AWS::S3::Bucket", "AWS::Glue::Database", "AWS::Glue::Table", "AWS::SQS::Queue",
    "AWS::Kinesis::Stream"]

/-- Which resources get which policy. -/
structure Marker where
  types : List String := statefulTypes
  policy : String := "Retain"
  deriving DecidableEq, Repr, Inhabited

namespace Marker

/-- The usual types and policy. -/
def standard : Marker := {}

/-- Further stateful types. -/
def withTypes (m : Marker) (types : List String) : Marker := { m with types := m.types ++ types }

/-- Another policy. -/
def withPolicy (m : Marker) (policy : String) : Marker := { m with policy }

/-- Whether a type is stateful. -/
def isStateful (m : Marker) (type : String) : Bool := m.types.contains type

/-- Whether a resource gets the policy. -/
def applies (m : Marker) (r : Resource) : Bool := r.type?.any m.isStateful

/-- The resource with the policy, if it gets one. -/
def markResource (m : Marker) (r : Resource) : Resource :=
  if m.applies r then r.setDeletionPolicy m.policy else r

/-- The resources with the policy on those that get it. -/
def markAll (m : Marker) (rs : Resources) : Resources :=
  rs.map fun (name, r) => (name, m.markResource r)

/-- The template with the policy on all resources that get it. -/
def mark (m : Marker) (t : Template) : Except StackError Template := do
  return t.setResources (m.markAll (← t.resources))

/-- Marks a template and reports on it. -/
def run (m : Marker) (t : Template) : Run StackError Template := do
  let rs ← Run.ofExcept t.resources
  let marked := rs.filter fun (_, r) => m.applies r
  Run.noteAll .debug .retaining
    (marked.map fun (name, _) => "Marking " ++ name ++ " with DeletionPolicy " ++ m.policy)
  let t ← t.assemble (m.markAll rs)
  Run.note .info .retaining
    ("Marked " ++ toString marked.length ++ " resources with DeletionPolicy " ++ m.policy)
  return t

end Marker

end NestedStacks
