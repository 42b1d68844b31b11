/-
Renaming the references of a resource.

References are the payloads of `Ref` and `GetAtt` and the placeholders of `Sub`.  Everything
else stays as it is, apart from the spelling of tags.

* `Tree.retarget` — all references in a tree;
* `Resource.retarget` — the properties and the dependencies of a resource.
-/
import NestedStacks.Tag.Node
import NestedStacks.Template.Expression
import NestedStacks.Template.Resource

namespace NestedStacks

/-- The text of a function's scalar payload after renaming. -/
def retargetScalar (ctx : Context) (function : Intrinsic) (s : String) : String :=
  match function with
  | .ref | .getAtt => ctx.retargetPath s
  | .sub => retargetExpression [] ctx s
  | _ => s

/-- The first item of a `GetAtt` is the name of a resource. -/
def retargetGetAtt (ctx : Context) : List Tree → List Tree
  | .str name :: rest => .str (ctx.retarget name) :: rest
  | items => items

/-- The first item of a `Sub` is its expression; any other value stays as it is. -/
def retargetSub (ctx : Context) (locals : Entries) : Tree → Tree
  | .str expression => .str (retargetExpression locals ctx expression)
  | t => t

/-- The names that a `Sub` defines for its expression: those of its second item. -/
def subLocals : List Tree → Entries
  | _ :: second :: _ => second.asEntries?.getD []
  | _ => []

namespace Tree

mutual
/-- Renames the references of a tree; keys and the payloads of macros stay as they are. -/
def retarget (ctx : Context) : Tree → Except DocumentError Tree
  | .seq items => do return .seq (← retargetItems ctx items)
  | .map entries => do return .map (← retargetEntries ctx entries)
  | .tagged tag payload => do
    let node ← TaggedNode.ofTagged tag payload
    match node.tag, node.payload with
    | .macroTag _, _ => return node.toTree
    | .intrinsic i, .scalar s => return .tagged node.tag.spelling (.str (retargetScalar ctx i s))
    | .intrinsic i, _ => return .tagged node.tag.spelling (← retargetPayload ctx i payload)
  | t => return t

/-- Renames the references of a payload that is no scalar. -/
def retargetPayload (ctx : Context) (function : Intrinsic) : Tree → Except DocumentError Tree
  | .seq (first :: rest) =>
    match function with
    | .sub => do
      let locals := subLocals (first :: rest)
      return .seq (retargetSub ctx locals first :: (← retargetItems ctx rest))
    | .getAtt => do
      let first ← retarget ctx first
      let rest ← retargetItems ctx rest
      return .seq (retargetGetAtt ctx (first :: rest))
    | _ => do
      let first ← retarget ctx first
      let rest ← retargetItems ctx rest
      return .seq (first :: rest)
  | .map entries => do return .map (← retargetEntries ctx entries)
  | t => return t

/-- Renames the references of several trees. -/
def retargetItems (ctx : Context) : List Tree → Except DocumentError (List Tree)
  | [] => return []
  | t :: rest => do
    let t ← retarget ctx t
    return t :: (← retargetItems ctx rest)

/-- Renames the references of the values of several entries. -/
def retargetEntries (ctx : Context) :
    List (Tree × Tree) → Except DocumentError (List (Tree × Tree))
  | [] => return []
  | (k, v) :: rest => do
    let v ← retarget ctx v
    return (k, v) :: (← retargetEntries ctx rest)
end

mutual
/-- Puts the prefix in front of what a resource depends on: a name, or names in lists. -/
def prefixDependency (ctx : Context) : Tree → Tree
  | .str name => .str (ctx.prefixed name)
  | .seq names => .seq (prefixDependencies ctx names)
  | t => t

/-- Puts the prefix in front of several dependencies. -/
def prefixDependencies (ctx : Context) : List Tree → List Tree
  | [] => []
  | t :: rest => prefixDependency ctx t :: prefixDependencies ctx rest
end

end Tree

namespace Resource

/-- Sets the dependencies of a resource that has any. -/
def prefixDependsOn (ctx : Context) (r changed : Resource) : Resource :=
  match r.get? "DependsOn" with
  | some t => changed.set "DependsOn" (t.prefixDependency ctx)
  | none => changed

/-- The resource with renamed references. -/
def retarget (ctx : Context) (r : Resource) : Except DocumentError Resource :=
  match r.properties? with
  | some t => do return prefixDependsOn ctx r (r.set "Properties" (← t.retarget ctx))
  | none => return prefixDependsOn ctx r r

end Resource

end NestedStacks
