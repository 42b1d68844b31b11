/-
Scopes: the directory that relative paths in a document start from.
-/
import NestedStacks.Path

namespace NestedStacks

/-- The directory for the relative paths of a document. -/
structure Scope where
  base : Path
  deriving DecidableEq, Repr

namespace Scope

/-- The working directory. -/
def here : Scope := ⟨⟨"."⟩⟩

/-- The scope of a file: its own directory. -/
def ofFile (p : Path) : Scope :=
  match p.parent? with
  | some dir => if dir.text = "" then here else ⟨dir⟩
  | none => here

/-- The path that a text means in a scope. -/
def resolve (s : Scope) (text : String) : Path := s.base.join ⟨text⟩

end Scope

end NestedStacks
