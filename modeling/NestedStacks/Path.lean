/-
Paths: where a file is looked for.

A path is its text.  Joining and taking the parent work on the text and keep its spelling;
`Path.normal` is the one operation that takes `.`, `..` and repeated slashes out.

* `Path.join`, `Path.parent?` — going down and up;
* `Path.normal` — the spelling of an absolute path without anything superfluous;
* `Path.locate` — where a template named in another template is.
-/
import NestedStacks.Text.Split
import NestedStacks.Text.Quoted

namespace NestedStacks

/-- A path, as it is spelled. -/
structure Path where
  text : String
  deriving DecidableEq, Repr, Inhabited

namespace Path

/-- Whether a path starts at the root of the file system. -/
def isAbsolute (p : Path) : Bool := p.text.toList.head? == some '/'

/-- A path inside `base`; an absolute path is independent of it. -/
def join (base p : Path) : Path :=
  if p.isAbsolute then p
  else
    match base.text.toList.getLast? with
    | none => p
    | some '/' => ⟨base.text ++ p.text⟩
    | some _ => ⟨base.text ++ "/" ++ p.text⟩

/-- The names between the slashes of a path; empty ones and dots included. -/
def names (p : Path) : List (List Char) :=
  let cs := p.text.toList
  Text.pieces '/' (if p.isAbsolute then cs.drop 1 else cs)

/-- The path of some names. -/
def ofNames (absolute : Bool) (names : List (List Char)) : Path :=
  ⟨String.ofList ((if absolute then ['/'] else []) ++ List.intercalate ['/'] names)⟩

/-- Whether a name leads nowhere. -/
def isIdle (name : List Char) : Bool := name.isEmpty || name == ['.']

/-- Names in reverse without the idle ones at their end; a dot in front of a relative path is
a name of its own. -/
def trimNames (absolute : Bool) : List (List Char) → List (List Char)
  | [] => []
  | [name] => if name.isEmpty || (absolute && name == ['.']) then [] else [name]
  | name :: rest => if isIdle name then trimNames absolute rest else name :: rest

/-- The path without its last name; `none` if it has no name. -/
def parent? (p : Path) : Option Path :=
  match trimNames p.isAbsolute p.names.reverse with
  | [] => none
  | _ :: rest => some (ofNames p.isAbsolute (trimNames p.isAbsolute rest).reverse)

/-- Takes one step of a path: a dot stays, two dots go back, any other name goes down.  The
names so far are in reverse. -/
def step (steps : List (List Char)) (name : List Char) : List (List Char) :=
  if isIdle name then steps
  else if name == ['.', '.'] then steps.drop 1
  else name :: steps

/-- The names that are left of an absolute path when all its steps have been taken. -/
def normalNames (p : Path) : List (List Char) := (p.names.foldl step []).reverse

/-- The shortest spelling of an absolute path. -/
def normal (p : Path) : Path := ofNames true p.normalNames

/-- `locate workingDirectory master location`: the path of the template that `location` names inside
the template at `master`.  The working directory is given, as it is known to the system. -/
def locate (workingDirectory master : Path) (location : String) : Path :=
  let joined :=
    match master.parent? with
    | some dir => dir.join ⟨location⟩
    | none => ⟨location⟩
  (workingDirectory.join joined).normal

/-- The path in quotes, as messages show it. -/
def quoted (p : Path) : String := Text.quoted p.text

end Path

end NestedStacks
