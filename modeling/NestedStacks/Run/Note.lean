/-
Notes: what the library reports while it works.

* `Note` — one report with its level and the part of the library that it comes from;
* `NoteFilter.keeps` — whether a filter lets a note through.
-/
import NestedStacks.Text.Split

namespace NestedStacks

/-- How important a note is. -/
inductive Level where
  | error
  | warn
  | info
  | debug
  | trace
  deriving DecidableEq, Repr

/-- The rank of a level: the more important, the lower. -/
def Level.rank : Level → Nat
  | .error => 1
  | .warn => 2
  | .info => 3
  | .debug => 4
  | .trace => 5

/-- The name of a level in reports. -/
def Level.name : Level → String
  | .error => "ERROR"
  | .warn => "WARN"
  | .info => "INFO"
  | .debug => "DEBUG"
  | .trace => "TRACE"

/-- The part of the program that a note comes from. -/
inductive Origin where
  | loading
  | including
  | flattening
  | assembling
  | retaining
  | settings
  | writing
  | retainCommand
  deriving DecidableEq, Repr

/-- The name by which filters select notes of a part. -/
def Origin.target : Origin → String
  | .loading => "stackfold_yaml::loader"
  | .including => "stackfold_yaml::macros"
  | .flattening => "stackfold_core::flatten"
  | .assembling => "stackfold_core::template"
  | .retaining => "stackfold_core::retain"
  | .settings => "stackfold::config"
  | .writing => "stackfold::commands"
  | .retainCommand => "stackfold::commands::retain"

/-- One report. -/
structure Note where
  level : Level
  origin : Origin
  message : String
  deriving DecidableEq, Repr

/-- One rule of a filter: parts whose name starts with `target` report up to a rank; rank zero
reports nothing. -/
structure FilterRule where
  target : String
  rank : Nat
  deriving DecidableEq, Repr

/-- Which notes are shown. -/
structure NoteFilter where
  rules : List FilterRule
  deriving DecidableEq, Repr

namespace NoteFilter

/-- The rule with the longest target among those for a part, a later one of two equals. -/
def ruleFor (f : NoteFilter) (target : String) : Option FilterRule :=
  f.rules.foldl (fun best r =>
    if r.target.toList.isPrefixOf target.toList then
      match best with
      | some b => if b.target.length ≤ r.target.length then some r else best
      | none => some r
    else best) none

/-- Whether a note is shown. -/
def keeps (f : NoteFilter) (n : Note) : Bool :=
  (f.ruleFor n.origin.target).any fun r => n.level.rank ≤ r.rank

/-- The rank that a word of a filter stands for: the name of a level in any case, or its number.
-/
def rank? (word : String) : Option Nat :=
  match word.map Char.toLower with
  | "off" => some 0
  | "error" => some 1
  | "warn" => some 2
  | "info" => some 3
  | "debug" => some 4
  | "trace" => some 5
  | word =>
    let digits := match word.toList with
      | '+' :: digits => digits
      | digits => digits
    let n := digits.foldl (fun n c => 10 * n + (c.toNat - '0'.toNat)) 0
    if !digits.isEmpty && digits.all Char.isDigit && n ≤ 5 then some n else none

/-- Whether a text can be the name of a part: how it starts decides.  A bracket would open the
name of a span of work, and no part has such spans. -/
def isTarget (s : String) : Bool :=
  match s.toList with
  | [] => false
  | c :: rest =>
    (c.isAlphanum || c == '_' || c == ':' || c == '-' || 0x7f < c.toNat) && !rest.contains '['

/-- A rule: a level for all parts, a part with all its levels, or a part and a level. -/
def rule? (s : String) : Option FilterRule :=
  let (target, word) := Text.cut '=' s.toList
  let target := String.ofList target
  if !isTarget target then none
  else
    match word with
    | none => some ((rank? s).elim ⟨s, 5⟩ fun n => ⟨"", n⟩)
    | some [] => some ⟨target, 5⟩
    | some word => (rank? (String.ofList word)).map fun n => ⟨target, n⟩

/-- Reads the rules of a filter, which are separated by commas.  A filter without rules shows
errors. -/
def parse? (s : String) : Option NoteFilter :=
  let words := (Text.pieces ',' s.toList).filter (!·.isEmpty)
  match (words.map String.ofList).mapM rule? with
  | some [] => some ⟨[⟨"", 1⟩]⟩
  | some rules => some ⟨rules⟩
  | none => none

end NoteFilter

end NestedStacks
