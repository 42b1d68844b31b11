/-
A place in the text of a document: what is left of it, and how far the place is from the start
of the text and of its line.
-/
import NestedStacks.Markup.Character

namespace NestedStacks.Markup

/-- Where in a text something stands, all counted in characters. -/
structure Position where
  index : Nat
  line : Nat
  column : Nat
  deriving DecidableEq, Repr

/-- The start of a text. -/
def Position.start : Position := ⟨0, 0, 0⟩

/-- Behind `n` further characters of the same line. -/
def Position.right (p : Position) (n : Nat) : Position := ⟨p.index + n, p.line, p.column + n⟩

/-- At the start of the next line, behind a break of `n` characters. -/
def Position.nextLine (p : Position) (n : Nat) : Position := ⟨p.index + n, p.line + 1, 0⟩

/-- The rest of a text together with its position. -/
structure Cursor where
  rest : List Char
  position : Position

namespace Cursor

/-- The character at the cursor. -/
def head? (c : Cursor) : Option Char := c.rest.head?

/-- The character `n` places behind the cursor. -/
def ahead? (c : Cursor) (n : Nat) : Option Char := c.rest[n]?

/-- Whether the text goes on with `s`. -/
def startsWith (c : Cursor) (s : String) : Bool := s.toList.isPrefixOf c.rest

/-- Steps over `n` characters, none of them a break. -/
def advance (c : Cursor) (n : Nat) : Cursor := ⟨c.rest.drop n, c.position.right n⟩

/-- Takes the characters of one line that satisfy `p`. -/
def takeWhile (c : Cursor) (p : Char → Bool) : List Char × Cursor :=
  let taken := c.rest.takeWhile p
  (taken, c.advance taken.length)

/-- Steps over the characters of one line that satisfy `p`. -/
def dropWhile (c : Cursor) (p : Char → Bool) : Cursor := (c.takeWhile p).2

/-- Steps over one line break, if there is one. -/
def skipBreak (c : Cursor) : Cursor :=
  match c.rest with
  | '\r' :: '\n' :: r => ⟨r, c.position.nextLine 2⟩
  | x :: r => if isBreak x then ⟨r, c.position.nextLine 1⟩ else c
  | [] => c

/-- Whether a line starts here with one of the two marks between documents. -/
def atDocumentMark (c : Cursor) : Bool :=
  c.position.column == 0 && (c.startsWith "---" || c.startsWith "...") && endsWord (c.ahead? 3)

/-- Steps over blanks and a comment to the end of the line; nothing if something else is left
on the line. -/
def lineEnd? (c : Cursor) : Option Cursor :=
  let c := c.dropWhile isBlank
  let c := if c.head? = some '#' then c.dropWhile (fun x => !isBreak x) else c
  if endsLine c.head? then some c.skipBreak else none

end Cursor

end NestedStacks.Markup
