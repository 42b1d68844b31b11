/-
Reading scalars, character by character.

Plain and quoted scalars may go over several lines, which are folded: one break becomes a
space, of several breaks the first one disappears.  `Folding` holds what has been read with
the gap that has not been decided yet.  Block scalars keep or fold whole lines.

* `plainScalar`, `quotedScalar`, `blockScalar` — each reads one scalar from its first
  character on and gives back the cursor behind it.
-/
import NestedStacks.Markup.Token

namespace NestedStacks.Markup

/-- Text read so far, in reverse, and the gap behind it. -/
structure Folding where
  text : List Char := []
  /-- Blanks of the gap, in reverse, while no break has been met. -/
  blanks : List Char := []
  /-- Whether the gap holds a break. -/
  broken : Bool := false
  /-- The first break of the gap. -/
  firstBreak : List Char := []
  /-- The further breaks of the gap, in reverse. -/
  moreBreaks : List Char := []

namespace Folding

/-- A blank in the gap: behind a break it is indentation. -/
def blank (f : Folding) (c : Char) : Folding :=
  if f.broken then f else { f with blanks := c :: f.blanks }

/-- A break in the gap: it drops the blanks in front of it. -/
def lineBreak (f : Folding) (c : Char) : Folding :=
  if f.broken then { f with moreBreaks := breakText c :: f.moreBreaks }
  else { f with blanks := [], broken := true, firstBreak := [breakText c] }

/-- A break that an escape takes out of the text. -/
def escapedBreak (f : Folding) : Folding :=
  { text := f.text, broken := true }

/-- Puts what the gap stands for behind the text. -/
def join (f : Folding) : Folding :=
  if f.broken then
    if f.firstBreak = ['\n'] then
      if f.moreBreaks.isEmpty then { text := ' ' :: f.text }
      else { text := f.moreBreaks ++ f.text }
    else { text := f.moreBreaks ++ (f.firstBreak ++ f.text) }
  else { text := f.blanks ++ f.text }

/-- A character of the text, with the gap in front of it. -/
def push (f : Folding) (c : Char) : Folding :=
  let f := f.join
  { f with text := c :: f.text }

/-- The text without the gap behind it. -/
def result (f : Folding) : String := String.ofList f.text.reverse

end Folding

/-- Characters that end a plain scalar inside a flow collection. -/
def isFlowIndicator (c : Char) : Bool :=
  c == ',' || c == '[' || c == ']' || c == '\x7b' || c == '\x7d'

/-- Reads a plain scalar.  `inWord` says whether the last character was a part of it; between
words, a comment, a mark between documents or a line with less indentation ends it. -/
def plainScalar (flow : Bool) (indent : Int) :
    List Char → Position → Folding → Bool → Except Fault (Folding × Cursor)
  | [], p, f, _ => .ok (f, ⟨[], p⟩)
  | '\r' :: '\n' :: r, p, f, _ => plainScalar flow indent r (p.nextLine 2) (f.lineBreak '\n') false
  | c :: r, p, f, inWord =>
    if isBreak c then plainScalar flow indent r (p.nextLine 1) (f.lineBreak c) false
    else if isBlank c then
      if f.broken && decide ((p.column : Int) < indent) && c == '\t' then .error .tabIndentation
      else plainScalar flow indent r (p.right 1) (f.blank c) false
    else
      let here : Cursor := ⟨c :: r, p⟩
      let gapBehind := f.broken || !f.blanks.isEmpty
      let outside := gapBehind && !flow && decide ((p.column : Int) < indent)
      if !inWord && (outside || here.atDocumentMark || c == '#') then .ok (f, here)
      else if flow && c == ':' && (r.head?.any fun x => x == '?' || isFlowIndicator x) then
        .error .strayCharacter
      else if (c == ':' && endsWord r.head?) || (flow && isFlowIndicator c) then .ok (f, here)
      else plainScalar flow indent r (p.right 1) (f.push c) true

/-- Where in a quoted scalar a character stands. -/
inductive QuotedMode where
  /-- At the start or behind a gap. -/
  | gap
  /-- Behind a character of the text. -/
  | word
  /-- Behind a backslash. -/
  | escape
  /-- Inside the digits of an escape: how many are left, and the value so far. -/
  | digits (left value : Nat)
  /-- Behind a single quote, which may be doubled. -/
  | quote

/-- The character of a one-letter escape. -/
def simpleEscape? : Char → Option Char
  | '0' => some '\x00'
  | 'a' => some '\x07'
  | 'b' => some '\x08'
  | 't' => some '\t'
  | '\t' => some '\t'
  | 'n' => some '\n'
  | 'v' => some '\x0b'
  | 'f' => some '\x0c'
  | 'r' => some '\r'
  | 'e' => some '\x1b'
  | ' ' => some ' '
  | '\x22' => some '\x22'
  | '/' => some '/'
  | '\\' => some '\\'
  | 'N' => some '\u0085'
  | '_' => some '\u00a0'
  | 'L' => some '\u2028'
  | 'P' => some '\u2029'
  | _ => none

/-- How many digits an escape with a character code has. -/
def codeEscape? : Char → Option Nat
  | 'x' => some 2
  | 'u' => some 4
  | 'U' => some 8
  | _ => none

/-- Reads a quoted scalar from behind its first quote. -/
def quotedScalar (double : Bool) :
    List Char → Position → Folding → QuotedMode → Except Fault (Folding × Cursor)
  | [], p, f, .quote => .ok (f, ⟨[], p⟩)
  | [], _, _, _ => .error .openQuote
  | '\r' :: '\n' :: r, p, f, mode =>
    match mode with
    | .gap | .word => quotedScalar double r (p.nextLine 2) (f.lineBreak '\n') .gap
    | .escape => quotedScalar double r (p.nextLine 2) f.escapedBreak .gap
    | .digits _ _ => .error .escape
    | .quote => .ok (f, ⟨'\r' :: '\n' :: r, p⟩)
  | c :: r, p, f, .digits left value =>
    match hexValue? c, left with
    | some d, left + 2 => quotedScalar double r (p.right 1) f (.digits (left + 1) (16 * value + d))
    | some d, _ =>
      let code := 16 * value + d
      if code.isValidChar then quotedScalar double r (p.right 1) (f.push (Char.ofNat code)) .word
      else .error .escape
    | none, _ => .error .escape
  | c :: r, p, f, .escape =>
    if isBreak c then quotedScalar double r (p.nextLine 1) f.escapedBreak .gap
    else
      match simpleEscape? c, codeEscape? c with
      | some x, _ => quotedScalar double r (p.right 1) (f.push x) .word
      | none, some n => quotedScalar double r (p.right 1) f (.digits n 0)
      | none, none => .error .escape
  | c :: r, p, f, .quote =>
    if c == '\x27' then quotedScalar double r (p.right 1) (f.push c) .word
    else .ok (f, ⟨c :: r, p⟩)
  | c :: r, p, f, mode =>
    let between := match mode with | .gap => true | _ => false
    if isBreak c then quotedScalar double r (p.nextLine 1) (f.lineBreak c) .gap
    else if isBlank c then quotedScalar double r (p.right 1) (f.blank c) .gap
    else if between && (Cursor.mk (c :: r) p).atDocumentMark then .error .openQuote
    else if double && c == '\x22' then .ok (f.join, ⟨r, p.right 1⟩)
    else if double && c == '\\' then quotedScalar double r (p.right 1) f.join .escape
    else if !double && c == '\x27' then quotedScalar double r (p.right 1) f.join .quote
    else quotedScalar double r (p.right 1) (f.push c) .word

/-- What happens to the breaks at the end of a block scalar. -/
inductive Chomping where
  | strip
  | clip
  | keep
  deriving DecidableEq

/-- Steps over indentation and empty lines.  `indent` is zero as long as it is unknown; the
answer holds the breaks, in reverse, and the greatest column that indentation reached. -/
def blankLines (indent : Nat) :
    List Char → Position → List Char → Nat → Except Fault (List Char × Nat × Cursor)
  | [], p, breaks, widest => .ok (breaks, max widest p.column, ⟨[], p⟩)
  | '\r' :: '\n' :: r, p, breaks, widest =>
    blankLines indent r (p.nextLine 2) ('\n' :: breaks) (max widest p.column)
  | c :: r, p, breaks, widest =>
    let inside := indent == 0 || decide (p.column < indent)
    if c == ' ' && inside then blankLines indent r (p.right 1) breaks widest
    else if c == '\t' && inside then .error .tabIndentation
    else if isBreak c then
      blankLines indent r (p.nextLine 1) (breakText c :: breaks) (max widest p.column)
    else .ok (breaks, max widest p.column, ⟨c :: r, p⟩)

/-- The lines of a block scalar read so far. -/
structure BlockText where
  /-- The text, in reverse. -/
  text : List Char := []
  /-- The break at the end of the last line with text. -/
  lastBreak : List Char := []
  /-- The empty lines behind it, in reverse. -/
  emptyLines : List Char := []
  /-- Whether the last line with text starts with a blank. -/
  blankStart : Bool := false

/-- Starts a line whose first character is a blank or not. -/
def BlockText.startLine (b : BlockText) (folded blank : Bool) : BlockText :=
  let text :=
    if folded && b.lastBreak == ['\n'] && !b.blankStart && !blank then
      if b.emptyLines.isEmpty then ' ' :: b.text else b.emptyLines ++ b.text
    else b.emptyLines ++ (b.lastBreak ++ b.text)
  { text, blankStart := blank }

/-- The text with as many breaks at its end as the chomping says. -/
def BlockText.result (b : BlockText) (chomping : Chomping) : String :=
  let text :=
    match chomping with
    | .strip => b.text
    | .clip => b.lastBreak ++ b.text
    | .keep => b.emptyLines ++ (b.lastBreak ++ b.text)
  String.ofList text.reverse

/-- Reads the lines of a block scalar; `inLine` says whether the place is inside the text of a
line or in front of it. -/
def blockLines (folded : Bool) (indent : Nat) :
    List Char → Position → BlockText → Bool → Except Fault (BlockText × Cursor)
  | [], p, b, _ => .ok (b, ⟨[], p⟩)
  | '\r' :: '\n' :: r, p, b, inLine =>
    let b := if inLine then { b with lastBreak := ['\n'] }
      else { b with emptyLines := '\n' :: b.emptyLines }
    blockLines folded indent r (p.nextLine 2) b false
  | c :: r, p, b, true =>
    if isBreak c then
      blockLines folded indent r (p.nextLine 1) { b with lastBreak := [breakText c] } false
    else blockLines folded indent r (p.right 1) { b with text := c :: b.text } true
  | c :: r, p, b, false =>
    let inside := decide (p.column < indent)
    if c == ' ' && inside then blockLines folded indent r (p.right 1) b false
    else if c == '\t' && inside then .error .tabIndentation
    else if isBreak c then
      blockLines folded indent r (p.nextLine 1)
        { b with emptyLines := breakText c :: b.emptyLines } false
    else if p.column == indent then
      let b := b.startLine folded (isBlank c)
      blockLines folded indent r (p.right 1) { b with text := c :: b.text } true
    else .ok (b, ⟨c :: r, p⟩)

/-- A chomping hint. -/
def chomping? : Option Char → Option Chomping
  | some '+' => some .keep
  | some '-' => some .strip
  | _ => none

/-- An indentation hint: a digit, with zero being refused. -/
def indentHint? (c : Cursor) : Except Fault (Nat × Cursor) :=
  match c.head? with
  | some d =>
    if d == '0' then .error .blockHeader
    else if d.isDigit then .ok (d.toNat - 48, c.advance 1)
    else .ok (0, c)
  | none => .ok (0, c)

/-- The hints behind the indicator of a block scalar, in either order. -/
def blockHints (c : Cursor) : Except Fault (Chomping × Nat × Cursor) := do
  match chomping? c.head? with
  | some chomping =>
    let (hint, c) ← indentHint? (c.advance 1)
    .ok (chomping, hint, c)
  | none =>
    let (hint, c) ← indentHint? c
    match chomping? c.head?, hint with
    | some chomping, _ + 1 => .ok (chomping, hint, c.advance 1)
    | _, _ => .ok (.clip, hint, c)

/-- Reads a block scalar from behind its indicator.  `outer` is the indentation of the
collection around it. -/
def blockScalar (folded : Bool) (outer : Int) (c : Cursor) : Except Fault (String × Cursor) := do
  let (chomping, hint, c) ← blockHints c
  match c.lineEnd? with
  | none => .error .blockHeader
  | some c =>
    let given : Nat := if hint = 0 then 0 else (if 0 ≤ outer then outer + hint else hint).toNat
    let (breaks, widest, c) ← blankLines given c.rest c.position [] 0
    -- an unknown indentation is that of the first line with text
    let indent := if given = 0 then max (max widest (outer + 1).toNat) 1 else given
    let (b, c) ← blockLines folded indent c.rest c.position { emptyLines := breaks } false
    .ok (b.result chomping, c)

end NestedStacks.Markup
