/-
Reading tags, anchors and directives.

The characters of a tag behind its handle are octets: a percent sign and two hexadecimal
digits stand for any of them, and a text ends at its first zero octet.

* `tagToken`, `anchorName`, `directive` — each reads from its indicator on.
-/
import NestedStacks.Markup.Token

namespace NestedStacks.Markup

/-- Characters that a tag may hold as they are; flow indicators only in a verbatim tag. -/
def isTagChar (verbatim : Bool) (c : Char) : Bool :=
  isNameChar c || ";/?:@&=+$.!~*\x27()%".toList.contains c
    || (verbatim && (c == ',' || c == '[' || c == ']'))

/-- How many octets a UTF-8 sequence with this first octet has; zero if none starts so. -/
def sequenceLength (octet : Nat) : Nat :=
  if octet < 0x80 then 1
  else if 0xc0 ≤ octet ∧ octet < 0xe0 then 2
  else if 0xe0 ≤ octet ∧ octet < 0xf0 then 3
  else if 0xf0 ≤ octet ∧ octet < 0xf8 then 4
  else 0

/-- Where the characters of a tag are read. -/
inductive TagMode where
  | plain
  /-- Behind a percent sign. -/
  | first
  /-- Behind a percent sign and its first digit. -/
  | second (digit : Nat)
  /-- In front of the percent sign of a further octet. -/
  | percent

/-- Reads the characters of a tag as octets, in reverse.  `missing` counts the octets that an
escaped sequence still needs. -/
def tagOctets (verbatim : Bool) :
    List Char → Position → TagMode → Nat → List UInt8 → Except Fault (List UInt8 × Cursor)
  | [], p, .plain, _, acc => .ok (acc, ⟨[], p⟩)
  | [], _, _, _, _ => .error .tagSyntax
  | c :: r, p, .plain, _, acc =>
    if !isTagChar verbatim c then .ok (acc, ⟨c :: r, p⟩)
    else if c == '%' then tagOctets verbatim r (p.right 1) .first 0 acc
    else tagOctets verbatim r (p.right 1) .plain 0 (UInt8.ofNat c.toNat :: acc)
  | c :: r, p, .percent, missing, acc =>
    if c == '%' then tagOctets verbatim r (p.right 1) .first missing acc
    else .error .tagSyntax
  | c :: r, p, .first, missing, acc =>
    match hexValue? c with
    | some d => tagOctets verbatim r (p.right 1) (.second d) missing acc
    | none => .error .tagSyntax
  | c :: r, p, .second high, missing, acc =>
    match hexValue? c with
    | none => .error .tagSyntax
    | some d =>
      let octet := 16 * high + d
      let continues := decide (0x80 ≤ octet ∧ octet < 0xc0)
      let left := if missing = 0 then sequenceLength octet else missing
      if left = 0 || (missing != 0 && !continues) then .error .tagSyntax
      else
        let mode := if left = 1 then TagMode.plain else .percent
        tagOctets verbatim r (p.right 1) mode (left - 1) (UInt8.ofNat octet :: acc)

/-- The characters of a tag from the cursor on, cut at a zero octet; whether there are any at
all is decided before the cut. -/
def readTagText (verbatim : Bool) (c : Cursor) : Except Fault (Bool × List UInt8 × Cursor) := do
  let (octets, next) ← tagOctets verbatim c.rest c.position .plain 0 []
  .ok (octets.isEmpty, octets.reverse.takeWhile (· != 0), next)

/-- An exclamation mark, name characters and, if there is one, a second exclamation mark. -/
def tagHandle (c : Cursor) : List Char × Cursor :=
  let (name, c) := (c.advance 1).takeWhile isNameChar
  if c.head? = some '!' then ('!' :: name ++ ['!'], c.advance 1) else ('!' :: name, c)

/-- Reads a tag: verbatim, with a handle, or local. -/
def tagToken (flow : Bool) (c : Cursor) : Except Fault (Token × Cursor) := do
  let (token, c) ←
    if c.ahead? 1 = some '<' then do
      let (empty, suffix, c) ← readTagText true (c.advance 2)
      if empty || c.head? != some '>' then throw Fault.tagSyntax
      pure (Token.tag "" suffix, c.advance 1)
    else do
      let (handle, c) := tagHandle c
      if 1 < handle.length && handle.getLast? = some '!' then do
        let (empty, suffix, c) ← readTagText false c
        if empty then throw Fault.tagSyntax
        pure (Token.tag (String.ofList handle) suffix, c)
      else do
        let (_, suffix, c) ← readTagText false c
        let suffix := (handle.drop 1).map (fun x => UInt8.ofNat x.toNat) ++ suffix
        -- the tag that is an exclamation mark only stands for itself
        pure (if suffix.isEmpty then Token.tag "" [33] else Token.tag "!" suffix, c)
  if endsWord c.head? || (flow && c.head? = some ',') then .ok (token, c)
  else .error .tagSyntax

/-- Reads the name of an anchor or an alias from its indicator on. -/
def anchorName (c : Cursor) : Except Fault (String × Cursor) :=
  let (name, c) := (c.advance 1).takeWhile isNameChar
  let ended := endsWord c.head? || (c.head?.any fun x => "?:,]\x7d%@\x60".toList.contains x)
  if name.isEmpty || !ended then .error .anchorName
  else .ok (String.ofList name, c)

/-- A number of a version: at most nine digits. -/
def versionNumber (c : Cursor) : Except Fault (Nat × Cursor) :=
  let (digits, c) := c.takeWhile Char.isDigit
  if digits.isEmpty || 9 < digits.length then .error .directive
  else .ok (digits.foldl (fun n d => 10 * n + (d.toNat - 48)) 0, c)

/-- Reads a directive from its percent sign to the end of its line. -/
def directive (c : Cursor) : Except Fault (Token × Cursor) := do
  let (name, c) := (c.advance 1).takeWhile isNameChar
  if !endsWord c.head? then throw Fault.directive
  let c := c.dropWhile isBlank
  let (token, c) ←
    if String.ofList name = "YAML" then do
      let (major, c) ← versionNumber c
      if c.head? != some '.' then throw Fault.directive
      let (minor, c) ← versionNumber (c.advance 1)
      pure (Token.versionDirective major minor, c)
    else if String.ofList name = "TAG" then do
      if c.head? != some '!' then throw Fault.directive
      let (handle, c) := tagHandle c
      if (handle != ['!'] && handle.getLast? != some '!') || !c.head?.any isBlank then
        throw Fault.directive
      let (empty, expansion, c) ← readTagText true (c.dropWhile isBlank)
      if empty || !endsWord c.head? then throw Fault.directive
      pure (Token.tagDirective (String.ofList handle) expansion, c)
    else throw Fault.directive
  match c.lineEnd? with
  | some c => .ok (token, c)
  | none => .error .directive

end NestedStacks.Markup
