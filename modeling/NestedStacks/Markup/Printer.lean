/-
Writing documents.

Collections are written in block form, two columns for a level, with no limit to the length of
a line; a sequence below a key starts in the column of the key.  The text of a node starts
behind what introduces it (a dash, a colon, a question mark) and includes the end of its last
line.

* `print` — the text of a document; `none` for a document that has no text (`isPrintable`);
* `keyFits` — whether a key is written in front of its colon.
-/
import NestedStacks.Markup.Style

namespace NestedStacks.Markup

/-- A hexadecimal digit in capitals. -/
def hexDigit (n : Nat) : Char := if n < 10 then Char.ofNat (48 + n) else Char.ofNat (55 + n)

/-- The last `places` hexadecimal digits of a number. -/
def hexDigits (n : Nat) : Nat → String
  | 0 => ""
  | places + 1 => (hexDigits (n / 16) places).push (hexDigit (n % 16))

/-- Characters that a tag shows as they are; the octets of all others are escaped. -/
def isPlainTagChar (c : Char) : Bool :=
  isNameChar c || ";/?:@&=+$,.~*\x27()[]".toList.contains c

/-- The characters of a tag behind its handle. -/
def tagContent (cs : List Char) : String :=
  String.join <| cs.map fun c =>
    if isPlainTagChar c then c.toString
    else String.join (c.toString.toUTF8.toList.map fun b => "%" ++ hexDigits b.toNat 2)

/-- The handle of a tag and what is behind it.  A tag ends at a zero character, and one that is
nothing but an exclamation mark has no handle. -/
def tagParts (tag : String) : String × List Char :=
  let name := (tagName tag).toList
  let whole := if name.head? = some '!' then name else '!' :: name
  match whole.takeWhile (· != '\x00') with
  | '!' :: c :: rest => ("!", c :: rest)
  | content => ("", content)

/-- A tag as it is written. -/
def tagText (tag : String) : String :=
  match tagParts tag with
  | ("", content) => "!<" ++ tagContent content ++ ">"
  | (handle, content) => handle ++ tagContent content

/-- The columns that a tag counts for in the length of a key. -/
def tagLength (tag : String) : Nat :=
  let (handle, content) := tagParts tag
  handle.utf8ByteSize + (String.ofList content).utf8ByteSize

/-- The letter of a one-letter escape. -/
def escapeLetter? : Char → Option Char
  | '\x00' => some '0'
  | '\x07' => some 'a'
  | '\x08' => some 'b'
  | '\t' => some 't'
  | '\n' => some 'n'
  | '\x0b' => some 'v'
  | '\x0c' => some 'f'
  | '\r' => some 'r'
  | '\x1b' => some 'e'
  | '\x22' => some '\x22'
  | '\\' => some '\\'
  | '\u0085' => some 'N'
  | '\u00a0' => some '_'
  | '\u2028' => some 'L'
  | '\u2029' => some 'P'
  | _ => none

/-- A character inside double quotes. -/
def escaped (c : Char) : String :=
  if isPrintable c && !isBreak c && c != '\x22' && c != '\\' then c.toString
  else
    match escapeLetter? c with
    | some x => "\\".push x
    | none =>
      let n := c.toNat
      if n ≤ 0xff then "\\x" ++ hexDigits n 2
      else if n ≤ 0xffff then "\\u" ++ hexDigits n 4
      else "\\U" ++ hexDigits n 8

/-- A text in double quotes. -/
def doubleQuoted (cs : List Char) : String :=
  "\x22" ++ String.join (cs.map escaped) ++ "\x22"

/-- The columns of indentation. -/
def spaces (n : Nat) : String := "".pushn ' ' n

/-- The characters of a text in single quotes.  A line feed is doubled and every line behind a
break is indented; `broken` says whether a break is in front. -/
def singleQuotedBody (indent : Nat) : List Char → Bool → String
  | [], broken => if broken then spaces indent else ""
  | c :: r, broken =>
    if c == ' ' then c.toString ++ singleQuotedBody indent r broken
    else if isBreak c then
      (if !broken && c == '\n' then "\n" else "") ++ c.toString ++ singleQuotedBody indent r true
    else
      (if broken then spaces indent else "") ++ (if c == '\x27' then "\x27" else "")
        ++ c.toString ++ singleQuotedBody indent r false

/-- A text in single quotes. -/
def singleQuoted (indent : Nat) (cs : List Char) : String :=
  "\x27" ++ singleQuotedBody indent cs false ++ "\x27"

/-- The lines of a literal block, each with its indentation in front unless it is empty. -/
def literalBody (indent : Nat) : List Char → Bool → String
  | [], _ => ""
  | c :: r, broken =>
    if isBreak c then c.toString ++ literalBody indent r true
    else (if broken then spaces indent else "") ++ c.toString ++ literalBody indent r false

/-- The hints of a literal block: the indentation of a text that starts with a space or break,
and whether it ends without a break or with more than one. -/
def literalHints (cs : List Char) : String :=
  let indentation := if cs.head?.any (fun c => c == ' ' || isBreak c) then "2" else ""
  let chomping :=
    match cs.reverse with
    | [] => "-"
    | [c] => if isBreak c then "+" else "-"
    | c :: d :: _ => if !isBreak c then "-" else if isBreak d then "+" else ""
  indentation ++ chomping

/-- A text with the end of its line, if that is not a part of it. -/
def endLine (s : String) : String :=
  match s.toList.getLast? with
  | some c => if isBreak c then s else s.push '\n'
  | none => "\n"

/-- A scalar in one of the styles. -/
def scalarText (style : TextStyle) (indent : Nat) (s : String) : String :=
  match style with
  | .plain => s
  | .singleQuoted => singleQuoted indent s.toList
  | .doubleQuoted => doubleQuoted s.toList
  | .literal => "|" ++ literalHints s.toList ++ "\n" ++ literalBody indent s.toList true

/-- What a tree without tags counts for in the length of a key; `none` if it has to be written
behind a question mark. -/
def keyLength? : Tree → Option Nat
  | .null => some 4
  | .bool b => some (if b then 4 else 5)
  | .num n => some n.text.utf8ByteSize
  | .str s => if (Features.of s.toList).breaks then none else some s.utf8ByteSize
  | .seq items => if items.isEmpty then some 0 else none
  | .map entries => if entries.isEmpty then some 0 else none
  | .tagged _ _ => none

/-- Whether a key is written in front of its colon: a scalar of one line or an empty
collection, and not too long. -/
def keyFits : Tree → Bool
  | .tagged tag payload => (keyLength? payload).any fun n => tagLength tag + n ≤ 128
  | key => (keyLength? key).any fun n => n ≤ 128

/-- Whether a tree is written like a tag: a tagged tree, or a mapping of one entry. -/
def looksLikeTag : Tree → Bool
  | .tagged _ _ => true
  | .map [_] => true
  | _ => false

/-- Whether a tree is a tagged one. -/
def isTagged : Tree → Bool
  | .tagged _ _ => true
  | _ => false

mutual
/-- Whether a document has a text.  A tag on a tag has none, and neither has a mapping of one
entry whose key looks like a tag, unless a tag stands in front of that mapping. -/
def hasText : Tree → Bool
  | .seq items => itemsHaveText items
  | .map entries =>
    (match entries with
      | [(key, _)] => !looksLikeTag key
      | _ => true) && entriesHaveText entries
  | .tagged _ payload => !isTagged payload && payloadHasText payload
  | _ => true

/-- Whether the tree below a tag has a text. -/
def payloadHasText : Tree → Bool
  | .seq items => itemsHaveText items
  | .map entries => entriesHaveText entries
  | .tagged _ payload => payloadHasText payload
  | _ => true

/-- Whether all of several trees have a text. -/
def itemsHaveText : List Tree → Bool
  | [] => true
  | t :: rest => hasText t && itemsHaveText rest

/-- Whether the trees of all of several entries have a text. -/
def entriesHaveText : List (Tree × Tree) → Bool
  | [] => true
  | (k, v) :: rest => hasText k && hasText v && entriesHaveText rest
end

/-- Where a node stands. -/
structure Place where
  /-- The column of a collection that stands here. -/
  column : Nat
  /-- The column of a sequence behind a key or behind a tag in a mapping. -/
  sequenceColumn : Nat
  /-- The columns of the further lines of a scalar. -/
  scalarColumn : Nat
  /-- Whether a collection may start on the same line. -/
  sameLine : Bool
  /-- What separates a scalar from what is in front of it. -/
  gap : String

/-- The whole document. -/
def Place.root : Place := ⟨0, 0, 2, true, ""⟩

/-- An item of a sequence in `column`. -/
def Place.item (column : Nat) : Place := ⟨column + 2, column + 2, column + 2, true, " "⟩

/-- A key or a value of a mapping in `column`, behind its own indicator. -/
def Place.own (column : Nat) : Place := ⟨column + 2, column, column + 2, true, " "⟩

/-- A value of a mapping in `column`, behind its key. -/
def Place.behindKey (column : Nat) : Place := ⟨column + 2, column, column + 2, false, " "⟩

/-- The same place behind a tag. -/
def Place.behindTag (p : Place) : Place := { p with sameLine := false, gap := " " }

/-- The column of a sequence. -/
def Place.forSequence (p : Place) : Nat := if p.sameLine then p.column else p.sequenceColumn

/-- The start of a collection: on the same line, or on a line of its own. -/
def Place.start (p : Place) (column : Nat) : String :=
  if p.sameLine then p.gap else "\n" ++ spaces column

mutual
/-- A node in its place, with the end of its last line. -/
def printNode (p : Place) : Tree → String
  | .tagged tag payload => p.gap ++ tagText tag ++ printNode p.behindTag payload
  | .seq [] => p.gap ++ "[]\n"
  | .seq (item :: rest) =>
    let column := p.forSequence
    p.start column ++ "-" ++ printNode (.item column) item ++ printItems column rest
  | .map [] => p.gap ++ "\x7b\x7d\n"
  | .map ((key, value) :: rest) =>
    p.start p.column ++ printKey p.column key
      ++ printNode (if keyFits key then .behindKey p.column else .own p.column) value
      ++ printEntries p.column rest
  | .null => p.gap ++ "null\n"
  | .bool b => p.gap ++ (if b then "true\n" else "false\n")
  | .num n => p.gap ++ n.text ++ "\n"
  | .str s => p.gap ++ endLine (scalarText (chooseStyle s) p.scalarColumn s)

/-- Further items of a sequence. -/
def printItems (column : Nat) : List Tree → String
  | [] => ""
  | item :: rest =>
    spaces column ++ "-" ++ printNode (.item column) item ++ printItems column rest

/-- Further entries of a mapping. -/
def printEntries (column : Nat) : List (Tree × Tree) → String
  | [] => ""
  | (key, value) :: rest =>
    spaces column ++ printKey column key
      ++ printNode (if keyFits key then .behindKey column else .own column) value
      ++ printEntries column rest

/-- A key with the indicator of its value. -/
def printKey (column : Nat) : Tree → String
  | .tagged tag payload =>
    if keyFits (.tagged tag payload) then tagText tag ++ " " ++ printShort payload ++ ":"
    else
      "?" ++ printNode (.own column) (.tagged tag payload) ++ spaces column ++ ":"
  | key =>
    if keyFits key then printShort key ++ ":"
    else "?" ++ printNode (.own column) key ++ spaces column ++ ":"

/-- A node in front of its colon. -/
def printShort : Tree → String
  | .null => "null"
  | .bool b => if b then "true" else "false"
  | .num n => n.text
  | .str s => scalarText (chooseStyle s) 0 s
  | .seq _ => "[]"
  | .map _ => "\x7b\x7d"
  | .tagged _ _ => ""
end

/-- The text of a document, if it has one. -/
def print (t : Tree) : Option String := if hasText t then some (printNode .root t) else none

end NestedStacks.Markup
