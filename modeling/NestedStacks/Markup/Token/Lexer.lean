/-
From characters to tokens.

Outside flow collections, indentation opens and closes collections: a token further to the
right opens one, a token further to the left closes those that start to its right.  A key is
recognised only at its colon.  So the start of every token that may turn out to be a key is
remembered, one for each flow level, and at the colon the key token is put in there, together
with the start of a block mapping if the key opens one.

* `Token.scan` — all tokens of a text;
* `Lexer.next` — one step of it.
-/
import NestedStacks.Markup.Token.Scalar
import NestedStacks.Markup.Token.Tag

namespace NestedStacks.Markup

/-- A token that is a key if a colon follows it soon enough. -/
structure PossibleKey where
  /-- Whether anything but a key is an error here. -/
  required : Bool
  /-- How many tokens stand in front of it. -/
  place : Nat
  position : Position

/-- The state between two tokens. -/
structure Lexer where
  cursor : Cursor
  /-- The tokens so far, in reverse. -/
  tokens : List Token := []
  count : Nat := 0
  /-- The column of the innermost block collection; `-1` outside all of them. -/
  indent : Int := -1
  /-- The columns of the block collections around it. -/
  outer : List Int := []
  /-- Whether a key may start here. -/
  keyAllowed : Bool := true
  /-- The possible key of the innermost level. -/
  possible : Option PossibleKey := none
  /-- The possible keys of the levels around it: one for every open flow collection. -/
  around : List (Option PossibleKey) := []

namespace Lexer

/-- Whether the place is inside a flow collection. -/
def inFlow (l : Lexer) : Bool := !l.around.isEmpty

/-- Adds a token at the end. -/
def emit (l : Lexer) (t : Token) : Lexer :=
  { l with tokens := t :: l.tokens, count := l.count + 1 }

/-- Adds a token behind the first `place` ones. -/
def emitAt (l : Lexer) (place : Nat) (t : Token) : Lexer :=
  let later := l.tokens.take (l.count - place)
  let earlier := l.tokens.drop (l.count - place)
  { l with tokens := later ++ t :: earlier, count := l.count + 1 }

/-- Goes on at another place of the text. -/
def moveTo (l : Lexer) (c : Cursor) : Lexer := { l with cursor := c }

/-- Steps over `n` characters and adds the token they stand for. -/
def take (l : Lexer) (n : Nat) (t : Token) : Lexer := (l.moveTo (l.cursor.advance n)).emit t

/-- Opens a block collection at `column`, if that is to the right of the innermost one; its
first token goes behind the first `place` ones. -/
def openBlock (l : Lexer) (column place : Nat) (t : Token) : Lexer :=
  if l.inFlow || (column : Int) ≤ l.indent then l
  else { l.emitAt place t with indent := column, outer := l.indent :: l.outer }

/-- The block collections closed by a token at `column`: their number and what is left. -/
def closing (column : Int) : Int → List Int → Nat × Int × List Int
  | indent, [] => (0, indent, [])
  | indent, o :: outer =>
    if column < indent then
      let (n, indent, outer) := closing column o outer
      (n + 1, indent, outer)
    else (0, indent, o :: outer)

/-- Closes the block collections that start to the right of `column`. -/
def closeBlocks (l : Lexer) (column : Int) : Lexer :=
  if l.inFlow then l
  else
    let (n, indent, outer) := closing column l.indent l.outer
    { l with
      tokens := List.replicate n .blockEnd ++ l.tokens, count := l.count + n, indent, outer }

/-- Gives up the possible key of the innermost level. -/
def dropKey (l : Lexer) : Except Fault Lexer :=
  match l.possible with
  | some k => if k.required then .error .missingColon else .ok { l with possible := none }
  | none => .ok l

/-- Remembers that a key may start here. -/
def noteKey (l : Lexer) : Except Fault Lexer := do
  if !l.keyAllowed then return l
  let required := !l.inFlow && l.indent == l.cursor.position.column
  let l ← l.dropKey
  return { l with possible := some ⟨required, l.count, l.cursor.position⟩ }

/-- Sets whether a key may start at the next token. -/
def allowKey (l : Lexer) (allowed : Bool) : Lexer := { l with keyAllowed := allowed }

/-- A possible key is given up at the end of its line or after 1024 characters. -/
def expired (p : Position) : Option PossibleKey → Bool
  | some k => k.position.line < p.line || k.position.index + 1024 < p.index
  | none => false

/-- Gives up one possible key that has expired. -/
def expire (p : Position) (k : Option PossibleKey) : Except Fault (Option PossibleKey) :=
  if expired p k then
    if k.any (·.required) then .error .missingColon else .ok none
  else .ok k

/-- Gives up the possible keys that have expired. -/
def expireKeys (l : Lexer) : Except Fault Lexer := do
  let possible ← expire l.cursor.position l.possible
  let around ← l.around.mapM (expire l.cursor.position)
  return { l with possible, around }

/-- Steps over blanks, comments and breaks.  Outside flow collections a key may start on a new
line, and tabs are skipped only where no key may start.  A mark of the byte order in front of
the text is skipped like a space: it takes a column. -/
def skipGap (flow : Bool) : List Char → Position → Bool → Bool → Cursor × Bool
  | [], p, allowed, _ => (⟨[], p⟩, allowed)
  | '\r' :: '\n' :: r, p, allowed, _ => skipGap flow r (p.nextLine 2) (allowed || !flow) false
  | c :: r, p, allowed, comment =>
    if isBreak c then skipGap flow r (p.nextLine 1) (allowed || !flow) false
    else if comment || c == ' ' || (c == '\t' && (flow || !allowed))
        || (c == '\ufeff' && p.index == 0) then
      skipGap flow r (p.right 1) allowed comment
    else if c == '#' then skipGap flow r (p.right 1) allowed true
    else (⟨c :: r, p⟩, allowed)

/-- Whether the character ahead can start a plain scalar. -/
def startsPlain (l : Lexer) (c : Char) : Bool :=
  let next := l.cursor.ahead? 1
  !(isBreak c || isBlank c || "-?:,[]\x7b\x7d#&*!|>\x27\x22%@\x60".toList.contains c)
    || (c == '-' && !next.any isBlank)
    || (!l.inFlow && (c == '?' || c == ':') && !endsWord next)

/-- The end of a document and what belongs to it: all block collections end. -/
def endBlocks (l : Lexer) : Except Fault Lexer := do
  return (← (l.closeBlocks (-1)).dropKey).allowKey false

/-- The start of a flow collection. -/
def openFlow (l : Lexer) (t : Token) : Except Fault Lexer := do
  let l ← l.noteKey
  return ({ l with possible := none, around := l.possible :: l.around }.allowKey true).take 1 t

/-- The end of a flow collection. -/
def closeFlow (l : Lexer) (t : Token) : Except Fault Lexer := do
  let l ← l.dropKey
  let l :=
    match l.around with
    | possible :: around => { l with possible, around }
    | [] => l
  return (l.allowKey false).take 1 t

/-- An entry of a block sequence. -/
def blockEntry (l : Lexer) : Except Fault Lexer := do
  if !l.inFlow && !l.keyAllowed then throw Fault.misplacedIndicator
  let l ← (l.openBlock l.cursor.position.column l.count .blockSequenceStart).dropKey
  return (l.allowKey true).take 1 .blockEntry

/-- A key with its own indicator. -/
def explicitKey (l : Lexer) : Except Fault Lexer := do
  if !l.inFlow && !l.keyAllowed then throw Fault.misplacedIndicator
  let l ← (l.openBlock l.cursor.position.column l.count .blockMappingStart).dropKey
  return (l.allowKey (!l.inFlow)).take 1 .key

/-- A colon: it makes a key of the possible key in front of it, if there is one. -/
def colon (l : Lexer) : Except Fault Lexer := do
  match l.possible with
  | some k =>
    let l := (l.emitAt k.place .key).openBlock k.position.column k.place .blockMappingStart
    return ({ l with possible := none }.allowKey false).take 1 .value
  | none =>
    if !l.inFlow && !l.keyAllowed then throw Fault.misplacedIndicator
    let l := l.openBlock l.cursor.position.column l.count .blockMappingStart
    return (l.allowKey (!l.inFlow)).take 1 .value

/-- An anchor, an alias or a tag. -/
def property (l : Lexer) (read : Cursor → Except Fault (Token × Cursor)) :
    Except Fault Lexer := do
  let l ← l.noteKey
  let (t, c) ← read l.cursor
  return ((l.allowKey false).moveTo c).emit t

/-- A block scalar. -/
def readBlockScalar (l : Lexer) (folded : Bool) : Except Fault Lexer := do
  let l ← l.dropKey
  let (text, c) ← blockScalar folded l.indent (l.cursor.advance 1)
  return ((l.allowKey true).moveTo c).emit (.scalar (if folded then .folded else .literal) text)

/-- A quoted scalar. -/
def readQuoted (l : Lexer) (double : Bool) : Except Fault Lexer := do
  let l ← l.noteKey
  let c := l.cursor.advance 1
  let (f, c) ← quotedScalar double c.rest c.position {} .gap
  return ((l.allowKey false).moveTo c).emit (.scalar .quoted f.result)

/-- A plain scalar; behind one that ends at a line break a key may start. -/
def readPlain (l : Lexer) : Except Fault Lexer := do
  let l ← l.noteKey
  let (f, c) ← plainScalar l.inFlow (l.indent + 1) l.cursor.rest l.cursor.position {} false
  return ((l.allowKey f.broken).moveTo c).emit (.scalar .plain f.result)

/-- Reads the token that starts with `c` at the cursor. -/
def token (l : Lexer) (c : Char) : Except Fault Lexer := do
  let lineStart := l.cursor.position.column == 0
  let wordEnds := l.inFlow || endsWord (l.cursor.ahead? 1)
  if lineStart && c == '%' then
    let l ← l.endBlocks
    let (t, next) ← directive l.cursor
    return (l.moveTo next).emit t
  if l.cursor.atDocumentMark then
    return (← l.endBlocks).take 3 (if c == '-' then .documentStart else .documentEnd)
  match c with
  | '[' => l.openFlow .flowSequenceStart
  | '\x7b' => l.openFlow .flowMappingStart
  | ']' => l.closeFlow .flowSequenceEnd
  | '\x7d' => l.closeFlow .flowMappingEnd
  | ',' => return ((← l.dropKey).allowKey true).take 1 .flowEntry
  | '&' => l.property fun c => do
    let (name, c) ← anchorName c
    return (.anchor name, c)
  | '*' => l.property fun c => do
    let (name, c) ← anchorName c
    return (.aliasOf name, c)
  | '!' => l.property (tagToken l.inFlow)
  | '\x27' => l.readQuoted false
  | '\x22' => l.readQuoted true
  | _ =>
    if c == '-' && endsWord (l.cursor.ahead? 1) then l.blockEntry
    else if c == '?' && wordEnds then l.explicitKey
    else if c == ':' && wordEnds then l.colon
    else if c == '|' && !l.inFlow then l.readBlockScalar false
    else if c == '>' && !l.inFlow then l.readBlockScalar true
    else if l.startsPlain c then l.readPlain
    else throw Fault.strayCharacter

/-- Goes to the next token and reads it; `none` at the end of the text. -/
def next (l : Lexer) : Except Fault (Lexer × Bool) := do
  let (c, allowed) := skipGap l.inFlow l.cursor.rest l.cursor.position l.keyAllowed false
  let l := { l with cursor := c, keyAllowed := allowed }
  let l ← l.expireKeys
  let l := l.closeBlocks l.cursor.position.column
  match l.cursor.head? with
  | none => return (← l.endBlocks, true)
  | some c => return (← l.token c, false)

/-- Reads tokens to the end of the text.  Every token takes at least one character, so the
length of the text bounds their number. -/
def run : Nat → Lexer → Except Fault Lexer
  | 0, l => .ok l
  | fuel + 1, l => do
    let (l, done) ← l.next
    if done then return l else run fuel l

end Lexer

/-- The tokens of a text. -/
def Token.scan (text : List Char) : Except Fault (List Token) := do
  if !text.all isAllowed then throw Fault.forbiddenCharacter
  let l ← Lexer.run (text.length + 1) { cursor := ⟨text, .start⟩ }
  return l.tokens.reverse

end NestedStacks.Markup
