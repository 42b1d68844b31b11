/-
Which style a string is written in.

A text with a line feed is written as a literal block, any other text plain.  If the text has
a feature that the style cannot show, a quoted style takes its place.

* `Features.of` — what matters about a text;
* `chooseStyle` — the style of a text.
-/
import NestedStacks.Markup.Scalar

namespace NestedStacks.Markup

/-- Characters that a scalar shows as they are outside double quotes. -/
def isPrintable (c : Char) : Bool :=
  let n := c.toNat
  n == 0x0a || (0x20 ≤ n && n ≤ 0x7e) || (0xa0 ≤ n && n ≤ 0xd7ff)
    || (0xe000 ≤ n && n ≤ 0xfffd && n != 0xfeff) || 0x10000 ≤ n

/-- The styles that text is written in. -/
inductive TextStyle where
  | plain
  | singleQuoted
  | doubleQuoted
  | literal
  deriving DecidableEq, Repr

/-- What decides about the styles of a text. -/
structure Features where
  /-- Some character or sequence of characters has another meaning in a plain scalar. -/
  indicators : Bool := false
  /-- Some character is not printable. -/
  special : Bool := false
  breaks : Bool := false
  /-- A space or break is at the start or the end. -/
  spaceOutside : Bool := false
  /-- A space is at the end. -/
  spaceAtEnd : Bool := false
  breakThenSpace : Bool := false
  spaceThenBreak : Bool := false
  deriving DecidableEq, Repr

/-- Characters that start something else than a plain scalar. -/
def isFirstIndicator (c : Char) : Bool := "#,[]\x7b\x7d&*!|>\x27\x22%@\x60".toList.contains c

namespace Features

/-- Goes on with the characters behind `previous`. -/
def scan (previous : Char) : List Char → Features → Features
  | [], f => f
  | c :: r, f =>
    let space := c == ' '
    let f :=
      { f with
        indicators := f.indicators || (c == ':' && endsWord r.head?)
          || (c == '#' && endsWord (some previous))
        special := f.special || !isPrintable c
        breaks := f.breaks || isBreak c
        spaceOutside := f.spaceOutside || ((space || isBreak c) && r.isEmpty)
        spaceAtEnd := f.spaceAtEnd || (space && r.isEmpty)
        breakThenSpace := f.breakThenSpace || (space && isBreak previous)
        spaceThenBreak := f.spaceThenBreak || (isBreak c && previous == ' ') }
    scan c r f

/-- The features of a text. -/
def of : List Char → Features
  | [] => {}
  | c :: r =>
    let space := c == ' '
    let mark := "---".toList.isPrefixOf (c :: r) || "...".toList.isPrefixOf (c :: r)
    let starts := isFirstIndicator c || ((c == '?' || c == ':' || c == '-') && endsWord r.head?)
    scan c r
      { indicators := mark || starts
        special := !isPrintable c
        breaks := isBreak c
        spaceOutside := space || isBreak c
        spaceAtEnd := space && r.isEmpty }

/-- Whether a text can be plain outside flow collections. -/
def allowsPlain (f : Features) : Bool :=
  !(f.indicators || f.special || f.breaks || f.spaceOutside || f.breakThenSpace
    || f.spaceThenBreak)

/-- Whether a text can be in single quotes. -/
def allowsSingle (f : Features) : Bool := !(f.special || f.breakThenSpace || f.spaceThenBreak)

/-- Whether a text can be a block scalar. -/
def allowsBlock (f : Features) : Bool := !(f.special || f.spaceAtEnd || f.spaceThenBreak)

end Features

/-- The style of a string. -/
def chooseStyle (s : String) : TextStyle :=
  let f := Features.of s.toList
  if s.toList.contains '\n' then
    if f.allowsBlock then .literal else .doubleQuoted
  else if readsAsString s && f.allowsPlain then .plain
  else if f.allowsSingle then .singleQuoted
  else .doubleQuoted

end NestedStacks.Markup
