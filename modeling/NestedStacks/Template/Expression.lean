/-
Expressions with placeholders, as the function `Sub` takes them.

A placeholder is a dollar sign and a name in braces; the name starts with a letter or an
underscore and goes on with letters, digits, underscores and points.  A backslash in front of
it makes it ordinary text, unless that backslash is itself behind a backslash.

* `Piece.lex` — the placeholders of an expression and the characters between them;
* `retargetExpression` — the expression with renamed placeholders;
* `Piece.render_lex` — taking an expression apart loses nothing.
-/
import NestedStacks.Template.Context

namespace NestedStacks

/-- A part of an expression. -/
inductive Piece where
  /-- An ordinary character. -/
  | literal (c : Char)
  /-- A placeholder with the name between its braces. -/
  | placeholder (name : List Char)
  deriving DecidableEq, Repr

namespace Piece

/-- Characters that a name starts with. -/
def isNameStart (c : Char) : Bool := c.isAlpha || c == '_'

/-- Characters that a name goes on with. -/
def isNameChar (c : Char) : Bool := c.isAlphanum || c == '_' || c == '.'

/-- The name of the placeholder that a text starts with. -/
def name? : List Char → Option (List Char)
  | '$' :: '\x7b' :: rest =>
    let name := rest.takeWhile isNameChar
    if name.head?.any isNameStart && (rest.drop name.length).head? == some '\x7d' then some name
    else none
  | _ => none

/-- The pieces of an expression.  `escaped` says whether an odd number of backslashes is in
front, and `skip` counts the characters that belong to the piece in front. -/
def lexFrom (escaped : Bool) (skip : Nat) : List Char → List Piece
  | [] => []
  | c :: r =>
    match skip with
    | skip + 1 => lexFrom false skip r
    | 0 =>
      match if escaped then none else name? (c :: r) with
      | some name => .placeholder name :: lexFrom false (name.length + 2) r
      | none => .literal c :: lexFrom (c == '\\' && !escaped) 0 r

/-- The pieces of an expression. -/
def lex (cs : List Char) : List Piece := lexFrom false 0 cs

/-- The text of a piece. -/
def text : Piece → List Char
  | .literal c => [c]
  | .placeholder name => '$' :: '\x7b' :: name ++ ['\x7d']

/-- The text of several pieces. -/
def render (ps : List Piece) : List Char := ps.flatMap text

theorem eq_of_name? {cs name : List Char} (h : name? cs = some name) :
    ∃ rest, cs = text (.placeholder name) ++ rest := by
  unfold name? at h
  split at h
  · rename_i rest
    dsimp only at h
    split at h
    · rename_i hc
      obtain rfl := Option.some.inj h
      simp only [Bool.and_eq_true, beq_iff_eq] at hc
      have happ : rest.takeWhile isNameChar ++ rest.dropWhile isNameChar = rest :=
        List.takeWhile_append_dropWhile
      have hdrop : rest.drop (rest.takeWhile isNameChar).length = rest.dropWhile isNameChar := by
        have := @List.drop_left _ (rest.takeWhile isNameChar) (rest.dropWhile isNameChar)
        rwa [happ] at this
      rw [hdrop] at hc
      cases hd : rest.dropWhile isNameChar with
      | nil => simp [hd] at hc
      | cons x tail =>
        refine ⟨tail, ?_⟩
        simp only [hd, List.head?_cons, Option.some.injEq] at hc
        obtain ⟨-, rfl⟩ := hc
        simp only [text, List.cons_append, List.append_assoc, List.nil_append]
        rw [← hd, happ]
    · cases h
  · cases h

theorem render_lexFrom (cs : List Char) (escaped : Bool) (skip : Nat) :
    render (lexFrom escaped skip cs) = cs.drop skip := by
  induction cs generalizing escaped skip with
  | nil => simp [lexFrom, render]
  | cons c r ih =>
    match skip with
    | skip + 1 => simp [lexFrom, ih]
    | 0 =>
      cases hn : (if escaped then none else name? (c :: r)) with
      | none =>
        simp only [lexFrom, hn, render, List.flatMap_cons, text]
        have := ih (c == '\\' && !escaped) 0
        simp only [render] at this
        simp [this]
      | some name =>
        simp only [lexFrom, hn, render, List.flatMap_cons]
        have := ih false (name.length + 2)
        simp only [render] at this
        rw [this]
        have hname : name? (c :: r) = some name := by
          cases escaped <;> simp_all
        obtain ⟨rest, hrest⟩ := eq_of_name? hname
        simp only [text, List.cons_append, List.append_assoc, List.nil_append, List.cons.injEq,
          List.drop_zero] at hrest ⊢
        obtain ⟨rfl, rfl⟩ := hrest
        simp [List.drop_append]

/-- Taking an expression apart loses nothing. -/
theorem render_lex (cs : List Char) : render (lex cs) = cs := by
  simp [lex, render_lexFrom]

end Piece

/-- The placeholder with a name after renaming: its part in front of the first point is kept if
it is defined inside the expression's own function. -/
def retargetPlaceholder (locals : Entries) (ctx : Context) (name : List Char) : String :=
  let (front, behind) := Text.cut '.' name
  let pointer := String.ofList front
  let target := if locals.hasKey pointer then pointer else ctx.retarget pointer
  let path := match behind with
    | none => ""
    | some path => "." ++ String.ofList path
  "$\x7b" ++ target ++ path ++ "\x7d"

/-- A piece after renaming. -/
def retargetPiece (locals : Entries) (ctx : Context) : Piece → String
  | .literal c => c.toString
  | .placeholder name => retargetPlaceholder locals ctx name

/-- The expression with renamed placeholders. -/
def retargetExpression (locals : Entries) (ctx : Context) (expression : String) : String :=
  String.join ((Piece.lex expression.toList).map (retargetPiece locals ctx))

end NestedStacks
