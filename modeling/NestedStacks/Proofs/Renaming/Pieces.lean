/-
Expressions piece by piece.

The scanner is a loop that carries a flag and a number of characters to skip.  What it finds is said
here without it: the pieces of an expression are the only ones that give its text and that fit
where they stand.  Renaming keeps them, and only the names in placeholders change.

* `Piece.Fits`, `Piece.Splits`, `Piece.lex_eq_iff` — what the pieces of an expression are;
* `retargetName`, `Piece.mapName`, `retargetPiece_toList` — a renamed piece as a piece;
* `retargetExpression_eq_render`, `lex_retargetExpression` — a renamed expression, and its pieces;
* `Piece.lex_render_mapName` — the pieces of an expression after names were put in place of names;
* `expression_retargets_by_pieces` — the main statement.
-/
import Mathlib.Data.List.Basic
import NestedStacks.Proofs.Renaming.Expressions

namespace NestedStacks

namespace Piece

/-! ### The pieces of an expression -/

/-- `p.Fits before after`: the piece `p` is right between the texts `before` and `after`.  A
placeholder has a name and an even number of backslashes in front; a character with an even number
of backslashes in front starts no placeholder. -/
def Fits (before : List Char) (p : Piece) (after : List Char) : Prop :=
  match p with
  | .placeholder name => IsName name ∧ endsEscaped before = false
  | .literal c => endsEscaped before = false →
      ∀ name rest, IsName name → c :: after ≠ text (.placeholder name) ++ rest

/-- `Follow seen ps`: each of the pieces `ps` is right where it stands behind the text `seen`. -/
def Follow (seen : List Char) (ps : List Piece) : Prop :=
  ∀ front p back, ps = front ++ p :: back → p.Fits (seen ++ render front) (render back)

/-- `Splits cs ps`: the text `cs` is split into the pieces `ps`.  They give `cs`, and each one is
right where it stands. -/
def Splits (cs : List Char) (ps : List Piece) : Prop := render ps = cs ∧ Follow [] ps

@[simp] theorem render_nil : render [] = [] := rfl

@[simp] theorem render_cons (p : Piece) (ps : List Piece) :
    render (p :: ps) = p.text ++ render ps := rfl

theorem follow_nil (seen : List Char) : Follow seen [] := by
  intro front p back h
  cases front <;> cases h

theorem follow_cons {seen : List Char} {p : Piece} {ps : List Piece} :
    Follow seen (p :: ps) ↔ p.Fits seen (render ps) ∧ Follow (seen ++ p.text) ps := by
  constructor
  · refine fun h => ⟨?_, fun front q back hback => ?_⟩
    · simpa using h [] p ps rfl
    · subst hback
      simpa using h (p :: front) q back rfl
  · rintro ⟨hp, hps⟩ front q back hback
    cases front with
    | nil =>
      obtain ⟨rfl, rfl⟩ := List.cons.inj hback
      simpa using hp
    | cons r front =>
      obtain ⟨rfl, rfl⟩ := List.cons.inj hback
      simpa using hps front q back rfl

theorem endsEscaped_placeholder (seen name : List Char) :
    endsEscaped (seen ++ text (.placeholder name)) = false := by
  have hlast : seen ++ text (.placeholder name) = (seen ++ '$' :: '\x7b' :: name) ++ ['\x7d'] := by
    simp [text]
  rw [hlast, endsEscaped_concat]
  rfl

/-- What is scanned in `cs` behind the text `seen` fits there.  The induction is on the number of
characters left, since a placeholder is scanned at once. -/
theorem follow_lexFrom (seen cs : List Char) : Follow seen (lexFrom (endsEscaped seen) 0 cs) := by
  induction hlength : cs.length using Nat.strongRecOn generalizing seen cs with
  | ind length ih =>
    cases cs with
    | nil => exact follow_nil seen
    | cons c cs =>
      rw [lexFrom]
      cases hname : (if endsEscaped seen then none else name? (c :: cs)) with
      | none =>
        refine follow_cons.mpr ⟨fun hseen name rest hisName hcs => ?_, ?_⟩
        · rw [render_lexFrom, List.drop_zero] at hcs
          rw [hseen, name?_eq_some.mpr ⟨hisName, rest, hcs⟩] at hname
          cases hname
        · have hstate : (c == '\\' && !endsEscaped seen) = endsEscaped (seen ++ [c]) :=
            (endsEscaped_concat seen c).symm
          rw [hstate]
          exact ih cs.length (by simp [← hlength]) _ _ rfl
      | some name =>
        have hseen : endsEscaped seen = false := by
          cases h : endsEscaped seen with
          | false => rfl
          | true => simp [h] at hname
        rw [hseen] at hname
        obtain ⟨hisName, after, hcs⟩ := name?_eq_some.mp hname
        obtain ⟨rfl, rfl⟩ : c = '$' ∧ cs = ('\x7b' :: name ++ ['\x7d']) ++ after := by
          simpa [text] using hcs
        have hskip : lexFrom false (name.length + 2) (('\x7b' :: name ++ ['\x7d']) ++ after) =
            lexFrom false 0 after := by
          simpa using lexFrom_skip ('\x7b' :: name ++ ['\x7d']) after
        simp only [hskip]
        refine follow_cons.mpr ⟨⟨hisName, hseen⟩, ?_⟩
        rw [← endsEscaped_placeholder seen name]
        refine ih after.length ?_ _ _ rfl
        simp only [← hlength, List.length_cons, List.length_append]
        omega

theorem splits_lex (cs : List Char) : Splits cs (lex cs) :=
  ⟨render_lex cs, follow_lexFrom [] cs⟩

/-- If one text starts with placeholders of `name` and of `name'`, the two names are one. -/
theorem placeholder_unique {name name' rest rest' : List Char} (h : IsName name)
    (h' : IsName name')
    (heq : text (.placeholder name) ++ rest = text (.placeholder name') ++ rest') :
    name = name' ∧ rest = rest' := by
  have hname : name? (text (.placeholder name) ++ rest) = some name :=
    name?_eq_some.mpr ⟨h, rest, rfl⟩
  have hname' : name? (text (.placeholder name) ++ rest) = some name' :=
    name?_eq_some.mpr ⟨h', rest', heq⟩
  obtain rfl := Option.some.inj (hname.symm.trans hname')
  exact ⟨rfl, List.append_cancel_left heq⟩

/-- Pieces `ps` and `ps'` that fit behind the same text `seen` and give the same text are the
same. -/
theorem Follow.unique {seen : List Char} {ps ps' : List Piece} (h : Follow seen ps)
    (h' : Follow seen ps') (heq : render ps = render ps') : ps = ps' := by
  induction ps generalizing seen ps' with
  | nil =>
    cases ps' with
    | nil => rfl
    | cons p ps' => cases p <;> cases heq
  | cons p ps ih =>
    cases ps' with
    | nil => cases p <;> cases heq
    | cons p' ps' =>
      obtain ⟨hp, hps⟩ := follow_cons.mp h
      obtain ⟨hp', hps'⟩ := follow_cons.mp h'
      rw [render_cons, render_cons] at heq
      obtain ⟨rfl, hrest⟩ : p = p' ∧ render ps = render ps' := by
        -- a placeholder and a character that give the same text do not both fit
        cases p with
        | literal c =>
          cases p' with
          | literal c' =>
            obtain ⟨rfl, hrest⟩ := List.cons.inj heq
            exact ⟨rfl, hrest⟩
          | placeholder name => exact absurd heq (hp hp'.2 name _ hp'.1)
        | placeholder name =>
          cases p' with
          | literal c => exact absurd heq.symm (hp' hp.2 name _ hp.1)
          | placeholder name' =>
            obtain ⟨rfl, hrest⟩ := placeholder_unique hp.1 hp'.1 heq
            exact ⟨rfl, hrest⟩
      rw [ih hps hps' hrest]

/-- The pieces of `cs` are the only ones that `cs` is split into. -/
theorem lex_eq_iff {cs : List Char} {ps : List Piece} : lex cs = ps ↔ Splits cs ps := by
  constructor
  · rintro rfl
    exact splits_lex cs
  · rintro ⟨rfl, hps⟩
    exact (splits_lex _).2.unique hps (render_lex _)

example : lex "\\$\x7bA\x7d$\x7bB.C\x7d$".toList =
    [.literal '\\', .literal '$', .literal '\x7b', .literal 'A', .literal '\x7d',
      .placeholder ['B', '.', 'C'], .literal '$'] := by
  decide

/-! ### Other names -/

/-- The piece with `f name` in place of its `name`, if it is a placeholder. -/
def mapName (f : List Char → List Char) : Piece → Piece
  | .literal c => .literal c
  | .placeholder name => .placeholder (f name)

variable {f : List Char → List Char}

/-- A text `body` without a dollar sign is in no placeholder, so it stands at the start of `ps` with
other names, too. -/
theorem exists_render_of_mapName {body rest : List Char} {ps : List Piece} (hbody : '$' ∉ body)
    (h : render (ps.map (mapName f)) = body ++ rest) : ∃ rest', render ps = body ++ rest' := by
  induction body generalizing ps with
  | nil => exact ⟨render ps, rfl⟩
  | cons c body ih =>
    cases ps with
    | nil => cases h
    | cons p ps =>
      cases p with
      | literal d =>
        obtain ⟨rfl, htail⟩ := List.cons.inj h
        obtain ⟨rest', hrest'⟩ := ih (fun hmem => hbody (List.mem_cons_of_mem _ hmem)) htail
        exact ⟨rest', congrArg (d :: ·) hrest'⟩
      | placeholder name =>
        obtain ⟨rfl, -⟩ := List.cons.inj h
        exact absurd List.mem_cons_self hbody

/-- The pieces `ps` still fit after `f` has put names in the place of names. -/
theorem follow_mapName (hf : ∀ name, IsName name → IsName (f name)) {seen seen' : List Char}
    {ps : List Piece} (hseen : endsEscaped seen = endsEscaped seen') (h : Follow seen ps) :
    Follow seen' (ps.map (mapName f)) := by
  induction ps generalizing seen seen' with
  | nil => exact follow_nil seen'
  | cons p ps ih =>
    obtain ⟨hp, hps⟩ := follow_cons.mp h
    cases p with
    | literal c =>
      refine follow_cons.mpr ⟨fun hseen' name rest hname heq => ?_, ih ?_ hps⟩
      · -- a placeholder that starts here would have done so before
        obtain ⟨rfl, hbody⟩ := List.cons.inj heq
        have hfree : '$' ∉ '\x7b' :: name ++ ['\x7d'] :=
          hname.not_mem_braced (by decide) (by decide) (by decide)
        obtain ⟨rest', hrest'⟩ := exists_render_of_mapName hfree hbody
        exact hp (hseen.trans hseen') name rest' hname (congrArg ('$' :: ·) hrest')
      · rw [text, endsEscaped_concat, hseen, mapName, text, endsEscaped_concat]
    | placeholder name =>
      refine follow_cons.mpr ⟨⟨hf name hp.1, hseen.symm.trans hp.2⟩, ih ?_ hps⟩
      rw [endsEscaped_placeholder, mapName, endsEscaped_placeholder]

/-- If `f` puts names in the place of names, the pieces of `cs` are scanned again after that. -/
theorem lex_render_mapName (hf : ∀ name, IsName name → IsName (f name)) (cs : List Char) :
    lex (render ((lex cs).map (mapName f))) = (lex cs).map (mapName f) :=
  lex_eq_iff.mpr ⟨rfl, follow_mapName hf rfl (splits_lex cs).2⟩

end Piece

/-! ### Renamed expressions -/

/-- `retargetName locals ctx name`: the `name` in a placeholder after renaming.  Its part in front
of the first point is kept if it is one of `locals`, which are defined inside the expression's own
function, or bound by `ctx`, and gets the prefix otherwise; what is behind that part is kept. -/
def retargetName (locals : Entries) (ctx : Context) (name : List Char) : List Char :=
  let (front, behind) := Text.cut '.' name
  let kept := locals.hasKey (String.ofList front) || ctx.isBound (String.ofList front)
  Text.uncut '.' (if kept then front else ctx.namePrefix.toList ++ front, behind)

variable {ctx : Context}

/-- A text `cs` of characters of names is no pseudo parameter. -/
theorem not_isPseudo {cs : List Char} (h : ∀ d ∈ cs, Piece.isNameChar d = true) :
    Context.isPseudo (String.ofList cs) = false := by
  rw [Bool.eq_false_iff]
  intro hpseudo
  rw [Context.isPseudo, List.isPrefixOf_iff_prefix] at hpseudo
  have hcolon : ':' ∈ (String.ofList cs).toList :=
    hpseudo.subset (show ':' ∈ "AWS::".toList by decide)
  rw [String.toList_ofList] at hcolon
  exact absurd (h ':' hcolon) (by decide)

/-- What the `name` in a placeholder refers to: its part in front of the first point. -/
def Piece.pointer (name : List Char) : String := String.ofList (Text.cut '.' name).1

/-- The `name` in a placeholder is kept if `locals` or `ctx` binds what it refers to, and gets the
prefix otherwise. -/
theorem retargetName_eq (locals : Entries) (ctx : Context) (name : List Char) :
    retargetName locals ctx name =
      if locals.hasKey (Piece.pointer name) || ctx.isBound (Piece.pointer name) then name
      else ctx.namePrefix.toList ++ name := by
  have hname := Text.uncut_cut '.' name
  unfold retargetName Piece.pointer
  rcases hcut : Text.cut '.' name with ⟨front, behind⟩
  rw [hcut] at hname
  dsimp only
  split
  · exact hname
  · rw [← hname]
    cases behind <;> simp [Text.uncut]

theorem retargetName_eq_or (locals : Entries) (ctx : Context) (name : List Char) :
    retargetName locals ctx name = name ∨
      retargetName locals ctx name = ctx.namePrefix.toList ++ name := by
  rw [retargetName_eq]
  split
  · exact .inl rfl
  · exact .inr rfl

/-- A `name` stays a name if the prefix is empty or a name. -/
theorem isName_retargetName (hctx : ctx.namePrefix = "" ∨ Piece.IsName ctx.namePrefix.toList)
    (locals : Entries) {name : List Char} (h : Piece.IsName name) :
    Piece.IsName (retargetName locals ctx name) := by
  rcases retargetName_eq_or locals ctx name with hname | hname
  · rw [hname]
    exact h
  · rw [hname]
    rcases hctx with hempty | hprefixed
    · rw [hempty]
      exact h
    · obtain ⟨c, rest, hfront, hc, hrest⟩ := hprefixed
      refine ⟨c, rest ++ name, by rw [hfront, List.cons_append], hc, fun d hd => ?_⟩
      rcases List.mem_append.mp hd with hd | hd
      · exact hrest d hd
      · exact h.all d hd

/-- Renaming a piece `p` renames the name in it. -/
theorem retargetPiece_toList (locals : Entries) (ctx : Context) {p : Piece}
    (hp : ∀ name, p = .placeholder name → Piece.IsName name) :
    (retargetPiece locals ctx p).toList = (p.mapName (retargetName locals ctx)).text := by
  cases p with
  | literal c => simp [retargetPiece, Piece.mapName, Piece.text]
  | placeholder name =>
    have hname := Text.uncut_cut '.' name
    simp only [retargetPiece, retargetPlaceholder, Piece.mapName, Piece.text, retargetName]
    rcases hcut : Text.cut '.' name with ⟨front, behind⟩
    rw [hcut] at hname
    have hfront : ∀ d ∈ front, Piece.isNameChar d = true := by
      intro d hd
      refine (hp name rfl).all d ?_
      rw [← hname]
      cases behind with
      | none => exact hd
      | some behind => exact List.mem_append_left _ hd
    have htarget : (if locals.hasKey (String.ofList front) then String.ofList front
        else ctx.retarget (String.ofList front)).toList =
          if locals.hasKey (String.ofList front) || ctx.isBound (String.ofList front) then front
          else ctx.namePrefix.toList ++ front := by
      unfold Context.retarget Context.prefixed
      rw [not_isPseudo hfront, Bool.or_false]
      by_cases hlocal : locals.hasKey (String.ofList front) = true
      · simp [hlocal]
      · by_cases hbound : ctx.isBound (String.ofList front) = true
        · simp [hlocal, hbound]
        · simp [hlocal, hbound]
    cases behind with
    | none => simp [htarget, Text.uncut]
    | some behind => simp [htarget, Text.uncut]

theorem Piece.isName_of_mem_lex {cs name : List Char} (h : .placeholder name ∈ lex cs) :
    IsName name := by
  obtain ⟨front, back, hlex⟩ := List.append_of_mem h
  exact ((splits_lex cs).2 front _ back hlex).1

/-- The renamed `expression` is the text of its pieces with renamed names. -/
theorem retargetExpression_eq_render (locals : Entries) (ctx : Context) (expression : String) :
    (retargetExpression locals ctx expression).toList =
      Piece.render
        ((Piece.lex expression.toList).map (Piece.mapName (retargetName locals ctx))) := by
  rw [retargetExpression_toList, Piece.render, List.flatMap_map]
  refine List.flatMap_congr fun p hp => retargetPiece_toList locals ctx fun name hname => ?_
  exact Piece.isName_of_mem_lex (hname ▸ hp)

/-- If the prefix is empty or a name, the renamed `expression` is split into the pieces of the
`expression` with renamed names. -/
theorem lex_retargetExpression (hctx : ctx.namePrefix = "" ∨ Piece.IsName ctx.namePrefix.toList)
    (locals : Entries) (expression : String) :
    Piece.lex (retargetExpression locals ctx expression).toList =
      (Piece.lex expression.toList).map (Piece.mapName (retargetName locals ctx)) := by
  rw [retargetExpression_eq_render]
  exact Piece.lex_render_mapName (fun _ => isName_retargetName hctx locals) _

/-- **Expressions are renamed piece by piece.**  There is one way to split `expression` into
placeholders and the characters between them, `Piece.lex expression.toList`.  The expression that is
renamed with `locals` and `ctx` is the text of these pieces with `retargetName locals ctx name` in
place of each `name`.  If the prefix of `ctx` is empty or a name, it is split into just these pieces
again. -/
theorem expression_retargets_by_pieces (locals : Entries) (ctx : Context) (expression : String) :
    (∀ ps, Piece.Splits expression.toList ps ↔ ps = Piece.lex expression.toList) ∧
    (retargetExpression locals ctx expression).toList =
      Piece.render
        ((Piece.lex expression.toList).map (Piece.mapName (retargetName locals ctx))) ∧
    (ctx.namePrefix = "" ∨ Piece.IsName ctx.namePrefix.toList →
      Piece.lex (retargetExpression locals ctx expression).toList =
        (Piece.lex expression.toList).map (Piece.mapName (retargetName locals ctx))) := by
  refine ⟨fun ps => ?_, retargetExpression_eq_render locals ctx expression,
    fun hctx => lex_retargetExpression hctx locals expression⟩
  rw [← Piece.lex_eq_iff]
  exact eq_comm

end NestedStacks
