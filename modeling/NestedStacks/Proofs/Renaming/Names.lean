/-
Renaming names, paths and expressions.

* `Context.retargetPath_eq_or` — a path is kept, or gets the prefix in front;
* `Context.retarget_eq`, `retargetExpression_eq` — without a prefix nothing changes;
* `retargetExpression_toList` — an expression is renamed piece by piece.
-/
import NestedStacks.Template.Expression

namespace NestedStacks

variable {ctx : Context}

namespace Context

theorem retarget_eq_or (ctx : Context) (name : String) :
    ctx.retarget name = name ∨ ctx.retarget name = ctx.namePrefix ++ name := by
  unfold retarget
  split
  · exact .inl rfl
  · exact .inr rfl

/-- A `name` that is neither given from outside nor a pseudo parameter gets the prefix. -/
theorem retarget_of_free {name : String} (hb : ctx.isBound name = false)
    (hp : isPseudo name = false) : ctx.retarget name = ctx.prefixed name := by
  simp [retarget, hb, hp]

/-- A path is renamed by the `name` in front of its first point; the `rest` is kept. -/
theorem retargetPath_of_cut {name : String} (h : '.' ∉ name.toList) (rest : List Char) :
    ctx.retargetPath (name ++ String.ofList ('.' :: rest)) =
      ctx.retarget name ++ String.ofList ('.' :: rest) := by
  have hcut : Text.cut '.' (name ++ String.ofList ('.' :: rest)).toList =
      (name.toList, some rest) := by
    rw [String.toList_append, String.toList_ofList]
    exact Text.cut_append h rest
  rw [retargetPath, hcut]
  apply String.toList_inj.mp
  simp

theorem retargetPath_attribute {name : String} (h : '.' ∉ name.toList) (attr : String) :
    ctx.retargetPath (name ++ "." ++ attr) = ctx.retarget name ++ "." ++ attr := by
  have hattr : "." ++ attr = String.ofList ('.' :: attr.toList) := by
    apply String.toList_inj.mp
    simp
  rw [String.append_assoc, hattr, retargetPath_of_cut h, ← hattr, String.append_assoc]

theorem retargetPath_of_not_mem {name : String} (h : '.' ∉ name.toList) :
    ctx.retargetPath name = ctx.retarget name := by
  rw [retargetPath, Text.cut_of_not_mem h]
  simp

theorem retargetPath_eq_or (ctx : Context) (path : String) :
    ctx.retargetPath path = path ∨ ctx.retargetPath path = ctx.namePrefix ++ path := by
  have hpath := Text.uncut_cut '.' path.toList
  unfold retargetPath
  split
  · rename_i name hcut
    obtain rfl : String.ofList name = path := by
      rw [hcut] at hpath
      simpa [Text.uncut] using congrArg String.ofList hpath
    exact retarget_eq_or ctx _
  · rename_i name rest hcut
    have hpath : path = String.ofList name ++ "." ++ String.ofList rest := by
      rw [hcut] at hpath
      apply String.toList_inj.mp
      simp [← hpath, Text.uncut]
    rcases retarget_eq_or ctx (String.ofList name) with h | h
    · exact .inl (by rw [h, hpath])
    · exact .inr (by rw [h, hpath]; simp [String.append_assoc])

/-! ### Without a prefix -/

theorem prefixed_eq (h : ctx.namePrefix = "") (name : String) : ctx.prefixed name = name := by
  simp [prefixed, h]

theorem retarget_eq (h : ctx.namePrefix = "") (name : String) : ctx.retarget name = name := by
  rcases retarget_eq_or ctx name with h' | h' <;> simp [h', h]

theorem retargetPath_eq (h : ctx.namePrefix = "") (path : String) :
    ctx.retargetPath path = path := by
  rcases retargetPath_eq_or ctx path with h' | h' <;> simp [h', h]

end Context

/-! ### Expressions -/

theorem retargetExpression_toList (locals : Entries) (ctx : Context) (expression : String) :
    (retargetExpression locals ctx expression).toList =
      (Piece.lex expression.toList).flatMap fun p => (retargetPiece locals ctx p).toList := by
  simp [retargetExpression, String.toList_join, List.flatMap_map]

/-- A placeholder is renamed by the `name` in front of its first point, unless `locals` has that
name; the `rest` is kept. -/
theorem retargetPlaceholder_of_cut {name : String} (h : '.' ∉ name.toList) (locals : Entries)
    (rest : List Char) (hrest : rest = [] ∨ ∃ behind, rest = '.' :: behind) :
    retargetPlaceholder locals ctx (name.toList ++ rest) =
      "$\x7b" ++ (if locals.hasKey name then name else ctx.retarget name) ++ String.ofList rest ++
        "\x7d" := by
  rcases hrest with rfl | ⟨behind, rfl⟩
  · simp [retargetPlaceholder, Text.cut_of_not_mem h]
  · rw [retargetPlaceholder, Text.cut_append h]
    apply String.toList_inj.mp
    simp

/-- A piece `p` is kept when `ctx.namePrefix` is empty. -/
theorem retargetPiece_eq (h : ctx.namePrefix = "") (locals : Entries) (p : Piece) :
    (retargetPiece locals ctx p).toList = p.text := by
  cases p with
  | literal c => simp [retargetPiece, Piece.text]
  | placeholder name =>
    have hname := Text.uncut_cut '.' name
    simp only [retargetPiece, retargetPlaceholder, Context.retarget_eq h, ite_self, Piece.text]
    rcases hcut : Text.cut '.' name with ⟨front, _ | behind⟩ <;> rw [hcut] at hname
    · simp [← hname, Text.uncut]
    · simp [← hname, Text.uncut]

theorem retargetExpression_eq (h : ctx.namePrefix = "") (locals : Entries) (expression : String) :
    retargetExpression locals ctx expression = expression := by
  apply String.toList_inj.mp
  rw [retargetExpression_toList, funext (retargetPiece_eq h locals)]
  exact Piece.render_lex expression.toList

end NestedStacks
