/-
Placeholders and the names that a `Sub` defines.

A `Sub` with a list may define names for its expression, and placeholders with these names are kept.
Whether a placeholder has such a name is asked before the prefix is put in front, and it is not
asked again.  So a placeholder that means a resource can come out with a name that its `Sub`
defines.  `sub_captures_iff` says for which placeholders it does, and `placeholder_captured` shows
one.

* `Tree.hasKey_subLocals_of_retarget` — renaming keeps the names that a `Sub` defines;
* `pointer_retargetName_of_free` — what a placeholder refers to afterwards.
-/
import NestedStacks.Proofs.Document.Equality
import NestedStacks.Proofs.Renaming.Pieces
import NestedStacks.Proofs.Renaming.References

namespace NestedStacks

variable {ctx : Context}

namespace Tree

/-- Renaming keeps the keys of `t`, and makes it no document with keys if it was none. -/
theorem keys_of_retarget {t t' : Tree} (h : t.retarget ctx = .ok t') :
    (t'.asEntries?.getD []).map (·.1) = (t.asEntries?.getD []).map (·.1) := by
  cases t with
  | null | bool | num | str =>
    simp only [retarget, Except.pure_eq_ok] at h
    rw [← h]
  | seq items =>
    obtain ⟨items', rfl, -⟩ := retarget_seq_eq_ok h
    rfl
  | map entries =>
    obtain ⟨entries', rfl, hentries⟩ := retarget_map_eq_ok h
    have hfields := hentries.imp fun e e' he => And.intro he.1.symm he.2
    exact (forall₂_fields (R := fun u u' => u.retarget ctx = .ok u').mp hfields).1.symm
  | tagged tag payload =>
    obtain ⟨_, -, ⟨_, hs, rfl⟩ | ⟨_, _, _, -, rfl, -, rfl⟩⟩ := retarget_tagged_eq_ok h
    · -- a tag on a scalar has no keys
      cases payload <;> first | rfl | cases hs
    · rfl

/-- Renaming keeps the names that a `Sub` defines. -/
theorem hasKey_subLocals_of_retarget (first first' : Tree) {rest rest' : List Tree}
    (h : List.Forall₂ (fun u u' => u.retarget ctx = .ok u') rest rest') (key : String) :
    (subLocals (first' :: rest')).hasKey key = (subLocals (first :: rest)).hasKey key := by
  cases h with
  | nil => rfl
  | cons hsecond _ => exact Entries.hasKey_congr (keys_of_retarget hsecond) key

end Tree

/-- `Defines items name`: the `items` of a `Sub` define what the placeholder of `name` refers to. -/
def Defines (items : List Tree) (name : List Char) : Prop :=
  (subLocals items).hasKey (Piece.pointer name) = true

/-- What a placeholder refers to after renaming, if its `Sub` does not define it. -/
theorem pointer_retargetName_of_free {locals : Entries} {name : List Char}
    (h : locals.hasKey (Piece.pointer name) = false) :
    Piece.pointer (retargetName locals ctx name) =
      if ctx.isBound (Piece.pointer name) then Piece.pointer name
      else Piece.pointer (ctx.namePrefix.toList ++ name) := by
  rw [retargetName_eq, h, Bool.false_or]
  exact apply_ite _ _ _ _

/-- **Renaming may lead to a name that a `Sub` defines.**  Let a `Sub` have the items
`.str s :: rest`.  It can be renamed under `ctx` if `rest` can, and the placeholders of `s` are
renamed one by one.  If the items do not define what a placeholder of `name` refers to, the new
items define what the renamed placeholder refers to if and only if `ctx` does not bind it and the
old items define `ctx.namePrefix.toList ++ name`. -/
theorem sub_captures_iff {tag s : String} {rest : List Tree}
    (htag : Tag.ofYaml? tag = some (.intrinsic .sub)) (hrest : ∀ u ∈ rest, u.WellTagged)
    (ctx : Context) :
    ∃ s' rest', (Tree.tagged tag (.seq (.str s :: rest))).retarget ctx =
        .ok (.tagged (Tag.intrinsic .sub).spelling (.seq (.str s' :: rest'))) ∧
      s'.toList = Piece.render ((Piece.lex s.toList).map
        (Piece.mapName (retargetName (subLocals (.str s :: rest)) ctx))) ∧
      ∀ name, .placeholder name ∈ Piece.lex s.toList → ¬Defines (.str s :: rest) name →
        (Defines (.str s' :: rest') (retargetName (subLocals (.str s :: rest)) ctx name) ↔
          ctx.isBound (Piece.pointer name) = false ∧
            Defines (.str s :: rest) (ctx.namePrefix.toList ++ name)) := by
  obtain ⟨rest', hrest', -⟩ := Except.exists_mapM fun u hu => (hrest u hu).retarget ctx
  have hitems : Tree.retargetList ctx .sub (.str s :: rest) = .ok _ :=
    Tree.retargetList_eq_ok.mpr (.expression (Except.mapM_eq_ok.mp hrest'))
  have hnode : TaggedNode.ofTagged tag (.seq (.str s :: rest)) =
      .ok ⟨.intrinsic .sub, .sequence (.str s :: rest)⟩ :=
    TaggedNode.ofTagged_eq_ok.mpr ⟨_, htag, .inr ⟨by decide, _, rfl, rfl⟩⟩
  refine ⟨_, rest', ?_, retargetExpression_eq_render _ _ _, fun name _ hfree => ?_⟩
  · rw [Tree.retarget_list hnode, hitems]
    rfl
  · replace hfree : (subLocals (.str s :: rest)).hasKey (Piece.pointer name) = false :=
      Bool.eq_false_iff.mpr hfree
    rw [Defines, Defines, pointer_retargetName_of_free hfree,
      Tree.hasKey_subLocals_of_retarget (.str s) _ (Except.mapM_eq_ok.mp hrest')]
    cases hbound : ctx.isBound (Piece.pointer name) with
    | true => simp [hfree]
    | false => simp

/-- An expression that speaks of a table of its template and of a name of its own. -/
def captureText : String :=
  "Name: !Sub\n  - '$\x7bTable\x7d-$\x7bChildTable\x7d'\n  - ChildTable: x\n"

/-- The text of placeholders of `name` and `name'`. -/
def twoPlaceholders (name name' : String) : String :=
  "$\x7b" ++ name ++ "\x7d-$\x7b" ++ name' ++ "\x7d"

/-- A function `tag` on such an expression, behind it what it defines. -/
def captureSub (tag name name' : String) : Tree :=
  .tagged tag (.seq [.str (twoPlaceholders name name'), .map [(.str "ChildTable", .str "x")]])

theorem captureText_load : (loadText false .here captureText World.empty 0).result =
    .ok (.map [(.str "Name", captureSub "!Sub" "Table" "ChildTable")]) := by
  have hparse : Markup.parse captureText =
      .ok (.map [(.str "Name", captureSub "Sub" "Table" "ChildTable")]) := by
    decide +kernel
  exact (loadText_yields.mpr ⟨_, hparse, rfl, rfl⟩).1

theorem lex_twoPlaceholders : Piece.lex (twoPlaceholders "Table" "ChildTable").toList =
    [.placeholder "Table".toList, .literal '-', .placeholder "ChildTable".toList] := by
  decide

/-- The placeholder of the table comes out with the name that the expression defines. -/
theorem sub_captures_iff_table :
    ¬Defines [.str (twoPlaceholders "Table" "ChildTable"), .map [(.str "ChildTable", .str "x")]]
        "Table".toList ∧
      ∃ s' rest', (captureSub "!Sub" "Table" "ChildTable").retarget sampleNaming =
          .ok (.tagged "!Sub" (.seq (.str s' :: rest'))) ∧
        Defines (.str s' :: rest') "ChildTable".toList := by
  have hrest : ∀ u ∈ [Tree.map [(.str "ChildTable", .str "x")]], u.WellTagged :=
    List.forall_mem_singleton.mpr (.map (List.forall_mem_singleton.mpr (.str _)))
  have hfree : ¬Defines
      [.str (twoPlaceholders "Table" "ChildTable"), .map [(.str "ChildTable", .str "x")]]
      "Table".toList := by
    rw [Defines]
    decide
  obtain ⟨s', rest', hsub, -, hcaptures⟩ :=
    @sub_captures_iff "!Sub" (twoPlaceholders "Table" "ChildTable") _ rfl hrest sampleNaming
  refine ⟨hfree, s', rest', hsub, ?_⟩
  exact (hcaptures "Table".toList (by rw [lex_twoPlaceholders]; simp) hfree).mpr ⟨rfl, rfl⟩

/-- Two placeholders with different meanings come out the same: one of them means a table, whose
name the `Sub` does not define, and comes out with the name that it does define. -/
theorem placeholder_captured :
    (loadText false .here captureText World.empty 0).result =
      .ok (.map [(.str "Name", captureSub "!Sub" "Table" "ChildTable")]) ∧
    Piece.lex (twoPlaceholders "Table" "ChildTable").toList =
      [.placeholder "Table".toList, .literal '-', .placeholder "ChildTable".toList] ∧
    (captureSub "!Sub" "Table" "ChildTable").retarget sampleNaming =
      .ok (captureSub "!Sub" "ChildTable" "ChildTable") ∧
    Piece.lex (twoPlaceholders "ChildTable" "ChildTable").toList =
      [.placeholder "ChildTable".toList, .literal '-', .placeholder "ChildTable".toList] ∧
    Entries.hasKey [(.str "ChildTable", .str "x")] "Table" = false ∧
    Entries.hasKey [(.str "ChildTable", .str "x")] "ChildTable" = true :=
  ⟨captureText_load, lex_twoPlaceholders, rfl, by decide, rfl, rfl⟩

end NestedStacks
