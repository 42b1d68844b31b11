/-
References at all depths.

Renaming goes into the payloads of all functions, so it comes to a reference wherever it stands in
the properties of a resource.  There is one exception.  The expression of a `Sub` with a list has to
be a text; an item that stands in its place is passed over with everything in it.

* `Retargeted` — what becomes of a tagged value that refers to something;
* `Tree.at?_retarget_of_enters` — what stands in place of an expression stays as it is;
* `references_reached` — the main statement.
-/
import NestedStacks.Proofs.Document.Equality
import NestedStacks.Proofs.Renaming.References
import NestedStacks.Proofs.Tagging.Macros

namespace NestedStacks

/-- `Retargeted ctx u u'`: if the tagged value `u` refers to something, `u'` is what becomes of it
under `ctx`.  Of the items behind the first one nothing is said, since they are at places of their
own. -/
structure Retargeted (ctx : Context) (u u' : Tree) : Prop where
  /-- The scalar of a `Ref` or a `GetAtt` is a path. -/
  path : ∀ i tag payload s, i = .ref ∨ i = .getAtt → Tag.ofYaml? tag = some (.intrinsic i) →
    u = .tagged tag payload → TaggedNode.scalarText? payload = some s →
    u' = .tagged (Tag.intrinsic i).spelling (.str (ctx.retargetPath s))
  /-- The first item of a `GetAtt` is a name, if it is a text. -/
  name : ∀ tag s rest, Tag.ofYaml? tag = some (.intrinsic .getAtt) →
    u = .tagged tag (.seq (.str s :: rest)) →
    ∃ rest', u' = .tagged (Tag.intrinsic .getAtt).spelling (.seq (.str (ctx.retarget s) :: rest'))
  /-- The scalar of a `Sub` is an expression. -/
  expression : ∀ tag payload s, Tag.ofYaml? tag = some (.intrinsic .sub) →
    u = .tagged tag payload → TaggedNode.scalarText? payload = some s →
    u' = .tagged (Tag.intrinsic .sub).spelling (.str (retargetExpression [] ctx s))
  /-- The first item of a `Sub` is an expression, if it is a text.  The second one tells the names
  that are defined for it. -/
  expressionItem : ∀ tag s rest, Tag.ofYaml? tag = some (.intrinsic .sub) →
    u = .tagged tag (.seq (.str s :: rest)) →
    ∃ rest', u' = .tagged (Tag.intrinsic .sub).spelling
      (.seq (.str (retargetExpression (subLocals (.str s :: rest)) ctx s) :: rest'))

variable {ctx : Context}

/-- If renaming makes `u'` of a tagged value `u`, the references of `u` are renamed. -/
theorem retargeted_of_retarget {u u' : Tree} (h : u.retarget ctx = .ok u') :
    Retargeted ctx u u' where
  path := by
    rintro i tag payload s hi htag rfl hs
    rw [Tree.eq_of_retarget_text htag hs h]
    rcases hi with rfl | rfl
    · rfl
    · rfl
  name := by
    rintro tag s rest htag rfl
    obtain ⟨items', hlist, rfl⟩ := Tree.eq_of_retarget_list htag h
    obtain ⟨rest', rfl, -⟩ := Tree.retargetList_getAtt_eq_ok hlist
    exact ⟨rest', rfl⟩
  expression := by
    rintro tag payload s htag rfl hs
    exact Tree.eq_of_retarget_text htag hs h
  expressionItem := by
    rintro tag s rest htag rfl
    obtain ⟨items', hlist, rfl⟩ := Tree.eq_of_retarget_list htag h
    obtain ⟨rest', rfl, -⟩ := Tree.retargetList_sub_eq_ok hlist
    exact ⟨rest', rfl⟩

namespace Tree

variable {t t' : Tree} {place : List Nat}

/-- If `place` enters expressions that are no texts, then one of these is the outermost, at `front`,
and is reached by renaming. -/
theorem EntersExpression.exists_outermost (h : t.EntersExpression place) :
    ∃ front tag first rest behind,
      t.at? front = some (.tagged tag (.seq (first :: rest))) ∧
      Tag.ofYaml? tag = some (.intrinsic .sub) ∧ (∀ s, first ≠ .str s) ∧
      ¬t.EntersExpression front ∧ place = front ++ [0, 0] ++ behind := by
  induction hlength : place.length using Nat.strongRecOn generalizing place with
  | ind length ih =>
    obtain ⟨front, tag, first, rest, hat, htag, hfirst, behind, rfl⟩ := h
    by_cases hin : t.EntersExpression front
    · have hshorter : front.length < length := by
        simp only [← hlength, List.length_append, List.length_cons]
        omega
      obtain ⟨front', tag', first', rest', behind', hat', htag', hfirst', hout, rfl⟩ :=
        ih front.length hshorter hin rfl
      exact ⟨front', tag', first', rest', behind' ++ [0, 0] ++ behind, hat', htag', hfirst', hout,
        by simp⟩
    · exact ⟨front, tag, first, rest, behind, hat, htag, hfirst, hin, rfl⟩

/-- What stands at a `place` that enters such an expression stays as it is. -/
theorem at?_retarget_of_enters (h : t.retarget ctx = .ok t') (hin : t.EntersExpression place) :
    t'.at? place = t.at? place := by
  obtain ⟨front, tag, first, rest, behind, hat, htag, hfirst, hout, rfl⟩ := hin.exists_outermost
  obtain ⟨u', hu', hretarget⟩ := at?_retarget h hat hout
  obtain ⟨items', hlist, rfl⟩ := eq_of_retarget_list htag hretarget
  obtain ⟨rest', rfl, -⟩ := retargetList_sub_eq_ok hlist
  rw [retargetSub_of_ne hfirst] at hu'
  have hat' : t'.at? (front ++ [0, 0]) = some first := by
    rw [at?_append, hu']
    rfl
  have hat₀ : t.at? (front ++ [0, 0]) = some first := by
    rw [at?_append, hat]
    rfl
  rw [at?_append, hat', at?_append, hat₀]

end Tree

/-- **Renaming reaches the references.**  Let `p` be any part of a document `tree` that is loaded,
such as the properties of a resource.  It can be renamed under any `ctx`, with some `p'`.  Each
tagged value of `p`, at whatever `place` outside keys, is then renamed there, `Retargeted ctx u u'`,
unless `p.EntersExpression place`: then it is left as it is. -/
theorem references_reached {macros : Bool} {scope : Scope} {text : String} {w : World} {n : Nat}
    {tree p : Tree} {front : List Nat} (htree : (loadText macros scope text w n).result = .ok tree)
    (hp : tree.at? front = some p) (ctx : Context) :
    ∃ p', p.retarget ctx = .ok p' ∧
      ∀ place tag payload, p.at? place = some (.tagged tag payload) →
        (¬p.EntersExpression place →
          ∃ u', p'.at? place = some u' ∧ Retargeted ctx (.tagged tag payload) u') ∧
        (p.EntersExpression place → p'.at? place = some (.tagged tag payload)) := by
  have hin : p.WellTagged := (loadText_normal htree).wellTagged.at? hp
  obtain ⟨p', hp', -⟩ := hin.retarget ctx
  refine ⟨p', hp', fun place tag payload hat => ⟨fun hout => ?_, fun henters => ?_⟩⟩
  · obtain ⟨u', hu', hretarget⟩ := Tree.at?_retarget hp' hat hout
    exact ⟨u', hu', retargeted_of_retarget hretarget⟩
  · rw [Tree.at?_retarget_of_enters hp' henters, hat]

/-- A `Sub` with one reference in place of its expression, and another one in what it defines. -/
def expressionText : String := "Url: !Sub\n  - !Ref Table\n  - Name: !Ref Table\n"

/-- What the text holds, for the spellings `sub` and `ref` of its tags and for the `name` that is
referred to in what the `Sub` defines. -/
def expressionTree (sub ref name : String) : Tree :=
  .map [(.str "Url", .tagged sub (.seq
    [.tagged ref (.str "Table"), .map [(.str "Name", .tagged ref (.str name))]]))]

theorem expressionText_load : (loadText false .here expressionText World.empty 0).result =
    .ok (expressionTree "!Sub" "!Ref" "Table") := by
  have hparse : Markup.parse expressionText = .ok (expressionTree "Sub" "Ref" "Table") := by
    decide +kernel
  exact (loadText_yields.mpr ⟨_, hparse, rfl, rfl⟩).1

/-- The second reference is renamed, and the first one is not. -/
theorem references_reached_behind_expression : ∃ p',
    (expressionTree "!Sub" "!Ref" "Table").retarget sampleNaming = .ok p' ∧
      p'.at? [0, 0, 1, 0] = some (.tagged "!Ref" (.str "ChildTable")) ∧
      p'.at? [0, 0, 0] = some (.tagged "!Ref" (.str "Table")) := by
  have hwhole : (expressionTree "!Sub" "!Ref" "Table").at? [] =
      some (expressionTree "!Sub" "!Ref" "Table") := rfl
  obtain ⟨p', hp', hplaces⟩ := references_reached expressionText_load hwhole sampleNaming
  refine ⟨p', hp', ?_, ?_⟩
  · have hreached : ¬(expressionTree "!Sub" "!Ref" "Table").EntersExpression [0, 0, 1, 0] := by
      rintro ⟨front, tag, first, rest, hat, -, -, hpre⟩
      -- two zeros end the front, and the place has none after its first step
      rcases front with _ | ⟨a, _ | ⟨b, _ | ⟨c, front⟩⟩⟩
      · cases hat
      · simp [List.cons_prefix_cons] at hpre
      · simp [List.cons_prefix_cons] at hpre
      · have hlen := hpre.length_le
        simp only [List.length_append, List.length_cons, List.length_nil] at hlen
        omega
    obtain ⟨u', hu', hretargeted⟩ := (hplaces [0, 0, 1, 0] _ _ rfl).1 hreached
    rw [hu', hretargeted.path .ref "!Ref" _ "Table" (.inl rfl) rfl rfl rfl]
    rfl
  · exact (hplaces [0, 0, 0] _ _ rfl).2 ⟨[0], "!Sub", _, _, rfl, rfl, nofun, List.prefix_rfl⟩

/-- A reference in place of an expression keeps the name that another one to the same resource
loses. -/
theorem reference_left_over :
    (loadText false .here expressionText World.empty 0).result =
      .ok (expressionTree "!Sub" "!Ref" "Table") ∧
    (expressionTree "!Sub" "!Ref" "Table").retarget sampleNaming =
      .ok (expressionTree "!Sub" "!Ref" "ChildTable") ∧
    (expressionTree "!Sub" "!Ref" "ChildTable").at? [0, 0, 0] =
      some (.tagged "!Ref" (.str "Table")) ∧
    sampleNaming.retargetPath "Table" = "ChildTable" :=
  ⟨expressionText_load, rfl, rfl, rfl⟩

end NestedStacks
