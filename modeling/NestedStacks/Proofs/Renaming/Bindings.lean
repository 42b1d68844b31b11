/-
Renaming asks of a parameter only whether it is given.

References are kept when their name is bound from outside, whatever it is bound to.  So two namings
that bind the same names rename everything in the same way.

* `Context.SameNames` — namings that bind the same names and put the same in front;
* `Tree.retarget_congr`, `Resource.retarget_congr`, `renameResource_congr` — they rename alike.
-/
import NestedStacks.Template.Flatten
import NestedStacks.Proofs.Renaming.Resources

namespace NestedStacks

/-- `ctx.SameNames ctx'`: `ctx` and `ctx'` put the same in front of names and bind the same names.
What these are bound to, their order, keys that are no names, and the place of the template do not
count. -/
structure Context.SameNames (ctx ctx' : Context) : Prop where
  isBound : ∀ name, ctx.isBound name = ctx'.isBound name
  namePrefix : ctx.namePrefix = ctx'.namePrefix

variable {ctx ctx' : Context} (h : ctx.SameNames ctx')
include h

/-! ### Names, paths and expressions -/

namespace Context.SameNames

theorem prefixed_eq (name : String) : ctx.prefixed name = ctx'.prefixed name := by
  rw [prefixed, prefixed, h.namePrefix]

theorem retarget_eq (name : String) : ctx.retarget name = ctx'.retarget name := by
  rw [retarget, retarget, h.isBound, h.prefixed_eq]

theorem retargetPath_eq (path : String) : ctx.retargetPath path = ctx'.retargetPath path := by
  simp only [retargetPath, h.retarget_eq]

end Context.SameNames

theorem retargetPiece_congr (locals : Entries) (p : Piece) :
    retargetPiece locals ctx p = retargetPiece locals ctx' p := by
  cases p with
  | literal c => rfl
  | placeholder name => simp only [retargetPiece, retargetPlaceholder, h.retarget_eq]

theorem retargetExpression_congr (locals : Entries) (expression : String) :
    retargetExpression locals ctx expression = retargetExpression locals ctx' expression := by
  rw [retargetExpression, retargetExpression, funext (retargetPiece_congr h locals)]

/-! ### Documents -/

namespace Tree

theorem retargetText_congr (tag : Tag) (s : String) :
    retargetText ctx tag s = retargetText ctx' tag s := by
  cases tag with
  | macroTag m => rfl
  | intrinsic i =>
    simp only [retargetText, retargetScalar, h.retargetPath_eq, retargetExpression_congr h]

theorem retargetSub_congr_names (locals : Entries) (t : Tree) :
    retargetSub ctx locals t = retargetSub ctx' locals t := by
  cases t with
  | str expression => rw [retargetSub, retargetSub, retargetExpression_congr h]
  | _ => rfl

theorem retargetGetAtt_congr (items : List Tree) :
    retargetGetAtt ctx items = retargetGetAtt ctx' items := by
  unfold retargetGetAtt
  split
  · rw [h.retarget_eq]
  · rfl

/-- The `items` of a function are renamed alike under `ctx` and `ctx'` if each of them is. -/
theorem retargetList_congr (function : Intrinsic) {items : List Tree}
    (hitems : ∀ t ∈ items, t.retarget ctx = t.retarget ctx') :
    retargetList ctx function items = retargetList ctx' function items := by
  have hall : items.mapM (retarget ctx) = items.mapM (retarget ctx') := mapM_congr hitems
  unfold retargetList
  split
  · rename_i first rest
    rw [mapM_congr fun t (ht : t ∈ rest) => hitems t (List.mem_cons_of_mem _ ht),
      retargetSub_congr_names h]
  · simp only [hall, retargetGetAtt_congr h]
  · exact hall

/-- The document `t` is renamed alike under `ctx` and `ctx'`, also if renaming fails. -/
theorem retarget_congr (t : Tree) : t.retarget ctx = t.retarget ctx' := by
  -- a tag stands on items that are renamed one by one, so the parts are taken along
  suffices t.retarget ctx = t.retarget ctx' ∧ ∀ u ∈ t.parts, u.retarget ctx = u.retarget ctx' from
    this.1
  induction t using Tree.induct with
  | null | bool | num | str => exact ⟨by rw [retarget, retarget] <;> simp, by simp [parts]⟩
  | seq items ih =>
    refine ⟨?_, fun u hu => (ih u hu).1⟩
    rw [retarget_seq, retarget_seq, mapM_congr fun u hu => (ih u hu).1]
  | map entries _ ih =>
    have hentry : ∀ e ∈ entries, retargetEntry ctx e = retargetEntry ctx' e := by
      intro e he
      rw [retargetEntry, retargetEntry, (ih e he).1]
    refine ⟨by rw [retarget_map, retarget_map, mapM_congr hentry], fun u hu => ?_⟩
    obtain ⟨e, he, rfl⟩ := List.mem_map.mp hu
    exact (ih e he).1
  | tagged tag payload ih =>
    refine ⟨?_, by simpa [parts] using ih.1⟩
    cases hnode : TaggedNode.ofTagged tag payload with
    | error e => simp only [retarget, hnode, bind, Except.bind]
    | ok node =>
      obtain ⟨c, -, ⟨-, s, -, rfl⟩ | ⟨hk, items, rfl, rfl⟩⟩ := TaggedNode.ofTagged_eq_ok.mp hnode
      · rw [retarget_text hnode, retarget_text hnode, retargetText_congr h]
      · obtain ⟨i, rfl⟩ := TaggedNode.exists_intrinsic hk
        have hitems : ∀ u ∈ items, u.retarget ctx = u.retarget ctx' := ih.2
        rw [retarget_list hnode, retarget_list hnode, retargetList_congr h i hitems]

theorem prefixDependency_congr (t : Tree) : t.prefixDependency ctx = t.prefixDependency ctx' := by
  induction t using Tree.induct with
  | null | bool | num | map | tagged => rfl
  | str s => rw [prefixDependency, prefixDependency, h.prefixed_eq]
  | seq items ih =>
    rw [prefixDependency, prefixDependency, prefixDependencies_eq_map, prefixDependencies_eq_map,
      List.map_congr_left ih]

end Tree

/-! ### Resources -/

theorem Resource.retarget_congr (r : Resource) : r.retarget ctx = r.retarget ctx' := by
  have hd : ∀ changed, prefixDependsOn ctx r changed = prefixDependsOn ctx' r changed := by
    intro changed
    simp only [prefixDependsOn, Tree.prefixDependency_congr h]
  simp only [retarget, Tree.retarget_congr h, hd]

theorem renameResource_congr (name : String) (r : Resource) :
    renameResource ctx name r = renameResource ctx' name r := by
  rw [renameResource, renameResource, r.retarget_congr h, h.prefixed_eq]

end NestedStacks
