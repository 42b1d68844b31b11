/-
Prefixes one after the other.

Stacks stand in stacks, so what was renamed for an inner template may be renamed again for an outer
one.  Renaming under one prefix and then under another is renaming under both at once, as long as
the first prefix makes no name one that is kept.

* `Context.Joins` — one naming for two in turn;
* `Tree.KeepsApart` — documents in which a prefix makes no name one that is kept;
* `retargetExpression_joins`, `Tree.retargetsItems_joins` — expressions, and the items of functions;
* `prefixes_compose` — the main statement.
-/
import NestedStacks.Proofs.Renaming.Attributes
import NestedStacks.Proofs.Renaming.Capture
import NestedStacks.Proofs.Tagging.Macros

namespace NestedStacks

/-- A text starts with characters among which there is no `c` only if what is in front of `c`
does. -/
theorem prefix_append_cons_iff {start front behind : List Char} {c : Char} (h : c ∉ start) :
    start <+: front ++ c :: behind ↔ start <+: front := by
  refine ⟨fun ⟨rest, hrest⟩ => ?_, fun hfront => hfront.trans (List.prefix_append _ _)⟩
  rcases List.append_eq_append_iff.mp hrest with ⟨as, rfl, -⟩ | ⟨bs, rfl, hbs⟩
  · exact List.prefix_append start as
  · cases bs with
    | nil => simp
    | cons b bs =>
      obtain ⟨rfl, -⟩ := List.cons.inj hbs
      exact absurd (List.mem_append_right front List.mem_cons_self) h

namespace Context

/-- `both.Joins first second`: `both` puts in front of names what `first` and then `second` put
there.  None of the three binds a name. -/
structure Joins (both first second : Context) : Prop where
  first_bindings : first.bindings = []
  second_bindings : second.bindings = []
  bindings : both.bindings = []
  namePrefix : both.namePrefix = second.namePrefix ++ first.namePrefix

variable {ctx both first second : Context}

theorem isBound_of_bindings (h : ctx.bindings = []) (name : String) : ctx.isBound name = false := by
  rw [isBound, h]
  rfl

/-- If `ctx` binds nothing, `name` is kept only if it is that of a pseudo parameter. -/
theorem retarget_of_bindings (h : ctx.bindings = []) (name : String) :
    ctx.retarget name = if isPseudo name then name else ctx.namePrefix ++ name := by
  rw [retarget, isBound_of_bindings h, Bool.false_or]
  rfl

/-- The names of pseudo parameters are known by their `front`, where there is no point. -/
theorem isPseudo_append_point (front behind : List Char) :
    isPseudo (String.ofList (front ++ '.' :: behind)) = isPseudo (String.ofList front) := by
  have hpoint : '.' ∉ "AWS::".toList := by decide
  rw [isPseudo, isPseudo, @String.toList_ofList (front ++ _), @String.toList_ofList front,
    Bool.eq_iff_iff, List.isPrefixOf_iff_prefix, List.isPrefixOf_iff_prefix,
    prefix_append_cons_iff hpoint]

/-- If `ctx` binds nothing, `path` is renamed as if it were a name. -/
theorem retargetPath_of_bindings (h : ctx.bindings = []) (path : String) :
    ctx.retargetPath path = ctx.retarget path := by
  have hpath := Text.uncut_cut '.' path.toList
  unfold retargetPath
  split
  · rename_i name hcut
    rw [hcut] at hpath
    rw [show String.ofList name = path by simpa [Text.uncut] using congrArg String.ofList hpath]
  · rename_i name rest hcut
    rw [hcut] at hpath
    obtain rfl : String.ofList (name ++ '.' :: rest) = path := by
      simpa [Text.uncut] using congrArg String.ofList hpath
    rw [retarget_of_bindings h, retarget_of_bindings h, isPseudo_append_point]
    apply String.toList_inj.mp
    split <;> simp

theorem Joins.retarget (hj : both.Joins first second) {name : String}
    (hpseudo : isPseudo name = false → isPseudo (first.namePrefix ++ name) = false) :
    second.retarget (first.retarget name) = both.retarget name := by
  rw [retarget_of_bindings hj.first_bindings, retarget_of_bindings hj.bindings]
  cases hname : isPseudo name with
  | true => rw [if_pos rfl, if_pos rfl, retarget_of_bindings hj.second_bindings, if_pos hname]
  | false =>
    rw [if_neg Bool.false_ne_true, if_neg Bool.false_ne_true,
      retarget_of_bindings hj.second_bindings, hpseudo hname, if_neg Bool.false_ne_true,
      hj.namePrefix, String.append_assoc]

theorem Joins.retargetPath (hj : both.Joins first second) {path : String}
    (hpseudo : isPseudo path = false → isPseudo (first.namePrefix ++ path) = false) :
    second.retargetPath (first.retargetPath path) = both.retargetPath path := by
  rw [retargetPath_of_bindings hj.first_bindings, retargetPath_of_bindings hj.second_bindings,
    retargetPath_of_bindings hj.bindings, hj.retarget hpseudo]

end Context

variable {both first second : Context}

/-! ### Expressions -/

/-- `locals.FreeOf namePrefix`: no name that `locals` define starts with `namePrefix`. -/
def Entries.FreeOf (locals : Entries) (namePrefix : String) : Prop :=
  ∀ name, locals.hasKey name = true → ¬namePrefix.toList <+: name.toList

theorem Entries.FreeOf.nil (namePrefix : String) : Entries.FreeOf [] namePrefix :=
  fun _ h => absurd h Bool.false_ne_true

/-- A prefix `front` without a point is put in front of what a placeholder refers to. -/
theorem Piece.pointer_append {front : List Char} (h : '.' ∉ front) (name : List Char) :
    Piece.pointer (front ++ name) = String.ofList front ++ Piece.pointer name := by
  rw [pointer, Text.cut_append_of_not_mem h, String.ofList_append, pointer]

theorem retargetName_joins (hj : both.Joins first second) (hpoint : '.' ∉ first.namePrefix.toList)
    {locals locals' : Entries} (hkeys : ∀ key, locals'.hasKey key = locals.hasKey key)
    (hfree : locals.FreeOf first.namePrefix) (name : List Char) :
    retargetName locals' second (retargetName locals first name) =
      retargetName locals both name := by
  rw [retargetName_eq locals first, retargetName_eq locals both,
    Context.isBound_of_bindings hj.first_bindings, Context.isBound_of_bindings hj.bindings,
    Bool.or_false]
  cases hlocal : locals.hasKey (Piece.pointer name) with
  | true =>
    rw [if_pos rfl, if_pos rfl, retargetName_eq, hkeys, hlocal, Bool.true_or, if_pos rfl]
  | false =>
    have hnew : locals.hasKey (Piece.pointer (first.namePrefix.toList ++ name)) = false := by
      rw [Bool.eq_false_iff]
      intro hkey
      refine hfree _ hkey ?_
      rw [Piece.pointer_append hpoint, String.toList_append, String.toList_ofList]
      exact List.prefix_append _ _
    rw [if_neg Bool.false_ne_true, if_neg Bool.false_ne_true, retargetName_eq, hkeys, hnew,
      Context.isBound_of_bindings hj.second_bindings, Bool.or_false, if_neg Bool.false_ne_true,
      hj.namePrefix, String.toList_append, List.append_assoc]

/-! ### Documents -/

namespace Tree

/-- `t.Targets s`: `t` refers to `s` by itself: `s` is the payload of `Ref` or `GetAtt`, or the
first item of `GetAtt`. -/
inductive Targets : Tree → String → Prop
  | path {i : Intrinsic} {tag s : String} {payload : Tree} (hi : i = .ref ∨ i = .getAtt)
      (htag : Tag.ofYaml? tag = some (.intrinsic i))
      (hs : TaggedNode.scalarText? payload = some s) : Targets (.tagged tag payload) s
  | name {tag s : String} {rest : List Tree} (htag : Tag.ofYaml? tag = some (.intrinsic .getAtt)) :
      Targets (.tagged tag (.seq (.str s :: rest))) s

/-- `t.Apart namePrefix`: as far as `t` by itself tells, `namePrefix` makes no name one that is
kept: none that a `Sub` defines, and none of a pseudo parameter. -/
structure Apart (t : Tree) (namePrefix : String) : Prop where
  locals : ∀ tag items, t = .tagged tag (.seq items) → Tag.ofYaml? tag = some (.intrinsic .sub) →
    (subLocals items).FreeOf namePrefix
  pseudo : ∀ s, t.Targets s → Context.isPseudo s = false →
    Context.isPseudo (namePrefix ++ s) = false

/-- `t.KeepsApart namePrefix`: `namePrefix` makes no name in `t`, at any place, one that is kept. -/
def KeepsApart (t : Tree) (namePrefix : String) : Prop :=
  ∀ place u, t.at? place = some u → u.Apart namePrefix

variable {t : Tree} {namePrefix : String}

theorem keepsApart_iff :
    t.KeepsApart namePrefix ↔
      t.Apart namePrefix ∧ ∀ u ∈ t.parts, u.KeepsApart namePrefix := by
  constructor
  · refine fun h => ⟨h [] t rfl, fun u hu place v hv => ?_⟩
    obtain ⟨i, hi⟩ := List.mem_iff_getElem?.mp hu
    exact h (i :: place) v (by rw [at?_cons, hi]; exact hv)
  · rintro ⟨ht, hparts⟩ place v hv
    cases place with
    | nil =>
      obtain rfl := Option.some.inj hv
      exact ht
    | cons i place =>
      obtain ⟨u, hu, hv⟩ := Option.bind_eq_some_iff.mp hv
      exact hparts u (List.mem_of_getElem? hu) place v hv

/-- Where `t` refers to nothing, a prefix makes no name at all. -/
theorem TaggedIn.keepsApart (ht : t.TaggedIn fun tag => ¬tag.Refers) (namePrefix : String) :
    t.KeepsApart namePrefix := by
  intro place u hu
  replace hu := ht.at? hu
  refine ⟨?_, fun s hs _ => ?_⟩
  · rintro tag items rfl htag
    exact absurd (.inr (.inr rfl)) (hu.allowed_of_tagged htag)
  · cases hs with
    | path hi htag _ =>
      refine absurd ?_ (hu.allowed_of_tagged htag)
      rcases hi with rfl | rfl
      · exact .inl rfl
      · exact .inr (.inl rfl)
    | name htag => exact absurd (.inr (.inl rfl)) (hu.allowed_of_tagged htag)

/-- Without a tag on it `t` is as its parts are. -/
theorem keepsApart_of_parts (ht : ∀ tag payload, t ≠ .tagged tag payload)
    (hparts : ∀ u ∈ t.parts, u.KeepsApart namePrefix) : t.KeepsApart namePrefix := by
  refine keepsApart_iff.mpr ⟨⟨fun tag items h => absurd h (ht _ _), fun s hs => ?_⟩, hparts⟩
  cases hs <;> exact absurd rfl (ht _ _)

/-- `t.RetargetsBoth both first second`: renaming `t` under `first` and then under `second` succeeds
and gives what renaming it under `both` does. -/
def RetargetsBoth (both first second : Context) (t : Tree) : Prop :=
  ∃ u v, t.retarget first = .ok u ∧ u.retarget second = .ok v ∧ t.retarget both = .ok v

theorem RetargetsBoth.of_fixed (h : ∀ ctx, t.retarget ctx = .ok t) :
    t.RetargetsBoth both first second :=
  ⟨t, t, h _, h _, h _⟩

end Tree

/-! ### Renaming twice -/

section

variable (hj : both.Joins first second) (hname : Piece.IsName first.namePrefix.toList)
  (hpoint : '.' ∉ first.namePrefix.toList)
include hj hname hpoint

/-- An expression `s` is renamed under `first` and `second` at once, that is under `both`, if the
prefix of `first` is a name.  The scanner then finds again what it found before. -/
theorem retargetExpression_joins {locals locals' : Entries}
    (hkeys : ∀ key, locals'.hasKey key = locals.hasKey key)
    (hfree : locals.FreeOf first.namePrefix) (s : String) :
    retargetExpression locals' second (retargetExpression locals first s) =
      retargetExpression locals both s := by
  apply String.toList_inj.mp
  rw [retargetExpression_eq_render, lex_retargetExpression (.inr hname), List.map_map,
    retargetExpression_eq_render]
  congr 2
  funext p
  cases p with
  | literal c => rfl
  | placeholder name =>
    exact congrArg Piece.placeholder (retargetName_joins hj hpoint hkeys hfree name)

namespace Tree

theorem retargetText_joins {tag : Tag} {s : String}
    (h : (Tree.tagged tag.spelling (.str s)).Apart first.namePrefix) :
    retargetText second tag (retargetText first tag s) = retargetText both tag s := by
  cases tag with
  | macroTag m => rfl
  | intrinsic i =>
    cases i with
    | ref => exact hj.retargetPath (h.pseudo s (.path (.inl rfl) (Tag.ofYaml?_spelling _) rfl))
    | getAtt => exact hj.retargetPath (h.pseudo s (.path (.inr rfl) (Tag.ofYaml?_spelling _) rfl))
    | sub => exact retargetExpression_joins hj hname hpoint (fun _ => rfl) (.nil _) s
    | _ => rfl

theorem retargetSub_joins {locals locals' : Entries}
    (hkeys : ∀ key, locals'.hasKey key = locals.hasKey key)
    (hfree : locals.FreeOf first.namePrefix) (t : Tree) :
    retargetSub second locals' (retargetSub first locals t) = retargetSub both locals t := by
  cases t with
  | str s => exact congrArg Tree.str (retargetExpression_joins hj hname hpoint hkeys hfree s)
  | _ => rfl

/-- The `items` of a function are renamed under `first` and `second` at once if each of them is. -/
theorem retargetsItems_joins {function : Intrinsic} {items : List Tree}
    (hapart : (Tree.tagged (Tag.intrinsic function).spelling (.seq items)).Apart first.namePrefix)
    (h : ∀ u ∈ items, u.RetargetsBoth both first second) :
    ∃ us vs, RetargetsItems first function items us ∧ RetargetsItems second function us vs ∧
      RetargetsItems both function items vs := by
  by_cases hitem : function = .getAtt ∧ ∃ s rest, items = .str s :: rest
  · obtain ⟨rfl, s, rest, rfl⟩ := hitem
    obtain ⟨us, vs, hus, hvs, hboth⟩ :=
      Except.exists_mapM_mapM fun u (hu : u ∈ rest) => h u (List.mem_cons_of_mem _ hu)
    have hs := hj.retarget (hapart.pseudo s (.name (Tag.ofYaml?_spelling _)))
    refine ⟨_, .str (both.retarget s) :: vs, .name (Except.mapM_eq_ok.mp hus), ?_,
      .name (Except.mapM_eq_ok.mp hboth)⟩
    rw [← hs]
    exact .name (Except.mapM_eq_ok.mp hvs)
  by_cases hexpression : function = .sub ∧ ∃ e rest, items = e :: rest
  · obtain ⟨rfl, e, rest, rfl⟩ := hexpression
    obtain ⟨us, vs, hus, hvs, hboth⟩ :=
      Except.exists_mapM_mapM fun u (hu : u ∈ rest) => h u (List.mem_cons_of_mem _ hu)
    have hus := Except.mapM_eq_ok.mp hus
    have hfree := hapart.locals _ _ rfl (Tag.ofYaml?_spelling _)
    have he := retargetSub_joins hj hname hpoint
      (hasKey_subLocals_of_retarget e (retargetSub first (subLocals (e :: rest)) e) hus) hfree e
    refine ⟨_, retargetSub both (subLocals (e :: rest)) e :: vs, .expression hus, ?_,
      .expression (Except.mapM_eq_ok.mp hboth)⟩
    rw [← he]
    exact .expression (Except.mapM_eq_ok.mp hvs)
  · obtain ⟨us, vs, hus, hvs, hboth⟩ := Except.exists_mapM_mapM h
    have hus := Except.mapM_eq_ok.mp hus
    have hname : function = .getAtt → ∀ s rest, items ≠ .str s :: rest :=
      fun hf s rest hs => hitem ⟨hf, s, rest, hs⟩
    have hsub : function = .sub → items = [] := by
      intro hf
      cases items with
      | nil => rfl
      | cons e rest => exact absurd ⟨hf, e, rest, rfl⟩ hexpression
    refine ⟨us, vs, .items hname hsub hus, .items (fun hf s rest hs => ?_) (fun hf => ?_)
      (Except.mapM_eq_ok.mp hvs), .items hname hsub (Except.mapM_eq_ok.mp hboth)⟩
    · -- an item that is a text afterwards was one before
      subst hs
      cases hus with
      | cons hu _ => exact hname hf s _ (congrArg (· :: _) (eq_str_of_retarget hu))
    · obtain rfl := hsub hf
      cases hus
      rfl

end Tree

end

/-- **Prefixes compose.**  Let `both` join `first` and `second`, let the prefix of `first` be a name
without a point, and let it make no name in the well tagged document `t` one that is defined by a
`Sub` or one of a pseudo parameter.  Then renaming `t` under `first` and after that under `second`
succeeds, and gives what renaming `t` under `both` gives. -/
theorem prefixes_compose (hj : both.Joins first second)
    (hname : Piece.IsName first.namePrefix.toList) (hpoint : '.' ∉ first.namePrefix.toList)
    {t : Tree} (ht : t.WellTagged) (hapart : t.KeepsApart first.namePrefix) :
    t.RetargetsBoth both first second := by
  induction ht with
  | null | bool | num | str =>
    refine .of_fixed fun ctx => ?_
    rw [Tree.retarget] <;> simp
  | @seq items _ ih =>
    have hparts := (Tree.keepsApart_iff.mp hapart).2
    obtain ⟨us, vs, hus, hvs, hboth⟩ :=
      Except.exists_mapM_mapM fun u (hu : u ∈ items) => ih u hu (hparts u hu)
    exact ⟨.seq us, .seq vs, Tree.retarget_seq_of_mapM hus, Tree.retarget_seq_of_mapM hvs,
      Tree.retarget_seq_of_mapM hboth⟩
  | @map entries _ ih =>
    have hparts := (Tree.keepsApart_iff.mp hapart).2
    have hentry : ∀ e ∈ entries, ∃ f g, Tree.retargetEntry first e = .ok f ∧
        Tree.retargetEntry second f = .ok g ∧ Tree.retargetEntry both e = .ok g := by
      intro e he
      obtain ⟨u, v, hu, hv, hboth⟩ := ih e he (hparts e.2 (List.mem_map_of_mem he))
      exact ⟨(e.1, u), (e.1, v), Tree.retargetEntry_eq_ok.mpr ⟨rfl, hu⟩,
        Tree.retargetEntry_eq_ok.mpr ⟨rfl, hv⟩, Tree.retargetEntry_eq_ok.mpr ⟨rfl, hboth⟩⟩
    obtain ⟨es, fs, hes, hfs, hboth⟩ := Except.exists_mapM_mapM hentry
    exact ⟨.map es, .map fs, Tree.retarget_map_of_mapM hes, Tree.retarget_map_of_mapM hfs,
      Tree.retarget_map_of_mapM hboth⟩
  | text _ hk s =>
    have hself := (Tree.keepsApart_iff.mp hapart).1
    refine ⟨_, _, Tree.retarget_text (TaggedNode.ofTagged_text hk s),
      Tree.retarget_text (TaggedNode.ofTagged_text hk _), ?_⟩
    rw [Tree.retarget_text (TaggedNode.ofTagged_text hk s),
      Tree.retargetText_joins hj hname hpoint hself]
  | @list tag _ hk items _ ih =>
    obtain ⟨i, rfl⟩ := TaggedNode.exists_intrinsic hk
    obtain ⟨hself, hpayload⟩ := Tree.keepsApart_iff.mp hapart
    have hparts := (Tree.keepsApart_iff.mp (hpayload (.seq items) (List.mem_singleton.mpr rfl))).2
    obtain ⟨us, vs, hus, hvs, hboth⟩ := Tree.retargetsItems_joins hj hname hpoint hself
      fun u hu => ih u hu (hparts u hu)
    exact ⟨_, _, Tree.retarget_list_of_items hk (Tree.retargetList_eq_ok.mpr hus),
      Tree.retarget_list_of_items hk (Tree.retargetList_eq_ok.mpr hvs),
      Tree.retarget_list_of_items hk (Tree.retargetList_eq_ok.mpr hboth)⟩

/-- What is under the name of the site refers to a bucket. -/
theorem keepsApart_attributeList : attributeList.KeepsApart "Child" := by
  have hitems : (Tree.seq [.str "Bucket", .str "Website.Url"]).KeepsApart "Child" := by
    refine Tree.TaggedIn.keepsApart (.seq ?_) "Child"
    exact List.forall_mem_cons.mpr ⟨.str _, List.forall_mem_singleton.mpr (.str _)⟩
  refine Tree.keepsApart_iff.mpr ⟨⟨?_, fun s hs _ => ?_⟩, List.forall_mem_singleton.mpr hitems⟩
  · rintro tag items h htag
    cases h
    exact absurd htag (by decide)
  · cases hs with
    | path _ _ hs => cases hs
    | name _ => rfl

/-- The name of the site does not start with `Child`. -/
theorem keepsApart_expressionWith {t : Tree} (ht : t.KeepsApart "Child") :
    (expressionWith t).KeepsApart "Child" := by
  have hsite : (Tree.map [(.str "Site", t)]).KeepsApart "Child" :=
    Tree.keepsApart_of_parts nofun (List.forall_mem_singleton.mpr ht)
  have hitems : (Tree.seq [.str "${Site}/${Table.Arn}",
      .map [(.str "Site", t)]]).KeepsApart "Child" := by
    refine Tree.keepsApart_of_parts nofun ?_
    exact List.forall_mem_cons.mpr
      ⟨Tree.TaggedIn.keepsApart (.str _) _, List.forall_mem_singleton.mpr hsite⟩
  refine Tree.keepsApart_iff.mpr ⟨⟨?_, fun s hs _ => ?_⟩, List.forall_mem_singleton.mpr hitems⟩
  · rintro tag items h - name hname
    cases h
    have hsite : Entries.hasKey [(.str "Site", t)] name = true := hname
    obtain rfl : "Site" = name := by simpa [Entries.hasKey] using hsite
    decide
  · cases hs with
    | path _ _ hs => cases hs
    | name htag => exact absurd htag (by decide)

/-- Under two prefixes a table gets both of them, and the site keeps the name it has inside. -/
theorem prefixes_compose_site :
    (expressionWith attributeList).WellTagged ∧
      (expressionWith attributeList).KeepsApart "Child" ∧
      ∃ u v, (expressionWith attributeList).retarget ⟨none, [], "Child"⟩ = .ok u ∧
        u.retarget ⟨none, [], "Outer"⟩ = .ok v ∧
        (expressionWith attributeList).retarget ⟨none, [], "OuterChild"⟩ = .ok v ∧
        v.at? [0, 0] = some (.str "${Site}/${OuterChildTable.Arn}") := by
  have hattr : attributeList.WellTagged := by
    refine @Tree.TaggedIn.list _ (.intrinsic .getAtt) trivial (by decide) _ ?_
    exact List.forall_mem_cons.mpr ⟨.str _, List.forall_mem_singleton.mpr (.str _)⟩
  have ht : (expressionWith attributeList).WellTagged := by
    refine @Tree.TaggedIn.list _ (.intrinsic .sub) trivial (by decide) _ ?_
    refine List.forall_mem_cons.mpr ⟨.str _, List.forall_mem_singleton.mpr (.map ?_)⟩
    exact List.forall_mem_singleton.mpr hattr
  have hapart := keepsApart_expressionWith keepsApart_attributeList
  have hj : Context.Joins ⟨none, [], "OuterChild"⟩ ⟨none, [], "Child"⟩ ⟨none, [], "Outer"⟩ :=
    ⟨rfl, rfl, rfl, by decide⟩
  have hname : Piece.IsName "Child".toList :=
    ⟨'C', "hild".toList, by decide, by decide, List.all_eq_true.mp (by decide)⟩
  obtain ⟨u, v, hu, hv, hboth⟩ := prefixes_compose hj hname (by decide) ht hapart
  refine ⟨ht, hapart, u, v, hu, hv, hboth, ?_⟩
  obtain rfl := Except.ok.inj hboth
  rfl

end NestedStacks
