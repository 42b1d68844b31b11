/-
Names that are scalars of any kind.

The key of a resource, what stands under a `Ref`, and a dependency are all turned into names, each
in a way of its own.  For truth values, numbers and texts a key and a `Ref` agree, and for texts a
dependency agrees with both: `scalar_names_one_resource`.  Null is the text `null` as a key and
no text at all under a tag, and a `Ref` asks for parameters by what is in front of its first point:
`scalar_names_fall_apart`.

* `Tree.RefAt` — a `Ref` with a text, at a place of a document;
* `Context.retargetPath_eq_ite` — what a reference with points becomes;
* `Resource.RefsBecome`, `Resource.DependenciesBecome` — what becomes of a scalar in the references
  and in the dependencies of a resource.
-/
import NestedStacks.Proofs.Nesting.Dependencies
import NestedStacks.Proofs.Renaming.Pieces
import NestedStacks.Proofs.Renaming.Places

namespace NestedStacks

/-! ### References with points -/

namespace Context

/-- If `name` is no pseudo parameter, then what is in front of its first point is none. -/
theorem isPseudo_pointer {name : String} (h : isPseudo name = false) :
    isPseudo (Piece.pointer name.toList) = false := by
  rw [Bool.eq_false_iff] at h ⊢
  intro hpointer
  refine h ?_
  rw [isPseudo, List.isPrefixOf_iff_prefix] at hpointer ⊢
  refine hpointer.trans ?_
  have hname := Text.uncut_cut '.' name.toList
  rw [Piece.pointer, String.toList_ofList]
  rcases hcut : Text.cut '.' name.toList with ⟨front, behind⟩
  rw [hcut] at hname
  rw [← hname]
  cases behind <;> simp [Text.uncut]

/-- A `path` is kept, or gets the prefix, by what is in front of its first point. -/
theorem retargetPath_eq_ite (ctx : Context) (path : String) :
    ctx.retargetPath path =
      if ctx.isBound (Piece.pointer path.toList) || isPseudo (Piece.pointer path.toList) then path
      else ctx.prefixed path := by
  have hpath := Text.uncut_cut '.' path.toList
  unfold retargetPath retarget Piece.pointer prefixed
  rcases hcut : Text.cut '.' path.toList with ⟨front, behind⟩
  rw [hcut] at hpath
  apply String.toList_inj.mp
  cases hkept : ctx.isBound (String.ofList front) || isPseudo (String.ofList front) <;>
    cases behind <;> simp [hkept, ← hpath, Text.uncut]

end Context

/-! ### Scalars in a resource -/

/-- `t.RefAt place k`: a `Ref` stands at `place` in `t`, with the text of the scalar `k`. -/
def Tree.RefAt (t : Tree) (place : List Nat) (k : Tree) : Prop :=
  ∃ tag payload, t.at? place = some (.tagged tag payload) ∧
    Tag.ofYaml? tag = some (.intrinsic .ref) ∧
    TaggedNode.scalarText? payload = TaggedNode.scalarText? k

namespace Resource

/-- `r.RefsBecome k final r'`: each `Ref` with the text of the scalar `k` in the properties of `r`,
wherever renaming reaches, is one with the text `final` in `r'`. -/
def RefsBecome (k : Tree) (final : String) (r r' : Resource) : Prop :=
  ∀ p place, r.properties? = some p → p.RefAt place k → ¬p.EntersExpression place →
    ∃ p', r'.properties? = some p' ∧
      p'.at? place = some (.tagged (Tag.intrinsic .ref).spelling (.str final))

/-- `r.DependenciesBecome k final r'`: if `r` depends on the scalar `k`, alone or as an item of a
list, `r'` depends on `final` there. -/
structure DependenciesBecome (k : Tree) (final : String) (r r' : Resource) : Prop where
  alone : r.get? "DependsOn" = some k → r'.get? "DependsOn" = some (.str final)
  item : ∀ (items : List Tree) (i : Nat), r.get? "DependsOn" = some (.seq items) →
    items[i]? = some k → ∃ items' : List Tree,
      r'.get? "DependsOn" = some (.seq items') ∧ items'[i]? = some (.str final)

variable {ctx : Context} {r r' : Resource} {k : Tree} {name : String}

theorem refsBecome_of_retarget (h : r.retarget ctx = .ok r')
    (hk : TaggedNode.scalarText? k = some name) :
    r.RefsBecome k (ctx.retargetPath name) r' := by
  rintro p place hp ⟨tag, payload, hat, htag, htext⟩ hreached
  obtain ⟨hnone, -⟩ | ⟨p₀, p', hp₀, hp', hprops⟩ := properties?_retarget h
  · simp [hp] at hnone
  obtain rfl : p = p₀ := by simpa [hp] using hp₀
  obtain ⟨u', hu', hrename⟩ := Tree.at?_retarget hp' hat hreached
  rw [Tree.eq_of_retarget_text htag (htext.trans hk) hrename] at hu'
  exact ⟨p', hprops, hu'⟩

theorem dependenciesBecome_of_retarget (h : r.retarget ctx = .ok r') (name : String) :
    r.DependenciesBecome (.str name) (ctx.prefixed name) r' where
  alone hd := by
    rw [get?_dependsOn_retarget h, hd]
    rfl
  item items i hd hi := by
    refine ⟨items.map (Tree.prefixDependency ctx), ?_, ?_⟩
    · rw [get?_dependsOn_retarget h, hd, Option.map_some, Tree.prefixDependency,
        Tree.prefixDependencies_eq_map]
    · rw [List.getElem?_map, hi]
      rfl

end Resource

/-! ### Keys of resources and of parameters -/

/-- A key `k` that is not null is the text `name` under a tag if its name is `name`. -/
theorem scalarText?_of_keyText {k : Tree} {name : String} (hk : k ≠ .null)
    (h : keyText k = .ok name) : TaggedNode.scalarText? k = some name := by
  cases k <;> simp_all [keyText, TaggedNode.scalarText?]

/-- The resource of the key at number `i` of the `entries` is the one at number `i` of `rs`. -/
theorem Template.getElem?_resources {t : Template} {entries : Entries} {rs : Resources}
    (ht : t.get? "Resources" = some (.map entries)) (hrs : t.resources = .ok rs) {i : Nat}
    {k : Tree} {body : Entries} {name : String} (hi : entries[i]? = some (k, .map body))
    (hname : keyText k = .ok name) : rs[i]? = some (name, ⟨body⟩) := by
  rw [Template.resources, ht] at hrs
  obtain ⟨entry, hentry, hof⟩ := forall₂_getElem? (Except.mapM_eq_ok.mp hrs) hi
  obtain ⟨hkey, hbody⟩ := resourceOf_eq_ok.mp hof
  obtain ⟨name', ⟨body'⟩⟩ := entry
  obtain rfl : name' = name := Except.ok.inj (hkey.symm.trans hname)
  obtain rfl : body = body' := by simpa [Resource.toTree] using hbody
  exact hentry

/-- The `naming` inside a stack `r` binds the parameters in the mapping of `r`. -/
theorem Resource.bindings_of_nestedContext {r : Resource} {name : String} {ctx naming : Context}
    {directory path : Path} {kind : StackKind} {bindings : Entries}
    (h : r.nestedContext name ctx directory = .ok (kind, path, naming))
    (hp : r.property? "Parameters" = some (.map bindings)) : naming.bindings = bindings := by
  obtain ⟨_, _, _, -, -, -, hgiven, -, rfl⟩ := nestedContext_eq_ok.mp h
  simp only [parameters, hp, Except.ok.injEq] at hgiven
  exact hgiven.symm

/-- **A scalar that is no null names one thing, however it is written.**  Let processing the
resources `rs` of `t` under `ctx` give `out`, which is made of parts, one for each of `rs`, and let
`r` be one of `rs` that stays and becomes `r'`.  If a resource stays whose key `k` in `Resources` is
a truth value, a number or a text, with the name `name`, its part is that resource under some name
`final`; each `Ref` with `k` in `r` comes out with `final` in `r'`, and so does each dependency on
`k` if it is a text.  Only the part of `name` in front of the first point must not be bound by
`ctx`, and `name` must be none of a pseudo parameter.  And if `ctx` is the naming of a stack that
passes a parameter whose key is a text without a point, each `Ref` with this text in `r` is kept in
`r'`. -/
theorem scalar_names_one_resource {w : World} {macros : Bool} {depth n : Nat} {t : Template}
    {ctx : Context} {entries : Entries} {out : Resources}
    (ht : t.get? "Resources" = some (.map entries))
    (hrun : (processResources macros depth t ctx w n).result = .ok out) :
    ∃ rs parts, t.resources = .ok rs ∧ out = parts.flatten ∧
      List.Forall₂ (fun entry part =>
        ∃ m, (contribution macros depth ctx entry w m).result = .ok part) rs parts ∧
      ∀ (j : Nat) owner r, rs[j]? = some (owner, r) → r.needsFlattening = false →
        ∃ r', parts[j]? = some [(ctx.prefixed owner, r')] ∧
        (∀ (i : Nat) k name body, entries[i]? = some (k, .map body) →
          (Resource.mk body).needsFlattening = false → k ≠ .null → keyText k = .ok name →
          Context.isPseudo name = false → ctx.isBound (Piece.pointer name.toList) = false →
          ∃ final s', parts[i]? = some [(final, s')] ∧ r.RefsBecome k final r' ∧
            ((∃ s, k = .str s) → r.DependenciesBecome k final r')) ∧
        ∀ stack stackName outer directory kind path bindings name value,
          Resource.nestedContext stack stackName outer directory = .ok (kind, path, ctx) →
          stack.property? "Parameters" = some (.map bindings) →
          (.str name, value) ∈ bindings → '.' ∉ name.toList →
          r.RefsBecome (.str name) name r' := by
  obtain ⟨rs, parts, hrs, rfl, hyields⟩ :=
    processResources_yields.mp (Run.yields_of_result hrun)
  have hparts := Run.mapM_eq_ok hyields.1
  -- a resource that stays is the only thing in the part at its own position
  have hkept {i : Nat} {entry : String × Resource} (hi : rs[i]? = some entry)
      (hr : entry.2.needsFlattening = false) :
      ∃ r', entry.2.retarget ctx = .ok r' ∧ parts[i]? = some [(ctx.prefixed entry.1, r')] := by
    obtain ⟨part, hpart, m, hm⟩ := forall₂_getElem? hparts hi
    obtain ⟨r', hr', rfl, -⟩ := (contribution_kept hr).mp (Run.yields_of_result hm)
    exact ⟨r', hr', hpart⟩
  refine ⟨rs, parts, hrs, rfl, hparts, fun j owner r hj hr => ?_⟩
  obtain ⟨r', hr', hpart⟩ := hkept hj hr
  refine ⟨r', hpart, ?_, ?_⟩
  · intro i k name body hi hs hk hname hpseudo hfree
    obtain ⟨s', -, hs'⟩ := hkept (Template.getElem?_resources ht hrs hi hname) hs
    have hfinal : ctx.retargetPath name = ctx.prefixed name := by
      rw [Context.retargetPath_eq_ite, hfree, Context.isPseudo_pointer hpseudo]
      rfl
    refine ⟨_, s', hs', ?_, ?_⟩
    · rw [← hfinal]
      exact Resource.refsBecome_of_retarget hr' (scalarText?_of_keyText hk hname)
    · rintro ⟨s, rfl⟩
      obtain rfl : s = name := Except.ok.inj hname
      exact Resource.dependenciesBecome_of_retarget hr' s
  · intro stack stackName outer directory kind path bindings name value hnaming hgiven hmem hpoint
    have hbound : ctx.isBound name = true := by
      rw [Context.isBound, Resource.bindings_of_nestedContext hnaming hgiven, Entries.hasKey]
      exact List.any_eq_true.mpr ⟨_, hmem, by simp⟩
    have hfinal : ctx.retargetPath name = name := by
      rw [Context.retargetPath_of_not_mem hpoint, Context.retarget, hbound]
      rfl
    have hrefs := Resource.refsBecome_of_retarget (k := .str name) hr' rfl
    rwa [hfinal] at hrefs

/-- A resource that depends on `name` and has references as its `properties`. -/
def scalarReader (properties : Entries) (name : String) : Resource :=
  ⟨[(.str "Type", .str "Custom::Reader"), (.str "Properties", .map properties),
    (.str "DependsOn", .seq [.str name])]⟩

/-- A reader of a table whose key is a number, of one whose key is a text, and of a parameter. -/
def numberReader : Resource :=
  scalarReader [(.str "Number", .tagged "!Ref" (.num (.int 42))),
    (.str "Text", .tagged "!Ref" (.str "Table")), (.str "Given", .tagged "!Ref" (.str "Env"))]
    "Table"

/-- The entries of `Resources` in a template with the two tables and the reader. -/
def numberEntries : Entries :=
  [(.num (.int 42), (Resource.ofType "Custom::Table").toTree),
    (.str "Table", (Resource.ofType "Custom::Table").toTree),
    (.str "Reader", numberReader.toTree)]

/-- The stack that stands for the template, and the naming in it. -/
def numberStack : Resource :=
  ⟨[(.str "Type", .str "AWS::CloudFormation::Stack"),
    (.str "Properties", .map [(.str "Location", .str "c.yaml"),
      (.str "Parameters", .map [(.str "Env", .str "test")])])]⟩

def numberNaming : Context := .nested ⟨"/c.yaml"⟩ [(.str "Env", .str "test")] "Child"

/-- The number, the text and the parameter of the sample. -/
theorem scalar_names_one_resource_number :
    ∃ out, ∃ parts : List Resources, ∃ r' number table s₁ s₂,
    (processResources false 1 ⟨[(.str "Resources", .map numberEntries)]⟩ numberNaming
      .empty 0).result = .ok out ∧ out = parts.flatten ∧
    parts[0]? = some [(number, s₁)] ∧ parts[1]? = some [(table, s₂)] ∧
    parts[2]? = some [("ChildReader", r')] ∧
    numberReader.RefsBecome (.num (.int 42)) number r' ∧
    numberReader.RefsBecome (.str "Table") table r' ∧
    numberReader.DependenciesBecome (.str "Table") table r' ∧
    numberStack.nestedContext "Child" (.root ⟨"/r.yaml"⟩) ⟨"/"⟩ =
      .ok (.cloudFormationStack, ⟨"/c.yaml"⟩, numberNaming) ∧
    numberReader.RefsBecome (.str "Env") "Env" r' := by
  obtain ⟨out, hrun⟩ : ∃ out, (processResources false 1
      ⟨[(.str "Resources", .map numberEntries)]⟩ numberNaming .empty 0).result = .ok out := ⟨_, rfl⟩
  have hentries : (⟨[(.str "Resources", .map numberEntries)]⟩ : Template).get? "Resources" =
      some (.map numberEntries) := rfl
  obtain ⟨rs, parts, hrs, hout, -, h⟩ := scalar_names_one_resource hentries hrun
  obtain rfl : [("42", Resource.ofType "Custom::Table"), ("Table", .ofType "Custom::Table"),
      ("Reader", numberReader)] = rs := Except.ok.inj hrs
  obtain ⟨r', hr', hnames, hgiven⟩ := h 2 "Reader" numberReader rfl rfl
  obtain ⟨number, s₁, hs₁, hnumber, -⟩ := hnames 0 _ "42" _ rfl rfl (by simp) rfl rfl rfl
  obtain ⟨table, s₂, hs₂, htable, hdependencies⟩ :=
    hnames 1 _ "Table" _ rfl rfl (by simp) rfl rfl rfl
  have hnaming : numberStack.nestedContext "Child" (.root ⟨"/r.yaml"⟩) ⟨"/"⟩ =
      .ok (.cloudFormationStack, ⟨"/c.yaml"⟩, numberNaming) := rfl
  exact ⟨out, parts, r', number, table, s₁, s₂, hrun, hout, hs₁, hs₂, hr', hnumber, htable,
    hdependencies ⟨_, rfl⟩, hnaming,
    hgiven _ _ _ _ _ _ _ "Env" _ hnaming rfl (List.mem_singleton.mpr rfl) (by decide)⟩

/-! ### Null, and texts with points -/

/-- A resource with references to `first`, `second` and `third`. -/
def splitReader (first second third : Tree) : Resource :=
  ⟨[(.str "Type", .str "Custom::Reader"), (.str "Properties",
    .map [(.str "Empty", .tagged "!Ref" first), (.str "Point", .tagged "!Ref" second),
      (.str "Given", .tagged "!Ref" third)])]⟩

/-- A template with a table whose key is null, a table whose key has a point, and a reader of both
and of a parameter whose name has a point. -/
def splitTemplate : Template :=
  ⟨[(.str "Resources", .map [(.null, (Resource.ofType "Custom::Table").toTree),
    (.str "Log.Group", (Resource.ofType "Custom::Table").toTree),
    (.str "Reader", (splitReader .null (.str "Log.Group") (.str "Db.Name")).toTree)])]⟩

/-- A naming with a parameter named like the front of the second key, and the one with a point. -/
def splitNaming : Context :=
  .nested ⟨"/c.yaml"⟩ [(.str "Log", .str "x"), (.str "Db.Name", .str "y")] "Child"

/-- The reader after renaming. -/
def splitRenamed : Resource := splitReader (.str "Child") (.str "Log.Group") (.str "ChildDb.Name")

/-- A `Ref` right inside the properties has not become the one with some text if it comes out with
another.  Renaming reaches all these places. -/
theorem not_refsBecome_single {r r' : Resource} {k p p' : Tree} {final s tag : String} (i : Nat)
    (hp : r.properties? = some p) (href : p.RefAt [i] k) (hp' : r'.properties? = some p')
    (hat : p'.at? [i] = some (.tagged tag (.str s))) (hne : s ≠ final) :
    ¬r.RefsBecome k final r' := by
  intro h
  have hreached : ¬p.EntersExpression [i] := by
    rintro ⟨front, _, _, _, _, _, _, hpre⟩
    have hlength := hpre.length_le
    simp at hlength
  obtain ⟨q, hq, hfinal⟩ := h p [i] hp href hreached
  obtain rfl : p' = q := Option.some.inj (hp'.symm.trans hq)
  simp [hat, hne] at hfinal

/-- A `Ref` with null does not follow the resource whose key is null, a `Ref` with a point does not
follow its resource if what is in front of the point is given from outside, and one with a point
that is given from outside is not kept. -/
theorem scalar_names_fall_apart :
    (splitTemplate.process false splitNaming .empty 0).result =
      .ok [("Childnull", .ofType "Custom::Table"), ("ChildLog.Group", .ofType "Custom::Table"),
        ("ChildReader", splitRenamed)] ∧
    keyText .null = .ok "null" ∧ splitNaming.isBound "null" = false ∧
    splitNaming.isBound "Log.Group" = false ∧ splitNaming.isBound "Db.Name" = true ∧
    ¬(splitReader .null (.str "Log.Group") (.str "Db.Name")).RefsBecome .null "Childnull"
      splitRenamed ∧
    ¬(splitReader .null (.str "Log.Group") (.str "Db.Name")).RefsBecome (.str "Log.Group")
      "ChildLog.Group" splitRenamed ∧
    ¬(splitReader .null (.str "Log.Group") (.str "Db.Name")).RefsBecome (.str "Db.Name") "Db.Name"
      splitRenamed := by
  have href : Tag.ofYaml? "!Ref" = some (.intrinsic .ref) := Tag.ofYaml?_spelling (.intrinsic .ref)
  exact ⟨rfl, rfl, rfl, rfl, rfl,
    not_refsBecome_single 0 rfl ⟨_, _, rfl, href, rfl⟩ rfl rfl (by decide),
    not_refsBecome_single 1 rfl ⟨_, _, rfl, href, rfl⟩ rfl rfl (by decide),
    not_refsBecome_single 2 rfl ⟨_, _, rfl, href, rfl⟩ rfl rfl (by decide)⟩

end NestedStacks
