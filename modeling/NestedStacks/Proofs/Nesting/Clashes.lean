/-
Parameters and resources with one name.

Inside a nested template the names of parameters are kept, and those of resources get the name of
the stack in front.  Nothing keeps the two apart, so a parameter that is given may come to have the
name of a resource.  `parameter_meets_resource_iff` says when it does and what becomes of the
references then, and `parameter_captured` shows a stack for which it does.

* `Context.LeadsTo` — the names that come out as the name of a parameter;
* `Unfolds.exists_entry`, `Unfolds.mem_names_iff` — the entries of the result, and their names.
-/
import NestedStacks.Proofs.Nesting.Dependencies
import NestedStacks.Proofs.Renaming.References

namespace NestedStacks

variable {w : World} {macros : Bool} {ctx : Context} {n n' : Nat} {rs out : Resources}
  {nesting : Nesting}

/-! ### The entries of the result -/

/-- The tree that `rs` unfold to has `rs` at the top. -/
theorem Unfolds.entries_eq (h : Unfolds w macros ctx n rs nesting n') : nesting.entries = rs := by
  induction h with
  | done => rfl
  | keep _ _ ih => rw [Nesting.entries, ih]
  | stack _ _ _ _ _ _ _ ih => rw [Nesting.entries, ih]

/-- A resource `e` of `rs` that stays has an entry in the result, with the name
`ctx.prefixed e.1`. -/
theorem Unfolds.exists_entry (h : Unfolds w macros ctx n rs nesting n')
    (hout : List.Forall₂ BecomesEntry (nesting.kept ctx) out) {e : String × Resource} (he : e ∈ rs)
    (hkeep : e.2.needsFlattening = false) :
    ∃ r', (ctx.prefixed e.1, r') ∈ out ∧ e.2.retarget ctx = .ok r' := by
  have hkept : (ctx, e) ∈ nesting.kept ctx := by
    refine h.mem_kept_iff.mpr ⟨(ctx, nesting.entries), List.mem_cons_self, rfl, ?_, hkeep⟩
    rw [h.entries_eq]
    exact he
  obtain ⟨⟨name, r'⟩, hmem, hname, hretarget⟩ := forall₂_exists_left hout.flip hkept
  obtain rfl : name = ctx.prefixed e.1 := hname
  exact ⟨r', hmem, hretarget⟩

/-- The names in `out` are those of the resources `e` that stay, each as `level.1.prefixed e.1` with
the naming of its template. -/
theorem Unfolds.mem_names_iff (h : Unfolds w macros ctx n rs nesting n')
    (hout : List.Forall₂ BecomesEntry (nesting.kept ctx) out) {name : String} :
    name ∈ out.map (·.1) ↔
      ∃ level ∈ nesting.levels ctx, ∃ e ∈ level.2, e.2.needsFlattening = false ∧
        level.1.prefixed e.1 = name := by
  rw [names_of_becomesEntry hout, List.mem_map]
  constructor
  · rintro ⟨k, hk, rfl⟩
    obtain ⟨level, hlevel, hnaming, he, hkeep⟩ := h.mem_kept_iff.mp hk
    exact ⟨level, hlevel, k.2, he, hkeep, by rw [hnaming]⟩
  · rintro ⟨level, hlevel, e, he, hkeep, rfl⟩
    exact ⟨(level.1, e), h.mem_kept_iff.mpr ⟨level, hlevel, rfl, he, hkeep⟩, rfl⟩

/-! ### Names that come out the same -/

/-- `ctx.LeadsTo name param`: the name `name` comes out as `param`.  It is `param` itself, or it is
neither bound by `ctx` nor one of a pseudo parameter, and `ctx.prefixed name = param`. -/
def Context.LeadsTo (ctx : Context) (name param : String) : Prop :=
  name = param ∨
    ctx.isBound name = false ∧ Context.isPseudo name = false ∧ ctx.prefixed name = param

namespace Context.LeadsTo

variable {name param : String}

theorem retarget_eq (h : ctx.LeadsTo name param) (hbound : ctx.isBound param = true) :
    ctx.retarget name = param := by
  obtain rfl | ⟨hfree, hpseudo, rfl⟩ := h
  · rw [retarget, hbound, Bool.true_or, if_pos rfl]
  · exact retarget_of_free hfree hpseudo

theorem point_not_mem (h : ctx.LeadsTo name param) (hdot : '.' ∉ param.toList) :
    '.' ∉ name.toList := by
  obtain rfl | ⟨-, -, rfl⟩ := h
  · exact hdot
  · intro hmem
    refine hdot ?_
    rw [prefixed, String.toList_append]
    exact List.mem_append_right _ hmem

end Context.LeadsTo

/-- **A parameter and a resource can come to have one name.**  Let `t` be processed under `ctx`,
which binds `param`, as the naming of a stack does, and let it come to `out` by the tree `nesting`.
There is a resource `param` in `out` if and only if some template of the tree has a resource `e`
that stays with `level.1.prefixed e.1 = param`.  And in the properties `p` of a resource `e` of `t`
that stays, wherever renaming reaches, each reference to a name with `ctx.LeadsTo name param`, be it
the parameter or a resource, is a reference to `param` afterwards. -/
theorem parameter_meets_resource_iff {t : Template} {param : String}
    (hrs : t.resources = .ok rs) (hrun : (t.process macros ctx w n).result = .ok out)
    (hbound : ctx.isBound param = true) (hdot : '.' ∉ param.toList) :
    ∃ nesting n', Unfolds w macros ctx n rs nesting n' ∧
      (param ∈ out.map (·.1) ↔
        ∃ level ∈ nesting.levels ctx, ∃ e ∈ level.2, e.2.needsFlattening = false ∧
          level.1.prefixed e.1 = param) ∧
      ∀ e ∈ rs, e.2.needsFlattening = false → ∀ p, e.2.properties? = some p →
        ∃ r' p', (ctx.prefixed e.1, r') ∈ out ∧ r'.properties? = some p' ∧
          ∀ place tag payload, p.at? place = some (.tagged tag payload) →
            ¬p.EntersExpression place →
            ∃ u', p'.at? place = some u' ∧
              ∀ name, ctx.LeadsTo name param →
                FollowsName ctx name param (.tagged tag payload) u' := by
  obtain ⟨rs', nesting, hrs', hunfolds, hout⟩ :=
    processResources_unfolds (Template.process_yields.mp (Run.yields_of_result hrun))
  obtain rfl := Except.ok.inj (hrs.symm.trans hrs')
  refine ⟨nesting, _, hunfolds, hunfolds.mem_names_iff hout, fun e he hkeep p hp => ?_⟩
  obtain ⟨r', hmem, hretarget⟩ := hunfolds.exists_entry hout he hkeep
  obtain ⟨hnone, -⟩ | ⟨p₀, p', hp₀, hp', hprops⟩ := Resource.properties?_retarget hretarget
  · rw [hp] at hnone
    cases hnone
  obtain rfl := Option.some.inj (hp.symm.trans hp₀)
  refine ⟨r', p', hmem, hprops, fun place tag payload hat hreached => ?_⟩
  obtain ⟨u', hu', hrename⟩ := Tree.at?_retarget hp' hat hreached
  refine ⟨u', hu', fun name hname => ?_⟩
  rw [← hname.retarget_eq hbound]
  exact followsName_of_retarget (hname.point_not_mem hdot) hrename

/-- The texts of two templates: the outer one has a stack that passes a parameter, and in the inner
one a resource refers to the other resource and to the parameter. -/
def clashOuterText : String :=
  "Resources:\n  Child:\n    Type: AWS::CloudFormation::Stack\n" ++
    "    Properties:\n      Location: c.yaml\n" ++
    "      Parameters:\n        ChildTable: x\n"

def clashInnerText : String :=
  "Resources:\n  Table:\n    Type: Custom::Table\n" ++
    "  Reader:\n    Type: Custom::Reader\n" ++
    "    Properties:\n      Own: !Ref Table\n      Given: !Ref ChildTable\n"

/-- The two templates in one directory. -/
def clashFiles : World :=
  { sampleFiles with
    lookup := fun p =>
      if p.text = "/d/r.yaml" then .ok clashOuterText
      else if p.text = "/d/c.yaml" then .ok clashInnerText
      else .error .missing }

/-- The stack with its parameter. -/
def clashStack : Resource :=
  ⟨[(.str "Type", .str "AWS::CloudFormation::Stack"),
    (.str "Properties", .map [(.str "Location", .str "c.yaml"),
      (.str "Parameters", .map [(.str "ChildTable", .str "x")])])]⟩

/-- Two references under the tag `ref`: one to `own`, and one to the parameter. -/
def clashProperties (ref own : String) : Tree :=
  .map [(.str "Own", .tagged ref (.str own)), (.str "Given", .tagged ref (.str "ChildTable"))]

/-- The resource that refers to the other one, by the name `own`, and to the parameter. -/
def clashReader (ref own : String) : Resource :=
  ⟨[(.str "Type", .str "Custom::Reader"), (.str "Properties", clashProperties ref own)]⟩

/-- The resources of the inner template, with `front` in front of their names. -/
def clashInner (ref front : String) : Resources :=
  [(front ++ "Table", .ofType "Custom::Table"),
    (front ++ "Reader", clashReader ref (front ++ "Table"))]

/-- The naming of the inner template. -/
def clashNaming : Context := .nested ⟨"/d/c.yaml"⟩ [(.str "ChildTable", .str "x")] "Child"

def clashInside : Nesting :=
  .keep "Table" (.ofType "Custom::Table") (.keep "Reader" (clashReader "!Ref" "Table") .done)

theorem clashFiles_load :
    (Template.load false ⟨"r.yaml"⟩).Yields clashFiles 0 (.ofResource "Child" clashStack) 0 ∧
      (Template.load false ⟨"/d/c.yaml"⟩).Yields clashFiles 0
        (.ofResources (clashInner "!Ref" "")) 0 := by
  have houter : Markup.parse clashOuterText =
      .ok (Template.ofResource "Child" clashStack).toTree := by decide +kernel
  have hinner : Markup.parse clashInnerText =
      .ok (Template.ofResources (clashInner "Ref" "")).toTree := by decide +kernel
  exact ⟨Template.load_yields.mpr ⟨_, loadFile_yields.mpr
      ⟨_, _, by decide +kernel, houter, rfl, rfl⟩, rfl⟩,
    Template.load_yields.mpr ⟨_, loadFile_yields.mpr
      ⟨_, _, by decide +kernel, hinner, rfl, rfl⟩, rfl⟩⟩

theorem clashInside_unfolds :
    Unfolds clashFiles false clashNaming 0 (clashInner "!Ref" "") clashInside 0 :=
  .keep rfl (.keep rfl .done)

theorem clashInside_becomes :
    List.Forall₂ BecomesEntry (clashInside.kept clashNaming) (clashInner "!Ref" "Child") :=
  .cons ⟨rfl, rfl⟩ (.cons ⟨rfl, rfl⟩ .nil)

theorem clashFiles_flatten : (flatten false ⟨"r.yaml"⟩ clashFiles 0).result =
    .ok (.ofResources (clashInner "!Ref" "Child")) := by
  obtain ⟨houter, hinner⟩ := clashFiles_load
  have hunfolds : Unfolds clashFiles false (.root ⟨"r.yaml"⟩) 0 [("Child", clashStack)]
      (.stack "Child" clashStack clashNaming clashInside .done) 0 :=
    .stack rfl rfl hinner rfl clashInside_unfolds .done
  exact (flatten_yields_iff.mpr
    ⟨_, 0, _, _, _, houter, rfl, hunfolds, by decide, clashInside_becomes, rfl⟩).1

/-- The table comes to have the name of the parameter, and so does the reference to it. -/
theorem parameter_meets_resource_iff_child :
    clashNaming.isBound "ChildTable" = true ∧ '.' ∉ "ChildTable".toList ∧
      ∃ rs out, (Template.ofResources (clashInner "!Ref" "")).resources = .ok rs ∧
        ((Template.ofResources (clashInner "!Ref" "")).process false clashNaming clashFiles
          0).result = .ok out ∧
        "ChildTable" ∈ out.map (·.1) ∧
        ∃ r' p' u', ("ChildReader", r') ∈ out ∧ r'.properties? = some p' ∧
          p'.at? [0] = some u' ∧
          FollowsName clashNaming "Table" "ChildTable" (.tagged "!Ref" (.str "Table")) u' := by
  have hbound : clashNaming.isBound "ChildTable" = true := rfl
  have hdot : '.' ∉ "ChildTable".toList := by decide
  have hprocess : ((Template.ofResources (clashInner "!Ref" "")).process false
      clashNaming).Yields clashFiles 0 (clashInner "!Ref" "Child") 0 :=
    Template.process_yields.mpr (processResources_yields_iff.mpr
      ⟨_, _, rfl, clashInside_unfolds, by decide, clashInside_becomes⟩)
  obtain ⟨nesting, n', hunfolds, hnames, hreferences⟩ :=
    parameter_meets_resource_iff rfl hprocess.1 hbound hdot
  refine ⟨hbound, hdot, _, _, rfl, hprocess.1, hnames.mpr ?_, ?_⟩
  · refine ⟨(clashNaming, nesting.entries), List.mem_cons_self, ("Table", .ofType "Custom::Table"),
      ?_, rfl, rfl⟩
    rw [hunfolds.entries_eq]
    exact List.mem_cons_self
  · have hreader : ("Reader", clashReader "!Ref" "Table") ∈ clashInner "!Ref" "" := by
      simp [clashInner]
    have hreached : ¬(clashProperties "!Ref" "Table").EntersExpression [0] := by
      rintro ⟨front, _, _, _, -, -, -, hpre⟩
      -- the place is too short
      simpa using hpre.length_le
    obtain ⟨r', p', hmem, hp', hplaces⟩ := hreferences _ hreader rfl _ rfl
    obtain ⟨u', hu', hfollows⟩ := hplaces [0] "!Ref" (.str "Table") rfl hreached
    exact ⟨r', p', u', hmem, hp', hu', hfollows "Table" (.inr ⟨rfl, rfl, rfl⟩)⟩

/-- A reference to a parameter comes out with the name of a resource: none of the resources of the
inner template is named like a parameter, one of its resources gets the name of the parameter, and
the references to the two come out the same. -/
theorem parameter_captured :
    (flatten false ⟨"r.yaml"⟩ clashFiles 0).result =
        .ok (.ofResources (clashInner "!Ref" "Child")) ∧
      clashStack.nestedContext "Child" (.root ⟨"r.yaml"⟩) clashFiles.workingDirectory =
        .ok (.cloudFormationStack, ⟨"/d/c.yaml"⟩, clashNaming) ∧
      (Template.load false ⟨"/d/c.yaml"⟩ clashFiles 0).result =
        .ok (.ofResources (clashInner "!Ref" "")) ∧
      (∀ e ∈ clashInner "!Ref" "", clashNaming.isBound e.1 = false) ∧
      clashNaming.isBound "ChildTable" = true ∧
      "ChildTable" ∈ (clashInner "!Ref" "Child").map (·.1) ∧
      (clashProperties "!Ref" "Table").at? [0] = some (.tagged "!Ref" (.str "Table")) ∧
      (clashProperties "!Ref" "Table").at? [1] = some (.tagged "!Ref" (.str "ChildTable")) ∧
      (clashProperties "!Ref" "ChildTable").at? [0] =
        (clashProperties "!Ref" "ChildTable").at? [1] := by
  have hfree : ∀ e ∈ clashInner "!Ref" "", clashNaming.isBound e.1 = false := by decide
  exact ⟨clashFiles_flatten, rfl, clashFiles_load.2.1, hfree, rfl, by decide, rfl, rfl, rfl⟩

end NestedStacks
