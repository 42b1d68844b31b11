/-
Flattening is done after one time.

No resource of a flattened template stands for a template, and processing it as an outermost
template gives its own resources: `flatten_fixpoint`.  The resources that flattening keeps stay
kept when they are renamed, because no name of a stack has a point that could make a location out
of a reference; and without a name to put in front renaming changes nothing.

* `FileUnfolds` — the tree of nested templates that flattening goes through;
* `flatten_yields_iff`, `flatten_unfolds` — what flattening gives;
* `Template.process_settled` — templates that processing leaves as they are.
-/
import NestedStacks.Proofs.Document.Equality
import NestedStacks.Proofs.Nesting.Unfolding
import NestedStacks.Proofs.Renaming.Locations

namespace NestedStacks

variable {w : World} {macros : Bool} {path : Path} {ctx : Context} {n n' : Nat}

/-! ### The tree below a file -/

/-- `FileUnfolds w macros path n nesting`: flattening from `path` in `w`, with `n` identifiers drawn
before, goes through the tree `nesting` of templates. -/
def FileUnfolds (w : World) (macros : Bool) (path : Path) (n : Nat) (nesting : Nesting) : Prop :=
  ∃ t m rs n', (Template.load macros path).Yields w n t m ∧ t.resources = .ok rs ∧
    Unfolds w macros (.root path) m rs nesting n'

theorem FileUnfolds.unique {nesting₁ nesting₂ : Nesting} (h₁ : FileUnfolds w macros path n nesting₁)
    (h₂ : FileUnfolds w macros path n nesting₂) : nesting₁ = nesting₂ := by
  obtain ⟨t, m, rs, n₁, hload, hrs, h₁⟩ := h₁
  obtain ⟨_, _, _, n₂, hload', hrs', h₂⟩ := h₂
  obtain ⟨rfl, rfl⟩ := hload.unique hload'
  cases hrs.symm.trans hrs'
  exact (h₁.unique h₂).1

theorem Template.process_yields {t : Template} {out : Resources} :
    (t.process macros ctx).Yields w n out n' ↔
      (processResources macros w.depth t ctx).Yields w n out n' := by
  simp only [Run.Yields, Template.process_run]

theorem Template.assemble_yields {t t' : Template} {rs : Resources} :
    (t.assemble rs).Yields w n t' n' ↔ t.setResources rs = t' ∧ n = n' := by
  simp only [Template.assemble, Run.yields_bind, Run.yields_noteAll, Run.yields_pure]
  constructor
  · rintro ⟨_, _, rfl, h⟩
    exact h
  · exact fun h => ⟨(), _, rfl, h⟩

/-- The flattened template of `path` is the template `t` in the file, with the resources `out` that
it comes to. -/
theorem flatten_yields {flat : Template} :
    (flatten macros path).Yields w n flat n' ↔
      ∃ t m out, (Template.load macros path).Yields w n t m ∧
        (t.process macros (.root path)).Yields w m out n' ∧ t.setResources out = flat := by
  -- apart from loading, processing and assembling there are two notes
  simp only [flatten, Run.yields_bind, Run.yields_note, Run.yields_pure, Template.assemble_yields]
  constructor
  · rintro ⟨_, _, rfl, t, m, hload, out, _, hout, flat', _, ⟨rfl, rfl⟩, _, _, rfl, rfl, rfl⟩
    exact ⟨t, m, out, hload, hout, rfl⟩
  · rintro ⟨t, m, out, hload, hout, rfl⟩
    exact ⟨(), _, rfl, t, m, hload, out, _, hout, _, _, ⟨rfl, rfl⟩, (), _, rfl, rfl, rfl⟩

/-- Flattening from `path` gives the template `t` in the file with the kept resources of `nesting`,
renamed.  It succeeds whenever there is such a tree that is not too high and its resources can be
renamed. -/
theorem flatten_yields_iff {flat : Template} :
    (flatten macros path).Yields w n flat n' ↔
      ∃ t m rs nesting out, (Template.load macros path).Yields w n t m ∧ t.resources = .ok rs ∧
        Unfolds w macros (.root path) m rs nesting n' ∧ nesting.height ≤ w.depth ∧
        List.Forall₂ BecomesEntry (nesting.kept (.root path)) out ∧ t.setResources out = flat := by
  simp only [flatten_yields, Template.process_yields, processResources_yields_iff]
  constructor
  · rintro ⟨t, m, out, hload, ⟨rs, nesting, hrs, hunfolds, hheight, hout⟩, hflat⟩
    exact ⟨t, m, rs, nesting, out, hload, hrs, hunfolds, hheight, hout, hflat⟩
  · rintro ⟨t, m, rs, nesting, out, hload, hrs, hunfolds, hheight, hout, hflat⟩
    exact ⟨t, m, out, hload, ⟨rs, nesting, hrs, hunfolds, hheight, hout⟩, hflat⟩

/-- The resources of the flattened template of `path` are the kept resources of the tree below the
file, renamed to `out`. -/
theorem flatten_unfolds {flat : Template} (h : (flatten macros path w n).result = .ok flat) :
    ∃ (t : Template) (nesting : Nesting) (out : Resources),
      t.setResources out = flat ∧ FileUnfolds w macros path n nesting ∧
      List.Forall₂ BecomesEntry (nesting.kept (.root path)) out ∧
      ∀ k ∈ nesting.kept (.root path), k.2.2.toTree.Normal macros := by
  obtain ⟨t, m, rs, nesting, out, hload, hrs, hunfolds, -, hentries, rfl⟩ :=
    flatten_yields_iff.mp (Run.yields_of_result h)
  have hnormal := Template.normal_of_load hload
  exact ⟨t, nesting, out, rfl, ⟨t, m, rs, _, hload, hrs, hunfolds⟩, hentries,
    hunfolds.taggedIn_kept id (Template.taggedIn_resources hnormal hrs)⟩

/-! ### Templates that processing leaves as they are -/

theorem renameResource_eq {name : String} {r : Resource} (hbare : ctx.namePrefix = "")
    (hr : r.toTree.WellTagged) : renameResource ctx name r = pure (name, r) := by
  simp only [renameResource, Resource.retarget_eq hr hbare, Context.prefixed_eq hbare, ne_eq,
    not_true_eq_false, if_false]
  rfl

/-- Processing leaves `t` as it is when its resources `rs` are well tagged, none of them stands for
a template, and `ctx` puts nothing in front of names. -/
theorem processResources_settled {t : Template} {rs : Resources} (hrs : t.resources = .ok rs)
    (hin : ∀ e ∈ rs, e.2.toTree.WellTagged) (hkept : ∀ e ∈ rs, e.2.needsFlattening = false)
    (hbare : ctx.namePrefix = "") (depth : Nat) :
    processResources macros depth t ctx = pure rs := by
  -- each resource contributes itself, without a step
  have hpart : ∀ e ∈ rs, contribution macros depth ctx e = pure [e] := by
    intro e he
    simp only [contribution, hkept e he, renameResource_eq hbare (hin e he)]
    simp
  have hflatten : (rs.map fun e => [e]).flatten = rs := by simp [← List.flatMap_def]
  have hread : (Run.ofExcept t.resources : Run StackError Resources) = pure rs := by
    rw [hrs]
    rfl
  rw [processResources_eq, hread, pure_bind, mapM_eq_pure_map hpart, pure_bind, hflatten]

theorem Template.process_settled {t : Template} {rs : Resources} (hrs : t.resources = .ok rs)
    (hin : ∀ e ∈ rs, e.2.toTree.WellTagged) (hkept : ∀ e ∈ rs, e.2.needsFlattening = false)
    (hbare : ctx.namePrefix = "") : t.process macros ctx w n = ⟨[], .ok rs⟩ := by
  rw [Template.process_run, processResources_settled hrs hin hkept hbare, Run.pure_run]

theorem collisions_eq_nil {seen names : List String} (h : names.Nodup)
    (hseen : ∀ name ∈ names, name ∉ seen) : collisions seen names = [] := by
  induction names generalizing seen with
  | nil => rfl
  | cons name rest ih =>
    rw [List.nodup_cons] at h
    have hnew : seen.contains name = false := by simpa using hseen name (by simp)
    rw [collisions, hnew]
    refine ih h.2 fun other hother => ?_
    simp only [List.mem_cons, not_or]
    exact ⟨fun heq => h.1 (heq ▸ hother), hseen other (by simp [hother])⟩

/-- Assembling `t.setResources rs` from the resources that it has changes nothing, and there is
nothing to report. -/
theorem Template.assemble_merge (t : Template) (rs : Resources) :
    (t.setResources rs).assemble (mergeResources rs) w n = ⟨[], .ok (t.setResources rs)⟩ := by
  rw [Template.assemble, collisions_eq_nil (nodup_mergeResources rs) (by simp), setResources_merge]
  rfl

/-! ### Flattening twice -/

/-- **Flattening is done after one time.**  Let `flat` be the flattened template of `path`, and
`nesting` the tree that flattening goes through, in which no stack has a name with a point.  Then no
resource in the resources `rs` of `flat` stands for a template.  In every world `w'`, processing
`flat` as an outermost template at any place `l` takes no steps and gives `rs`, and assembling
`flat` from `rs` gives `flat`. -/
theorem flatten_fixpoint {flat : Template} {nesting : Nesting}
    (hflat : (flatten macros path w n).result = .ok flat)
    (hnesting : FileUnfolds w macros path n nesting)
    (hdot : ∀ name ∈ nesting.stackNames, '.' ∉ name.toList) :
    ∃ rs, flat.resources = .ok rs ∧ (∀ e ∈ rs, e.2.needsFlattening = false) ∧
      ∀ (macros' : Bool) (l : Path) (w' : World) (k : Nat),
        flat.process macros' (.root l) w' k = ⟨[], .ok rs⟩ ∧
          flat.assemble rs w' k = ⟨[], .ok flat⟩ := by
  obtain ⟨t, nesting', out, rfl, hunfolds, hentries, hnormal⟩ := flatten_unfolds hflat
  obtain rfl := hunfolds.unique hnesting
  obtain ⟨_, _, rs, _, -, -, hunfolds⟩ := hunfolds
  -- what is put in front of names is nothing or the name of a stack
  have hfront : ∀ k ∈ nesting'.kept (.root path), '.' ∉ k.1.namePrefix.toList := by
    intro k hk
    rcases hunfolds.namePrefix_kept k hk with h | h
    · simp [h, Context.root]
    · exact hdot _ h
  have hout : ∀ e ∈ out, e.2.toTree.WellTagged ∧ e.2.needsFlattening = false := by
    intro e he
    obtain ⟨k, hk, -, hrename⟩ := forall₂_exists_left hentries he
    have hin := (hnormal k hk).wellTagged
    refine ⟨Resource.taggedIn_of_retarget hin hrename, ?_⟩
    -- a stack among the renamed resources would have been one among the kept ones
    cases hneeds : e.2.needsFlattening with
    | false => rfl
    | true =>
      rw [← Resource.needsFlattening_of_retarget (hfront k hk) hin hrename hneeds,
        hunfolds.needsFlattening_kept k hk]
  -- of resources with one name only the last one is left in the template
  have hmerged : ∀ e ∈ mergeResources out, e.2.toTree.WellTagged ∧ e.2.needsFlattening = false :=
    fun e he => hout e (mem_of_mem_mergeResources he)
  have hrs := Template.resources_setResources t out
  refine ⟨mergeResources out, hrs, fun e he => (hmerged e he).2, fun macros' l w' k => ⟨?_, ?_⟩⟩
  · exact Template.process_settled hrs (fun e he => (hmerged e he).1)
      (fun e he => (hmerged e he).2) rfl
  · exact Template.assemble_merge t out

/-- The text of a template with one nested template. -/
def sampleOuterText : String :=
  "Resources:\n  Child:\n    Type: AWS::CloudFormation::Stack\n" ++
    "    Properties:\n      Location: c.yaml\n"

/-- The text of the nested template, with a reference to its own resource. -/
def sampleInnerText : String :=
  "Resources:\n  Table:\n    Type: Custom::Table\n" ++
    "    Properties:\n      Name: !Sub '${Table.Arn}-a'\n"

/-- The two templates in one directory. -/
def sampleFiles : World where
  workingDirectory := ⟨"/d"⟩
  lookup p :=
    if p.text = "/d/r.yaml" then .ok sampleOuterText
    else if p.text = "/d/c.yaml" then .ok sampleInnerText
    else .error .missing
  depth := 3
  identifier _ := ""

/-- The resource that stands for the nested template. -/
def sampleStack : Resource :=
  ⟨[(.str "Type", .str "AWS::CloudFormation::Stack"),
    (.str "Properties", .map [(.str "Location", .str "c.yaml")])]⟩

/-- The resource of the nested template, with a reference to `name` under `tag`. -/
def sampleTable (tag name : String) : Resource :=
  ⟨[(.str "Type", .str "Custom::Table"),
    (.str "Properties",
      .map [(.str "Name", .tagged tag (.str ("$\x7b" ++ name ++ ".Arn\x7d-a")))])]⟩

/-- A template with the resource `r` under `name` only. -/
def Template.ofResource (name : String) (r : Resource) : Template :=
  ⟨[(.str "Resources", .map [(.str name, r.toTree)])]⟩

theorem parse_sampleOuterText :
    Markup.parse sampleOuterText = .ok (Template.ofResource "Child" sampleStack).toTree := by
  decide +kernel

theorem parse_sampleInnerText : Markup.parse sampleInnerText =
    .ok (Template.ofResource "Table" (sampleTable "Sub" "Table")).toTree := by
  decide +kernel

theorem sampleFiles_load_outer : (Template.load false ⟨"r.yaml"⟩).Yields sampleFiles 0
    (.ofResource "Child" sampleStack) 0 :=
  Template.load_yields.mpr ⟨_, loadFile_yields.mpr
    ⟨_, _, by decide +kernel, parse_sampleOuterText, rfl, rfl⟩, rfl⟩

theorem sampleFiles_load_inner : (Template.load false ⟨"/d/c.yaml"⟩).Yields sampleFiles 0
    (.ofResource "Table" (sampleTable "!Sub" "Table")) 0 :=
  Template.load_yields.mpr ⟨_, loadFile_yields.mpr
    ⟨_, _, by decide +kernel, parse_sampleInnerText, rfl, rfl⟩, rfl⟩

/-- The tree below the outer template. -/
def sampleNesting : Nesting :=
  .stack "Child" sampleStack (.nested ⟨"/d/c.yaml"⟩ [] "Child")
    (.keep "Table" (sampleTable "!Sub" "Table") .done) .done

theorem sampleStack_unfolds :
    Unfolds sampleFiles false (.root ⟨"r.yaml"⟩) 0 [("Child", sampleStack)] sampleNesting 0 :=
  .stack rfl rfl sampleFiles_load_inner rfl (.keep rfl .done) .done

theorem sampleFiles_unfolds : FileUnfolds sampleFiles false ⟨"r.yaml"⟩ 0 sampleNesting :=
  ⟨_, 0, _, 0, sampleFiles_load_outer, rfl, sampleStack_unfolds⟩

theorem sampleFiles_flatten : (flatten false ⟨"r.yaml"⟩ sampleFiles 0).result =
    .ok (.ofResource "ChildTable" (sampleTable "!Sub" "ChildTable")) :=
  (flatten_yields_iff.mpr
    ⟨_, 0, _, _, [("ChildTable", sampleTable "!Sub" "ChildTable")], sampleFiles_load_outer, rfl,
      sampleStack_unfolds, by decide, .cons ⟨rfl, rfl⟩ .nil, rfl⟩).1

/-- The two files flatten to a template that stays as it is. -/
theorem flatten_fixpoint_child : ∃ flat rs,
    (flatten false ⟨"r.yaml"⟩ sampleFiles 0).result = .ok flat ∧ flat.resources = .ok rs ∧
      (∀ e ∈ rs, e.2.needsFlattening = false) ∧
      ∀ (macros' : Bool) (l : Path) (w' : World) (k : Nat),
        flat.process macros' (.root l) w' k = ⟨[], .ok rs⟩ ∧
          flat.assemble rs w' k = ⟨[], .ok flat⟩ := by
  obtain ⟨rs, h⟩ := flatten_fixpoint sampleFiles_flatten sampleFiles_unfolds (by decide)
  exact ⟨_, rs, sampleFiles_flatten, h⟩

end NestedStacks
