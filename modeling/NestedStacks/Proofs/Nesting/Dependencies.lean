/-
What resources depend on after flattening.

The names in `DependsOn` get the same prefix as the resources of their template, so they go on
naming resources of the flattened template: `dependencies_of_flatten`.  A stack that a resource
depends on is not among those resources, because other ones take its place, and its name is left
over: `stack_dependency_left_over`.

* `Resource.dependencies`, `DependenciesClosed` — the names in `DependsOn`, and whether all of them
  are names of resources;
* `Nesting.levels` — the templates of a tree, each with its naming and its resources;
* `Unfolds.mem_kept_iff` — the kept resources are those of the templates that are no stacks.
-/
import NestedStacks.Proofs.Nesting.Flattening

namespace NestedStacks

/-! ### Dependencies -/

namespace Tree

mutual
/-- The names in the value of a `DependsOn`: the text itself, or the texts in lists, at any
depth. -/
def dependencyNames : Tree → List String
  | .str name => [name]
  | .seq items => dependencyNamesOfItems items
  | _ => []

/-- The `dependencyNames` of all items, in order. -/
def dependencyNamesOfItems : List Tree → List String
  | [] => []
  | t :: rest => dependencyNames t ++ dependencyNamesOfItems rest
end

theorem dependencyNames_seq (items : List Tree) :
    (Tree.seq items).dependencyNames = items.flatMap dependencyNames := by
  rw [dependencyNames]
  induction items with
  | nil => rfl
  | cons t rest ih => rw [dependencyNamesOfItems, ih, List.flatMap_cons]

/-- The prefix of `ctx` is put in front of exactly the `dependencyNames` of `t`. -/
theorem dependencyNames_prefixDependency (ctx : Context) (t : Tree) :
    (t.prefixDependency ctx).dependencyNames = t.dependencyNames.map ctx.prefixed := by
  induction t using Tree.induct with
  | null | bool | num | str | map | tagged => rfl
  | seq items ih =>
    rw [prefixDependency, prefixDependencies_eq_map, dependencyNames_seq, dependencyNames_seq,
      List.flatMap_map, List.map_flatMap]
    exact List.flatMap_congr ih

end Tree

namespace Resource

/-- The names that `r` depends on. -/
def dependencies (r : Resource) : List String :=
  ((r.get? "DependsOn").map Tree.dependencyNames).getD []

variable {ctx : Context} {r r' : Resource}

theorem get?_dependsOn_retarget (h : r.retarget ctx = .ok r') :
    r'.get? "DependsOn" = (r.get? "DependsOn").map (Tree.prefixDependency ctx) := by
  obtain ⟨changed, rfl, hchanged⟩ := retarget_eq_ok.mp h
  have hsame : changed.get? "DependsOn" = r.get? "DependsOn" := by
    rcases hchanged with ⟨-, rfl⟩ | ⟨_, _, -, -, rfl⟩
    · rfl
    · exact get?_set_of_ne _ _ (by decide)
  unfold prefixDependsOn
  cases hd : r.get? "DependsOn" with
  | none => exact hsame.trans hd
  | some t => exact get?_set_self _ _ _

theorem dependencies_retarget (h : r.retarget ctx = .ok r') :
    r'.dependencies = r.dependencies.map ctx.prefixed := by
  rw [dependencies, dependencies, get?_dependsOn_retarget h]
  cases r.get? "DependsOn" with
  | none => rfl
  | some t => exact Tree.dependencyNames_prefixDependency ctx t

end Resource

/-- `DependenciesClosed rs`: each name `d` that one of the resources `rs` depends on is the name of
one of `rs`. -/
def DependenciesClosed (rs : Resources) : Prop :=
  ∀ e ∈ rs, ∀ d ∈ e.2.dependencies, d ∈ rs.map (·.1)

instance (rs : Resources) : Decidable (DependenciesClosed rs) :=
  inferInstanceAs (Decidable (∀ e ∈ rs, ∀ d ∈ e.2.dependencies, d ∈ rs.map (·.1)))

/-! ### The templates of a tree -/

namespace Nesting

/-- The templates inside the stacks of `nesting`, each with its naming and its resources. -/
def templatesInside : Nesting → List (Context × Resources)
  | done => []
  | keep _ _ rest => rest.templatesInside
  | stack _ _ naming inside rest =>
    (naming, inside.entries) :: inside.templatesInside ++ rest.templatesInside

/-- All templates of `nesting`, the outermost one with the naming `ctx` included, each with its
naming and its resources. -/
def levels (ctx : Context) (nesting : Nesting) : List (Context × Resources) :=
  (ctx, nesting.entries) :: nesting.templatesInside

/-- `nesting.LeavesStackName ctx entry d`: the name `d` that `entry` depends on is left over from a
stack.  In some template `level` of the tree, `entry` comes from a resource `e` that depends on a
stack `s` of that template, and `d = level.1.prefixed s.1`. -/
def LeavesStackName (ctx : Context) (nesting : Nesting) (entry : String × Resource) (d : String) :
    Prop :=
  ∃ level ∈ nesting.levels ctx, ∃ e ∈ level.2, BecomesEntry (level.1, e) entry ∧
    ∃ s ∈ level.2, s.2.needsFlattening = true ∧ s.1 ∈ e.2.dependencies ∧ d = level.1.prefixed s.1

end Nesting

variable {w : World} {macros : Bool} {path : Path} {ctx : Context} {n n' : Nat} {rs : Resources}
  {nesting : Nesting}

/-- The kept resources of `nesting` are those in all templates of the tree that stand for no
template themselves. -/
theorem Unfolds.mem_kept_iff (h : Unfolds w macros ctx n rs nesting n')
    {k : Context × String × Resource} :
    k ∈ nesting.kept ctx ↔
      ∃ level ∈ nesting.levels ctx, level.1 = k.1 ∧ k.2 ∈ level.2 ∧
        k.2.2.needsFlattening = false := by
  obtain ⟨naming, e⟩ := k
  induction h with
  | done => simp [Nesting.kept, Nesting.levels, Nesting.entries, Nesting.templatesInside]
  | @keep _ _ _ name r _ _ hr _ ih =>
    simp only [Nesting.kept, Nesting.levels, Nesting.entries, Nesting.templatesInside,
      List.mem_cons, exists_eq_or_imp, Prod.mk.injEq] at ih ⊢
    rw [ih]
    constructor
    · rintro (⟨rfl, rfl⟩ | ⟨rfl, hmem, he⟩ | hbelow)
      · exact .inl ⟨rfl, .inl rfl, hr⟩
      · exact .inl ⟨rfl, .inr hmem, he⟩
      · exact .inr hbelow
    · rintro (⟨rfl, rfl | hmem, he⟩ | hbelow)
      · exact .inl ⟨rfl, rfl⟩
      · exact .inr (.inl ⟨rfl, hmem, he⟩)
      · exact .inr (.inr hbelow)
  | @stack _ _ _ _ _ _ name r _ _ _ _ _ _ _ hr _ _ _ _ _ ihinside ihrest =>
    simp only [Nesting.kept, Nesting.levels, Nesting.entries, Nesting.templatesInside,
      List.mem_cons, List.cons_append, List.mem_append, exists_eq_or_imp] at ihinside ihrest ⊢
    rw [ihinside, ihrest]
    constructor
    · rintro ((hinside | ⟨level, hlevel, h⟩) | ⟨rfl, hmem, he⟩ | ⟨level, hlevel, h⟩)
      · exact .inr (.inl hinside)
      · exact .inr (.inr ⟨level, .inl hlevel, h⟩)
      · exact .inl ⟨rfl, .inr hmem, he⟩
      · exact .inr (.inr ⟨level, .inr hlevel, h⟩)
    · rintro (⟨rfl, rfl | hmem, he⟩ | hinside | ⟨level, hlevel | hlevel, h⟩)
      · -- the stack itself is not kept
        simp [hr] at he
      · exact .inr (.inl ⟨rfl, hmem, he⟩)
      · exact .inl (.inl hinside)
      · exact .inl (.inr ⟨level, hlevel, h⟩)
      · exact .inr (.inr ⟨level, hlevel, h⟩)

theorem names_of_becomesEntry {kept : List (Context × String × Resource)} {out : Resources}
    (h : List.Forall₂ BecomesEntry kept out) :
    out.map (·.1) = kept.map fun k => k.1.prefixed k.2.1 := by
  induction h with
  | nil => rfl
  | cons hk _ ih => rw [List.map_cons, List.map_cons, hk.1, ih]

/-! ### Flattening -/

/-- **Flattening keeps names of dependencies and resources together.**  Let `flat` be the flattened
template of `path`, and `nesting` the tree that flattening goes through.  When in each template of
it the dependencies are on resources of that template, each name `d` that a resource of `flat`
depends on is the name of a resource of `flat`, unless
`nesting.LeavesStackName (.root path) entry d`: stacks are replaced, and what depends on them gets
their name with the prefix in front, as with any other resource. -/
theorem dependencies_of_flatten {flat : Template}
    (hflat : (flatten macros path w n).result = .ok flat)
    (hnesting : FileUnfolds w macros path n nesting)
    (hclosed : ∀ level ∈ nesting.levels (.root path), DependenciesClosed level.2) :
    ∃ rs, flat.resources = .ok rs ∧ ∀ entry ∈ rs, ∀ d ∈ entry.2.dependencies,
      d ∈ rs.map (·.1) ∨ nesting.LeavesStackName (.root path) entry d := by
  obtain ⟨t, nesting', out, rfl, hunfolds, hentries, -⟩ := flatten_unfolds hflat
  obtain rfl := hunfolds.unique hnesting
  obtain ⟨_, _, _, _, -, -, hunfolds⟩ := hunfolds
  refine ⟨mergeResources out, Template.resources_setResources t out, fun entry hentry d hd => ?_⟩
  -- the resource that the entry was, and the resource that it depends on in its template
  obtain ⟨⟨naming, e⟩, hk, hbecomes⟩ :=
    forall₂_exists_left hentries (mem_of_mem_mergeResources hentry)
  obtain ⟨level, hlevel, rfl, he, -⟩ := hunfolds.mem_kept_iff.mp hk
  rw [Resource.dependencies_retarget hbecomes.2] at hd
  obtain ⟨d₀, hd₀, rfl⟩ := List.mem_map.mp hd
  obtain ⟨s, hs, rfl⟩ := List.mem_map.mp (hclosed level hlevel e he d₀ hd₀)
  -- only a resource that is no stack is among those of the result
  cases hneeds : s.2.needsFlattening with
  | true => exact .inr ⟨level, hlevel, e, he, hbecomes, s, hs, hneeds, hd₀, rfl⟩
  | false =>
    have hkept : (level.1, s) ∈ nesting'.kept (.root path) :=
      hunfolds.mem_kept_iff.mpr ⟨level, hlevel, rfl, hs, hneeds⟩
    refine .inl (mem_names_mergeResources.mpr ?_)
    rw [names_of_becomesEntry hentries]
    exact List.mem_map.mpr ⟨_, hkept, rfl⟩

/-- The texts of two templates: in the outer one a resource depends on a stack, and in the inner one
a resource depends on the other. -/
def dependencyOuterText : String :=
  "Resources:\n  Child:\n    Type: AWS::CloudFormation::Stack\n" ++
    "    Properties:\n      Location: c.yaml\n" ++
    "  Alarm:\n    Type: Custom::Alarm\n    DependsOn: Child\n"

def dependencyInnerText : String :=
  "Resources:\n  Table:\n    Type: Custom::Table\n" ++
    "  Reader:\n    Type: Custom::Reader\n    DependsOn: [Table]\n"

/-- The two templates in one directory. -/
def dependencyFiles : World :=
  { sampleFiles with
    lookup := fun p =>
      if p.text = "/d/r.yaml" then .ok dependencyOuterText
      else if p.text = "/d/c.yaml" then .ok dependencyInnerText
      else .error .missing }

/-- A resource of the type `type` that depends on what `dependsOn` says. -/
def dependentResource (type : String) (dependsOn : Tree) : Resource :=
  ⟨[(.str "Type", .str type), (.str "DependsOn", dependsOn)]⟩

/-- The resources of the two templates, the inner ones with something in front of their names, and
what the templates flatten to. -/
def dependencyOuter : Resources :=
  [("Child", sampleStack), ("Alarm", dependentResource "Custom::Alarm" (.str "Child"))]

def dependencyInner (front : String) : Resources :=
  [(front ++ "Table", .ofType "Custom::Table"),
    (front ++ "Reader", dependentResource "Custom::Reader" (.seq [.str (front ++ "Table")]))]

def dependencyFlat : Resources :=
  dependencyInner "Child" ++ [("Alarm", dependentResource "Custom::Alarm" (.str "Child"))]

/-- A template with nothing but the resources `rs`. -/
def Template.ofResources (rs : Resources) : Template :=
  ⟨[(.str "Resources", .map (rs.map resourceEntry))]⟩

def dependencyNesting : Nesting :=
  .stack "Child" sampleStack (.nested ⟨"/d/c.yaml"⟩ [] "Child")
    (.keep "Table" (.ofType "Custom::Table")
      (.keep "Reader" (dependentResource "Custom::Reader" (.seq [.str "Table"])) .done))
    (.keep "Alarm" (dependentResource "Custom::Alarm" (.str "Child")) .done)

theorem dependencyFiles_unfolds :
    (Template.load false ⟨"r.yaml"⟩).Yields dependencyFiles 0 (.ofResources dependencyOuter) 0 ∧
      Unfolds dependencyFiles false (.root ⟨"r.yaml"⟩) 0 dependencyOuter dependencyNesting 0 := by
  have houter : Markup.parse dependencyOuterText =
      .ok (Template.ofResources dependencyOuter).toTree := by decide +kernel
  have hinner : Markup.parse dependencyInnerText =
      .ok (Template.ofResources (dependencyInner "")).toTree := by decide +kernel
  have hload : (Template.load false ⟨"/d/c.yaml"⟩).Yields dependencyFiles 0
      (.ofResources (dependencyInner "")) 0 :=
    Template.load_yields.mpr ⟨_, loadFile_yields.mpr
      ⟨_, _, by decide +kernel, hinner, rfl, rfl⟩, rfl⟩
  refine ⟨Template.load_yields.mpr ⟨_, loadFile_yields.mpr
    ⟨_, _, by decide +kernel, houter, rfl, rfl⟩, rfl⟩, ?_⟩
  exact .stack rfl rfl hload rfl (.keep rfl (.keep rfl .done)) (.keep rfl .done)

theorem dependencyFiles_flatten : (flatten false ⟨"r.yaml"⟩ dependencyFiles 0).result =
    .ok (.ofResources dependencyFlat) := by
  obtain ⟨hload, hunfolds⟩ := dependencyFiles_unfolds
  have hout : List.Forall₂ BecomesEntry (dependencyNesting.kept (.root ⟨"r.yaml"⟩))
      dependencyFlat := .cons ⟨rfl, rfl⟩ (.cons ⟨rfl, rfl⟩ (.cons ⟨rfl, rfl⟩ .nil))
  exact (flatten_yields_iff.mpr
    ⟨_, 0, _, _, _, hload, rfl, hunfolds, by decide, hout, rfl⟩).1

/-- The dependency inside the nested template follows its resource, and the one on the stack is left
over. -/
theorem dependencies_of_flatten_child : ∃ flat rs,
    (flatten false ⟨"r.yaml"⟩ dependencyFiles 0).result = .ok flat ∧
      FileUnfolds dependencyFiles false ⟨"r.yaml"⟩ 0 dependencyNesting ∧
      (∀ level ∈ dependencyNesting.levels (.root ⟨"r.yaml"⟩), DependenciesClosed level.2) ∧
      flat.resources = .ok rs ∧ ∀ entry ∈ rs, ∀ d ∈ entry.2.dependencies,
        d ∈ rs.map (·.1) ∨ dependencyNesting.LeavesStackName (.root ⟨"r.yaml"⟩) entry d := by
  obtain ⟨hload, hunfolds⟩ := dependencyFiles_unfolds
  have hfile : FileUnfolds dependencyFiles false ⟨"r.yaml"⟩ 0 dependencyNesting :=
    ⟨_, _, _, _, hload, rfl, hunfolds⟩
  have hclosed : ∀ level ∈ dependencyNesting.levels (.root ⟨"r.yaml"⟩),
      DependenciesClosed level.2 := by decide
  obtain ⟨rs, hrs, h⟩ := dependencies_of_flatten dependencyFiles_flatten hfile hclosed
  exact ⟨_, rs, dependencyFiles_flatten, hfile, hclosed, hrs, h⟩

/-- A dependency on a stack is left over: in both templates all dependencies are on resources of the
template, and in the flattened one a resource depends on a name that no resource has. -/
theorem stack_dependency_left_over : ∃ nesting flat rs,
    (flatten false ⟨"r.yaml"⟩ dependencyFiles 0).result = .ok flat ∧
      FileUnfolds dependencyFiles false ⟨"r.yaml"⟩ 0 nesting ∧
      (∀ level ∈ nesting.levels (.root ⟨"r.yaml"⟩), DependenciesClosed level.2) ∧
      flat.resources = .ok rs ∧ ¬DependenciesClosed rs := by
  obtain ⟨hload, hunfolds⟩ := dependencyFiles_unfolds
  exact ⟨dependencyNesting, _, dependencyFlat, dependencyFiles_flatten,
    ⟨_, _, _, _, hload, rfl, hunfolds⟩, by decide, rfl, by decide⟩

end NestedStacks
