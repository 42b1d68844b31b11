/-
The tree of nested templates.

A successful run of `processResources` leaves behind which resources stay, and which template each
of the others stands for.  `Unfolds` says that a tree is the one of such a run; so statements about
flattening become inductions over the tree, without the bound on its depth and without the notes.

* `Nesting` — the tree below a list of resources, first child and next sibling;
* `Nesting.kept` — the resources that stay, in order, each with the naming of its own template;
* `contribution`, `processResources_eq` — processing, one resource at a time;
* `processResources_yields_iff` — processing gives the renamed kept resources of the tree;
* `Unfolds.namePrefix_kept`, `Unfolds.taggedIn_kept` — what is known of the kept resources.
-/
import NestedStacks.Template.Flatten
import NestedStacks.Proofs.Tagging.Loading
import NestedStacks.Proofs.Template.Resources

namespace NestedStacks

/-- Some resources of a template together with the templates that stand below them.  A resource that
stays has no more than its name and body; a stack has the naming of the template that it stands for,
and what is `inside`. -/
inductive Nesting where
  | done
  | keep (name : String) (resource : Resource) (rest : Nesting)
  | stack (name : String) (resource : Resource) (naming : Context) (inside rest : Nesting)

namespace Nesting

/-- The resources at the top of `nesting`, with their names. -/
def entries : Nesting → Resources
  | done => []
  | keep name r rest => (name, r) :: rest.entries
  | stack name r _ _ rest => (name, r) :: rest.entries

/-- `nesting.kept ctx`: the resources that stay, each with the naming of its template, which is
`ctx` at the top. -/
def kept (ctx : Context) : Nesting → List (Context × String × Resource)
  | done => []
  | keep name r rest => (ctx, name, r) :: rest.kept ctx
  | stack _ _ naming inside rest => inside.kept naming ++ rest.kept ctx

/-- The names of the stacks of `nesting`, at all levels. -/
def stackNames : Nesting → List String
  | done => []
  | keep _ _ rest => rest.stackNames
  | stack name _ _ inside rest => name :: inside.stackNames ++ rest.stackNames

/-- How many templates stand in one another below the resources of `nesting`. -/
def height : Nesting → Nat
  | done => 0
  | keep _ _ rest => rest.height
  | stack _ _ _ inside rest => max (inside.height + 1) rest.height

end Nesting

/-- `Unfolds w macros ctx n rs nesting n'`: the resources `rs` of a template under `ctx` unfold to
`nesting` in `w`, and loading the templates below leads from `n` to `n'` identifiers drawn. -/
inductive Unfolds (w : World) (macros : Bool) : Context → Nat → Resources → Nesting → Nat → Prop
  | done {ctx : Context} {n : Nat} : Unfolds w macros ctx n [] .done n
  | keep {ctx : Context} {n n' : Nat} {name : String} {r : Resource} {rest : Resources}
      {nesting : Nesting} (hr : r.needsFlattening = false)
      (hrest : Unfolds w macros ctx n rest nesting n') :
      Unfolds w macros ctx n ((name, r) :: rest) (.keep name r nesting) n'
  | stack {ctx naming : Context} {n n₁ n₂ n' : Nat} {name : String} {r : Resource}
      {kind : StackKind} {path : Path} {template : Template} {inner rest : Resources}
      {inside nesting : Nesting} (hr : r.needsFlattening = true)
      (hnaming : r.nestedContext name ctx w.workingDirectory = .ok (kind, path, naming))
      (hload : (Template.load macros path).Yields w n template n₁)
      (hinner : template.resources = .ok inner)
      (hinside : Unfolds w macros naming n₁ inner inside n₂)
      (hrest : Unfolds w macros ctx n₂ rest nesting n') :
      Unfolds w macros ctx n ((name, r) :: rest) (.stack name r naming inside nesting) n'

theorem Unfolds.unique {w : World} {macros : Bool} {ctx : Context} {n n₁ n₂ : Nat} {rs : Resources}
    {nesting₁ nesting₂ : Nesting} (h₁ : Unfolds w macros ctx n rs nesting₁ n₁)
    (h₂ : Unfolds w macros ctx n rs nesting₂ n₂) : nesting₁ = nesting₂ ∧ n₁ = n₂ := by
  induction h₁ generalizing nesting₂ n₂ with
  | done =>
    cases h₂
    exact ⟨rfl, rfl⟩
  | keep hr _ ih =>
    cases h₂ with
    | keep _ hrest₂ =>
      obtain ⟨rfl, rfl⟩ := ih hrest₂
      exact ⟨rfl, rfl⟩
    | stack hr₂ => simp [hr] at hr₂
  | stack hr hnaming hload hinner _ _ ihinside ihrest =>
    cases h₂ with
    | keep hr₂ => simp [hr] at hr₂
    | stack _ hnaming₂ hload₂ hinner₂ hinside₂ hrest₂ =>
      -- the two trees have one template below them, loaded in one state
      cases hnaming.symm.trans hnaming₂
      obtain ⟨rfl, rfl⟩ := hload.unique hload₂
      cases hinner.symm.trans hinner₂
      obtain ⟨rfl, rfl⟩ := ihinside hinside₂
      obtain ⟨rfl, rfl⟩ := ihrest hrest₂
      exact ⟨rfl, rfl⟩

/-! ### Processing -/

/-- `contribution macros depth ctx entry`: what the resource in `entry` comes to under `ctx`, with
up to `depth` templates below: itself under its final name, or the resources of the template that it
stands for. -/
def contribution (macros : Bool) (depth : Nat) (ctx : Context) (entry : String × Resource) :
    Run StackError Resources := do
  if entry.2.needsFlattening then
    let (kind, path, nested) ←
      Run.ofExcept (entry.2.nestedContext entry.1 ctx (← Run.workingDirectory))
    match depth with
    | 0 => Run.fail (.endlessNesting path)
    | depth + 1 =>
      Run.note .debug .flattening
        ("Inlining " ++ kind.resourceType ++ " " ++ entry.1 ++ " from " ++ path.text)
      let inner ← Template.load macros path
      processResources macros depth inner nested
  else
    return [← renameResource ctx entry.1 entry.2]

theorem Template.process_run (macros : Bool) (t : Template) (ctx : Context) (w : World) (n : Nat) :
    t.process macros ctx w n = processResources macros w.depth t ctx w n :=
  Run.depth_bind _ w n

/-- Processing `t` goes through its resources one at a time. -/
theorem processResources_eq (macros : Bool) (depth : Nat) (t : Template) (ctx : Context) :
    processResources macros depth t ctx = do
      let rs ← Run.ofExcept t.resources
      let parts ← rs.mapM (contribution macros depth ctx)
      return parts.flatten := by
  cases depth <;> rfl

variable {w : World} {macros : Bool} {ctx : Context} {depth n n' : Nat}

theorem processResources_yields {t : Template} {out : Resources} :
    (processResources macros depth t ctx).Yields w n out n' ↔
      ∃ rs parts, t.resources = .ok rs ∧ out = parts.flatten ∧
        (rs.mapM (contribution macros depth ctx)).Yields w n parts n' := by
  simp only [processResources_eq, Run.yields_bind, Run.yields_ofExcept, Run.yields_pure]
  constructor
  · rintro ⟨rs, _, ⟨hrs, rfl⟩, parts, _, hparts, rfl, rfl⟩
    exact ⟨rs, parts, hrs, rfl, hparts⟩
  · rintro ⟨rs, parts, hrs, rfl, hparts⟩
    exact ⟨rs, n, ⟨hrs, rfl⟩, parts, n', hparts, rfl, rfl⟩

/-- The resource `r`, renamed under `ctx`, stands under its final name `ctx.prefixed name`. -/
theorem renameResource_yields {name : String} {r : Resource} {entry : String × Resource} :
    (renameResource ctx name r).Yields w n entry n' ↔
      entry.1 = ctx.prefixed name ∧ r.retarget ctx = .ok entry.2 ∧ n = n' := by
  obtain ⟨name', r'⟩ := entry
  simp only [renameResource, Run.yields_bind, Run.yields_ofExcept, Except.mapError_eq_ok]
  constructor
  · rintro ⟨changed, _, ⟨hr, rfl⟩, h⟩
    split at h
    · simp only [Run.yields_bind, Run.yields_note, Run.yields_pure, Prod.mk.injEq] at h
      obtain ⟨_, _, rfl, ⟨rfl, rfl⟩, rfl⟩ := h
      exact ⟨rfl, hr, rfl⟩
    · simp only [Run.yields_pure, Prod.mk.injEq] at h
      obtain ⟨⟨rfl, rfl⟩, rfl⟩ := h
      exact ⟨rfl, hr, rfl⟩
  · rintro ⟨rfl, hr, rfl⟩
    refine ⟨r', _, ⟨hr, rfl⟩, ?_⟩
    split
    · exact Run.yields_bind.mpr ⟨(), _, Run.yields_note.mpr rfl, by simp⟩
    · simp

theorem contribution_kept {entry : String × Resource} {part : Resources}
    (hr : entry.2.needsFlattening = false) :
    (contribution macros depth ctx entry).Yields w n part n' ↔
      ∃ r', entry.2.retarget ctx = .ok r' ∧ part = [(ctx.prefixed entry.1, r')] ∧ n = n' := by
  simp only [contribution, hr, Bool.false_eq_true, if_false, Run.yields_bind, Run.yields_pure,
    renameResource_yields]
  constructor
  · rintro ⟨⟨name', r'⟩, _, ⟨rfl, hr', rfl⟩, rfl, rfl⟩
    exact ⟨r', hr', rfl, rfl⟩
  · rintro ⟨r', hr', rfl, rfl⟩
    exact ⟨_, _, ⟨rfl, hr', rfl⟩, rfl, rfl⟩

theorem contribution_stack {entry : String × Resource} {part : Resources}
    (hr : entry.2.needsFlattening = true) :
    (contribution macros depth ctx entry).Yields w n part n' ↔
      ∃ below kind path naming template m, depth = below + 1 ∧
        entry.2.nestedContext entry.1 ctx w.workingDirectory = .ok (kind, path, naming) ∧
        (Template.load macros path).Yields w n template m ∧
        (processResources macros below template naming).Yields w m part n' := by
  simp only [contribution, hr, if_true, Run.yields_bind, Run.yields_workingDirectory,
    Run.yields_ofExcept]
  constructor
  · rintro ⟨_, _, ⟨rfl, rfl⟩, ⟨kind, path, naming⟩, _, ⟨hnaming, rfl⟩, h⟩
    cases depth with
    | zero => simp at h
    | succ below =>
      simp only [Run.yields_bind, Run.yields_note] at h
      obtain ⟨_, _, rfl, template, m, hload, h⟩ := h
      exact ⟨below, kind, path, naming, template, m, rfl, hnaming, hload, h⟩
  · rintro ⟨below, kind, path, naming, template, m, rfl, hnaming, hload, h⟩
    refine ⟨_, _, ⟨rfl, rfl⟩, (kind, path, naming), _, ⟨hnaming, rfl⟩, ?_⟩
    simp only [Run.yields_bind, Run.yields_note]
    exact ⟨(), _, rfl, template, m, hload, h⟩

/-- `BecomesEntry (ctx, name, r) entry`: the resource `r`, which stays in a template under `ctx`,
becomes `entry` in the result. -/
def BecomesEntry (kept : Context × String × Resource) (entry : String × Resource) : Prop :=
  entry.1 = kept.1.prefixed kept.2.1 ∧ kept.2.2.retarget kept.1 = .ok entry.2

/-- If the tree `nesting` below `rs` is not too high, `rs` come to its kept resources, renamed to
`out`. -/
theorem Unfolds.contributions {rs out : Resources} {nesting : Nesting}
    (h : Unfolds w macros ctx n rs nesting n') (hheight : nesting.height ≤ depth)
    (hout : List.Forall₂ BecomesEntry (nesting.kept ctx) out) :
    ∃ parts, out = parts.flatten ∧
      (rs.mapM (contribution macros depth ctx)).Yields w n parts n' := by
  induction h generalizing depth out with
  | done =>
    cases hout
    exact ⟨[], rfl, by simp⟩
  | @keep _ _ _ name r _ _ hr _ ih =>
    rcases hout with _ | ⟨⟨hname, hrename⟩, hout⟩
    obtain ⟨parts, rfl, hparts⟩ := ih hheight hout
    refine ⟨[(_, _)] :: parts, rfl, ?_⟩
    simp only [List.mapM_cons, Run.yields_bind, Run.yields_pure]
    exact ⟨_, _, (contribution_kept hr).mpr ⟨_, hrename, by rw [hname], rfl⟩, parts, _, hparts, rfl,
      rfl⟩
  | @stack _ naming _ n₁ n₂ _ name r kind path template inner _ inside _ hr hnaming hload hinner _ _
      ihinside ihrest =>
    rw [Nesting.height, Nat.max_le] at hheight
    obtain ⟨below, rfl⟩ := Nat.exists_eq_add_one.mpr (Nat.lt_of_lt_of_le (by simp) hheight.1)
    obtain ⟨part, out', rfl, hpart, hout'⟩ := exists_append_of_forall₂ hout
    obtain ⟨parts', rfl, hparts'⟩ := ihinside (Nat.le_of_succ_le_succ hheight.1) hpart
    obtain ⟨parts, rfl, hparts⟩ := ihrest hheight.2 hout'
    have hprocess : (processResources macros below template naming).Yields w n₁
        parts'.flatten n₂ := processResources_yields.mpr ⟨inner, parts', hinner, rfl, hparts'⟩
    refine ⟨parts'.flatten :: parts, rfl, ?_⟩
    simp only [List.mapM_cons, Run.yields_bind, Run.yields_pure]
    exact ⟨_, n₂, (contribution_stack hr).mpr
      ⟨below, kind, path, naming, template, n₁, rfl, hnaming, hload, hprocess⟩,
      parts, _, hparts, rfl, rfl⟩

/-- Processing `t` gives the kept resources of the tree `nesting`, renamed, in their order.  It
succeeds whenever there is such a tree that is not too high and its resources can be renamed. -/
theorem processResources_yields_iff {t : Template} {out : Resources} :
    (processResources macros depth t ctx).Yields w n out n' ↔
      ∃ rs nesting, t.resources = .ok rs ∧ Unfolds w macros ctx n rs nesting n' ∧
        nesting.height ≤ depth ∧ List.Forall₂ BecomesEntry (nesting.kept ctx) out := by
  constructor
  · intro h
    induction depth using Nat.strongRecOn generalizing t ctx n n' out with
    | ind depth ih =>
      obtain ⟨rs, parts, hrs, rfl, hparts⟩ := processResources_yields.mp h
      refine ⟨rs, ?_⟩
      -- now by induction on the resources, with the number of identifiers drawn so far left open
      suffices ∃ nesting, Unfolds w macros ctx n rs nesting n' ∧ nesting.height ≤ depth ∧
          List.Forall₂ BecomesEntry (nesting.kept ctx) parts.flatten by
        obtain ⟨nesting, h⟩ := this
        exact ⟨nesting, hrs, h⟩
      clear hrs h
      induction rs generalizing n parts with
      | nil =>
        simp only [List.mapM_nil, Run.yields_pure] at hparts
        obtain ⟨rfl, rfl⟩ := hparts
        exact ⟨.done, .done, Nat.zero_le _, .nil⟩
      | cons entry rest ihrest =>
        simp only [List.mapM_cons, Run.yields_bind, Run.yields_pure] at hparts
        obtain ⟨part, m, hpart, parts', n', hparts', rfl, rfl⟩ := hparts
        obtain ⟨nesting, hnesting, hheight, hout⟩ := ihrest parts' hparts'
        obtain ⟨name, r⟩ := entry
        cases hr : r.needsFlattening with
        | false =>
          obtain ⟨r', hr', rfl, rfl⟩ := (contribution_kept hr).mp hpart
          exact ⟨.keep name r nesting, .keep hr hnesting, hheight, .cons ⟨rfl, hr'⟩ hout⟩
        | true =>
          obtain ⟨below, kind, path, naming, template, k, rfl, hnaming, hload, hinside⟩ :=
            (contribution_stack hr).mp hpart
          obtain ⟨inner, inside, hinner, hunfolds, hheight', hpart'⟩ :=
            ih below (Nat.lt_succ_self _) hinside
          refine ⟨.stack name r naming inside nesting,
            .stack hr hnaming hload hinner hunfolds hnesting,
            Nat.max_le.mpr ⟨Nat.succ_le_succ hheight', hheight⟩, ?_⟩
          exact List.rel_append hpart' hout
  · rintro ⟨rs, nesting, hrs, hunfolds, hheight, hout⟩
    obtain ⟨parts, rfl, hparts⟩ := hunfolds.contributions hheight hout
    exact processResources_yields.mpr ⟨rs, parts, hrs, rfl, hparts⟩

theorem processResources_unfolds {t : Template} {out : Resources}
    (h : (processResources macros depth t ctx).Yields w n out n') :
    ∃ rs nesting, t.resources = .ok rs ∧ Unfolds w macros ctx n rs nesting n' ∧
      List.Forall₂ BecomesEntry (nesting.kept ctx) out := by
  obtain ⟨rs, nesting, hrs, hunfolds, -, hout⟩ := processResources_yields_iff.mp h
  exact ⟨rs, nesting, hrs, hunfolds, hout⟩

/-! ### The kept resources -/

theorem Template.taggedIn_of_ofTree {allowed : Tag → Prop} {tree : Tree} {t : Template}
    (htree : tree.TaggedIn allowed) (h : Template.ofTree tree = .ok t) :
    t.toTree.TaggedIn allowed := by
  unfold Template.ofTree at h
  split at h
  · cases h
    exact htree
  · cases h
    exact .map (by simp)
  · cases h

/-- The template `t` is loaded from `path` if the document of the file is `t`. -/
theorem Template.load_yields {path : Path} {t : Template} :
    (Template.load macros path).Yields w n t n' ↔
      ∃ tree, (loadFile macros path).Yields w n tree n' ∧ Template.ofTree tree = .ok t := by
  simp only [Template.load, Run.yields_bind, Run.yields_mapError, Run.yields_ofExcept]
  constructor
  · rintro ⟨tree, _, hload, ht, rfl⟩
    exact ⟨tree, hload, ht⟩
  · rintro ⟨tree, hload, ht⟩
    exact ⟨tree, n', hload, ht, rfl⟩

/-- A template `t` from a file is in order. -/
theorem Template.normal_of_load {path : Path} {t : Template}
    (h : (Template.load macros path).Yields w n t n') : t.toTree.Normal macros := by
  obtain ⟨tree, hload, ht⟩ := Template.load_yields.mp h
  exact Template.taggedIn_of_ofTree (loadFile_normal hload.1) ht

/-- A stack `r` gives a `naming` when it has a location and parameters and it is known where the
template around it is. -/
theorem Resource.nestedContext_eq_ok {r : Resource} {name : String} {directory : Path}
    {kind : StackKind} {path : Path} {naming : Context} :
    r.nestedContext name ctx directory = .ok (kind, path, naming) ↔
      ∃ master location bindings, r.stackKind = .ok kind ∧ ctx.location = some master ∧
        r.templateLocation name = .ok location ∧ r.parameters kind name = .ok bindings ∧
        path = Path.locate directory master location ∧ naming = .nested path bindings name := by
  rw [Resource.nestedContext]
  cases hlocation : ctx.location with
  | none => cases r.stackKind <;> simp [bind, Except.bind]
  | some master =>
    simp only [Except.bind_eq_ok, Except.pure_eq_ok, Prod.mk.injEq]
    constructor
    · rintro ⟨_, hkind, _, ⟨⟩, location, hat, bindings, hgiven, rfl, rfl, rfl⟩
      exact ⟨_, location, bindings, hkind, rfl, hat, hgiven, rfl, rfl⟩
    · rintro ⟨_, location, bindings, hkind, ⟨⟩, hat, hgiven, rfl, rfl⟩
      exact ⟨_, hkind, _, rfl, location, hat, bindings, hgiven, rfl, rfl, rfl⟩

/-- Inside a template that the resource `name` stands for, `name` is put in front of names. -/
theorem Resource.namePrefix_of_nestedContext {r : Resource} {name : String} {directory : Path}
    {kind : StackKind} {path : Path} {naming : Context}
    (h : r.nestedContext name ctx directory = .ok (kind, path, naming)) :
    naming.namePrefix = name := by
  obtain ⟨_, _, _, -, -, -, -, -, rfl⟩ := Resource.nestedContext_eq_ok.mp h
  rfl

namespace Unfolds

variable {rs : Resources} {nesting : Nesting}

/-- None of the kept resources `k` stands for a template. -/
theorem needsFlattening_kept (h : Unfolds w macros ctx n rs nesting n') :
    ∀ k ∈ nesting.kept ctx, k.2.2.needsFlattening = false := by
  induction h with
  | done => simp [Nesting.kept]
  | keep hr _ ih => simpa [Nesting.kept, hr] using ih
  | stack _ _ _ _ _ _ ihinside ihrest =>
    intro k hk
    rcases List.mem_append.mp hk with hk | hk
    · exact ihinside k hk
    · exact ihrest k hk

/-- In front of the names of kept resources stands what `ctx` puts there, or the name of a stack. -/
theorem namePrefix_kept (h : Unfolds w macros ctx n rs nesting n') :
    ∀ k ∈ nesting.kept ctx,
      k.1.namePrefix = ctx.namePrefix ∨ k.1.namePrefix ∈ nesting.stackNames := by
  induction h with
  | done => simp [Nesting.kept]
  | keep _ _ ih => simpa [Nesting.kept, Nesting.stackNames] using ih
  | stack _ hnaming _ _ _ _ ihinside ihrest =>
    intro k hk
    rcases List.mem_append.mp hk with hk | hk
    · -- inside a stack its name takes the place of what is in front outside
      rw [Resource.namePrefix_of_nestedContext hnaming] at ihinside
      rcases ihinside k hk with h | h
      · exact .inr (by simp [Nesting.stackNames, h])
      · exact .inr (by simp [Nesting.stackNames, h])
    · rcases ihrest k hk with h | h
      · exact .inl h
      · exact .inr (by simp [Nesting.stackNames, h])

/-- The tags of the kept resources are `allowed` if those of `rs` at the top are; those of files are
anyway. -/
theorem taggedIn_kept {allowed : Tag → Prop}
    (hfiles : ∀ {t : Tree}, t.Normal macros → t.TaggedIn allowed)
    (h : Unfolds w macros ctx n rs nesting n') (hrs : ∀ e ∈ rs, e.2.toTree.TaggedIn allowed) :
    ∀ k ∈ nesting.kept ctx, k.2.2.toTree.TaggedIn allowed := by
  induction h with
  | done => simp [Nesting.kept]
  | keep _ _ ih =>
    intro k hk
    rcases List.mem_cons.mp hk with rfl | hk
    · exact hrs _ (by simp)
    · exact ih (fun e he => hrs e (by simp [he])) k hk
  | stack _ _ hload hinner _ _ ihinside ihrest =>
    intro k hk
    rcases List.mem_append.mp hk with hk | hk
    · exact ihinside (Template.taggedIn_resources (hfiles (Template.normal_of_load hload)) hinner)
        k hk
    · exact ihrest (fun e he => hrs e (by simp [he])) k hk

end Unfolds

end NestedStacks
