/-
Flattening the same templates in two worlds.

Templates are processed alike when their resources stand for the same templates and these are loaded
alike; the bounds on nesting may be different ones.  `flattenWithin` is flattening with a bound on
nesting of its own.

* `flattenWithin`, `flatten_eq_within` — the bound on nesting apart from the one on includes;
* `templateInside`, `processResources_eq_inside` — one step into a nested template;
* `processResources_alike`, `flattenWithin_alike` — from the templates inside to the whole.
-/
import NestedStacks.Proofs.Comparing.Loading
import NestedStacks.Proofs.Editing.Retaining
import NestedStacks.Proofs.Renaming.Bindings

namespace NestedStacks

/-- `flattenWithin macros depth path`: the template at `path` without nested templates, of which up
to `depth` may stand in one another. -/
def flattenWithin (macros : Bool) (depth : Nat) (path : Path) : Run StackError Template := do
  Run.note .info .flattening ("Flattening " ++ path.text)
  let t ← Template.load macros path
  let rs ← processResources macros depth t (.root path)
  let flattened ← t.assemble rs
  Run.note .info .flattening
    ("Flattened " ++ path.text ++ " into " ++ toString rs.length ++ " resources")
  return flattened

variable {w w' : World} {E : DocumentError → DocumentError → Prop}
  {S : StackError → StackError → Prop} {macros : Bool} {path path' : Path} {ctx ctx' : Context}

/-- In `w` templates may stand in one another up to `w.depth`. -/
theorem flatten_eq_within (macros : Bool) (path : Path) (w : World) :
    flatten macros path w = flattenWithin macros w.depth path w := by
  rw [flatten, flattenWithin]
  refine Run.bind_congr_of_yields fun _ _ _ _ => ?_
  refine Run.bind_congr_of_yields fun _ t _ _ => ?_
  exact Run.bind_congr_left (funext fun n => t.process_run macros _ w n) _

/-! ### Resources -/

/-- A well tagged resource `r` is renamed alike under `ctx` and `ctx'` if these bind the same
names. -/
theorem renameResource_alike (hnames : ctx.SameNames ctx') {name : String} {r : Resource}
    (hr : r.toTree.WellTagged) :
    (renameResource ctx name r).Alike w w' S Eq (renameResource ctx' name r) := by
  rw [← renameResource_congr hnames]
  obtain ⟨r', hr', -⟩ := Resource.exists_retarget hr ctx
  have hretarget : (Run.ofExcept ((r.retarget ctx).mapError .document)).Alike w w' S Eq
      (Run.ofExcept ((r.retarget ctx).mapError .document)) := by
    refine .ofExcept (.same fun e he => ?_)
    rw [hr'] at he
    cases he
  rw [renameResource]
  refine hretarget.bind fun _ changed _ changed' _ hsame => ?_
  subst hsame
  split
  · exact .note_bind (.pure rfl)
  · exact .pure rfl

section

variable {inside inside' : StackKind → String → Path → Context → Run StackError Resources}

theorem contributionVia_alike (herrors : ErrorsAgree E S) (hnames : ctx.SameNames ctx')
    {entry : String × Resource} (hr : entry.2.toTree.WellTagged)
    (hnested : entry.2.needsFlattening = true →
      entry.2.nestedContext entry.1 ctx w.workingDirectory =
        entry.2.nestedContext entry.1 ctx' w'.workingDirectory)
    (hinside : entry.2.needsFlattening = true → ∀ kind path naming,
      entry.2.nestedContext entry.1 ctx w.workingDirectory = .ok (kind, path, naming) →
        (inside kind entry.1 path naming).Alike w w' S Eq (inside' kind entry.1 path naming)) :
    (contributionVia inside ctx entry).Alike w w' S Eq (contributionVia inside' ctx' entry) := by
  rw [contributionVia, contributionVia]
  cases hneeds : entry.2.needsFlattening with
  | true =>
    simp only [if_true]
    have hdirectory : (Run.workingDirectory : Run StackError Path).Alike w w' S
        (fun d d' => d = w.workingDirectory ∧ d' = w'.workingDirectory) Run.workingDirectory :=
      .of_results (fun _ => rfl) (fun _ => rfl) fun _ _ => .ok ⟨rfl, rfl⟩
    refine hdirectory.bind fun _ d _ d' _ hd => ?_
    obtain ⟨rfl, rfl⟩ := hd
    have hnaming : (Run.ofExcept (entry.2.nestedContext entry.1 ctx w.workingDirectory)).Alike
        w w' S Eq (Run.ofExcept (entry.2.nestedContext entry.1 ctx' w'.workingDirectory)) := by
      rw [← hnested hneeds]
      refine .ofExcept (.same fun e he => herrors.stack e ?_)
      exact (Resource.aboutTemplate_nestedContext he).path?_eq
    refine hnaming.bind fun _ nested _ nested' hyields hsame => ?_
    subst hsame
    obtain ⟨kind, path, naming⟩ := nested
    exact hinside hneeds kind path naming (Run.yields_ofExcept.mp hyields).1
  | false =>
    simp only [Bool.false_eq_true, if_false]
    refine (renameResource_alike hnames hr).bind fun _ e _ e' _ hsame => ?_
    subst hsame
    exact .pure rfl

/-- What `t` comes to under `ctx` and `ctx'` goes alike if the templates inside it do, which
`inside` and `inside'` process. -/
theorem processVia_alike (herrors : ErrorsAgree E S) (hnames : ctx.SameNames ctx') {t : Template}
    (ht : t.toTree.WellTagged)
    (hnested : ∀ rs, t.resources = .ok rs → ∀ e ∈ rs, e.2.needsFlattening = true →
      e.2.nestedContext e.1 ctx w.workingDirectory = e.2.nestedContext e.1 ctx' w'.workingDirectory)
    (hinside : ∀ rs, t.resources = .ok rs → ∀ e ∈ rs, e.2.needsFlattening = true →
      ∀ kind path naming, e.2.nestedContext e.1 ctx w.workingDirectory = .ok (kind, path, naming) →
        (inside kind e.1 path naming).Alike w w' S Eq (inside' kind e.1 path naming)) :
    (processVia inside t ctx).Alike w w' S Eq (processVia inside' t ctx') := by
  rw [processVia, processVia]
  have hresources : (Run.ofExcept t.resources).Alike w w' S Eq (Run.ofExcept t.resources) := by
    refine .ofExcept (.same fun e he => herrors.stack e ?_)
    exact (Template.aboutTemplate_resources he).path?_eq
  refine hresources.bind fun _ rs _ rs' hyields hsame => ?_
  subst hsame
  have hrs : t.resources = .ok rs := (Run.yields_ofExcept.mp hyields).1
  have hparts : (rs.mapM (contributionVia inside ctx)).Alike w w' S Eq
      (rs.mapM (contributionVia inside' ctx')) := by
    refine .mapM fun e he => ?_
    exact contributionVia_alike herrors hnames (Template.taggedIn_resources ht hrs e he)
      (hnested rs hrs e he) (hinside rs hrs e he)
  refine hparts.bind fun _ parts _ parts' _ hsame => ?_
  subst hsame
  exact .pure rfl

end

/-! ### Templates -/

/-- `templateInside macros depth kind name path naming`: the resources that the template at `path`
comes to under `naming`, for a stack `name` of the sort `kind`.  It fails for `depth = 0`; for
`depth + 1` there may be `depth` templates below this one. -/
def templateInside (macros : Bool) : Nat → StackKind → String → Path → Context →
    Run StackError Resources
  | 0, _, _, path, _ => Run.fail (.endlessNesting path)
  | depth + 1, kind, name, path, naming => do
    Run.note .debug .flattening
      ("Inlining " ++ kind.resourceType ++ " " ++ name ++ " from " ++ path.text)
    let t ← Template.load macros path
    processResources macros depth t naming

theorem processResources_eq_inside (macros : Bool) (depth : Nat) :
    processResources macros depth = processVia (templateInside macros depth) := by
  cases depth <;> rfl

/-- The template at `path` for a stack `name` goes alike for two bounds when it is loaded alike and
processed alike. -/
theorem templateInside_alike {depth depth' : Nat} {kind : StackKind} {name : String}
    {naming : Context}
    (hload : (Template.load macros path).Alike w w' S Eq (Template.load macros path))
    (hprocess : ∀ n t m, (Template.load macros path).Yields w n t m →
      (processResources macros depth t naming).Alike w w' S Eq
        (processResources macros depth' t naming)) :
    (templateInside macros (depth + 1) kind name path naming).Alike w w' S Eq
      (templateInside macros (depth' + 1) kind name path naming) := by
  rw [templateInside, templateInside]
  refine .note_bind (hload.bind fun n t m t' hyields hsame => ?_)
  subst hsame
  exact hprocess n t m hyields

/-- The templates at `path` and `path'` are flattened alike for two bounds when they are loaded
alike and processed alike. -/
theorem flattenWithin_alike {depth depth' : Nat}
    (hload : (Template.load macros path).Alike w w' S Eq (Template.load macros path'))
    (hprocess : ∀ n t m, (Template.load macros path).Yields w n t m →
      (processResources macros depth t (.root path)).Alike w w' S Eq
        (processResources macros depth' t (.root path'))) :
    (flattenWithin macros depth path).Alike w w' S Eq (flattenWithin macros depth' path') := by
  rw [flattenWithin, flattenWithin]
  refine .note_bind (hload.bind fun n t m t' hyields hsame => ?_)
  subst hsame
  refine (hprocess n t m hyields).bind fun _ rs _ rs' _ hsame => ?_
  subst hsame
  have hassemble : (t.assemble rs).Alike w w' S Eq (t.assemble rs) := .noteAll_bind (.pure rfl)
  refine hassemble.bind fun _ flat _ flat' _ hsame => ?_
  subst hsame
  exact .note_bind (.pure rfl)

end NestedStacks
