/-
Working on a template, one action after another.

An action gives a template other resources: what they come to when the template is processed, or
the same ones with a retention policy.  Templates in order stay so, whatever is done to them.

* `Action`, `Action.run`, `Reaches` — actions, and finite sequences of them;
* `Action.taggedIn_run`, `Reaches.wellTagged` — templates stay in order.
-/
import NestedStacks.Template.Retention
import NestedStacks.Proofs.Nesting.Flattening

namespace NestedStacks

/-- Something that is done to a template. -/
inductive Action where
  /-- Its resources are replaced by what they come to. -/
  | process (macros : Bool) (naming : Context)
  /-- Its resources get a retention policy. -/
  | mark (marker : Marker)

/-- `a.run t` is the template that the action `a` makes of `t`. -/
def Action.run (t : Template) : Action → Run StackError Template
  | .process macros naming => do t.assemble (← t.process macros naming)
  | .mark marker => marker.run t

/-- `Reaches t t'`: `t'` comes from `t` by finitely many actions.  Each has its own world, so that
files may change between two of them. -/
inductive Reaches (t : Template) : Template → Prop
  | refl : Reaches t t
  | step {t₁ t₂ : Template} (a : Action) {w : World} {n : Nat} (h : Reaches t t₁)
      (hrun : (a.run t₁ w n).result = .ok t₂) : Reaches t t₂

variable {w : World} {macros : Bool} {ctx : Context} {n n' : Nat} {allowed : Tag → Prop}
  {t t' : Template} {rs : Resources}

/-! ### Templates stay in order -/

/-- If the tags of `t` and of loaded documents are `allowed`, so are those of the resources that `t`
comes to. -/
theorem Template.taggedIn_process
    (hfiles : ∀ {tree : Tree}, tree.Normal macros → tree.TaggedIn allowed)
    (ht : t.toTree.TaggedIn allowed) (h : (t.process macros ctx).Yields w n rs n') :
    ∀ e ∈ rs, e.2.toTree.TaggedIn allowed := by
  obtain ⟨rs₀, nesting, hrs₀, hunfolds, hentries⟩ :=
    processResources_unfolds (Template.process_yields.mp h)
  intro e he
  obtain ⟨k, hk, -, hrename⟩ := forall₂_exists_left hentries he
  exact Resource.taggedIn_of_retarget
    (hunfolds.taggedIn_kept hfiles (Template.taggedIn_resources ht hrs₀) k hk) hrename

/-- If the tags of `rs` are `allowed`, so are those of the marked resources. -/
theorem Marker.taggedIn_markAll (m : Marker) (hrs : ∀ e ∈ rs, e.2.toTree.TaggedIn allowed) :
    ∀ e ∈ m.markAll rs, e.2.toTree.TaggedIn allowed := by
  intro e he
  obtain ⟨⟨name, r⟩, hr, rfl⟩ := List.mem_map.mp he
  show (m.markResource r).toTree.TaggedIn allowed
  unfold Marker.markResource
  split
  · exact (hrs _ hr).set _ (.str _)
  · exact hrs _ hr

theorem Marker.run_yields {m : Marker} :
    (m.run t).Yields w n t' n' ↔
      ∃ rs, t.resources = .ok rs ∧ t.setResources (m.markAll rs) = t' ∧ n = n' := by
  simp only [Marker.run, Run.yields_bind, Run.yields_ofExcept, Run.yields_noteAll, Run.yields_note,
    Template.assemble_yields, Run.yields_pure]
  constructor
  · rintro ⟨rs, _, ⟨hrs, rfl⟩, _, _, rfl, _, _, ⟨rfl, rfl⟩, _, _, rfl, rfl, rfl⟩
    exact ⟨rs, hrs, rfl, rfl⟩
  · rintro ⟨rs, hrs, rfl, rfl⟩
    exact ⟨rs, _, ⟨hrs, rfl⟩, (), _, rfl, _, _, ⟨rfl, rfl⟩, (), _, rfl, rfl, rfl⟩

/-- If the tags of `t`, and of the documents that `a` loads, are `allowed`, so are those of what `a`
makes of `t`. -/
theorem Action.taggedIn_run {a : Action}
    (hfiles : ∀ macros naming, a = .process macros naming →
      ∀ {tree : Tree}, tree.Normal macros → tree.TaggedIn allowed)
    (ht : t.toTree.TaggedIn allowed) (h : (a.run t w n).result = .ok t') :
    t'.toTree.TaggedIn allowed := by
  have h := Run.yields_of_result h
  cases a with
  | process macros naming =>
    simp only [Action.run, Run.yields_bind, Template.assemble_yields] at h
    obtain ⟨rs, _, hrs, rfl, -⟩ := h
    exact Template.taggedIn_setResources ht (Template.taggedIn_process (hfiles _ _ rfl) ht hrs)
  | mark marker =>
    obtain ⟨rs, hrs, rfl, -⟩ := Marker.run_yields.mp h
    exact Template.taggedIn_setResources ht
      (marker.taggedIn_markAll (Template.taggedIn_resources ht hrs))

/-- Finitely many actions lead from a well tagged `t` to a well tagged `t'`. -/
theorem Reaches.wellTagged (h : Reaches t t') (ht : t.toTree.WellTagged) :
    t'.toTree.WellTagged := by
  induction h with
  | refl => exact ht
  | step a _ hrun ih => exact a.taggedIn_run (fun _ _ _ _ => Tree.Normal.wellTagged) ih hrun

end NestedStacks
