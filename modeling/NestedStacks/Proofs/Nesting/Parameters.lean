/-
The values of parameters leave no trace.

A stack passes parameters to the template that it stands for.  Renaming asks only for their names,
and the stack itself vanishes; so templates that differ in values of parameters come to the same,
and so does one template with other values bound from outside: `parameter_values_leave_no_trace`.

* `Resource.withoutValues`, `Template.withoutValues` — stacks without the values that they pass;
* `Resource.nestedContext_withoutValues` — the naming inside them binds the same names;
* `processResources_congr`, `processResources_withoutValues` — processing does not see values.
-/
import NestedStacks.Proofs.Renaming.Bindings
import NestedStacks.Proofs.Nesting.Listing

namespace NestedStacks

/-! ### Taking values away -/

namespace Entries

/-- The keys of `entries`, with null as their values. -/
def withoutValues (entries : Entries) : Entries := entries.map fun e => (e.1, .null)

/-- `update key f entries`: `entries` with `f` applied to the values under `key`. -/
def update (key : String) (f : Tree → Tree) (entries : Entries) : Entries :=
  entries.map fun e => if e.1.isStr key then (e.1, f e.2) else e

variable {key : String} {f : Tree → Tree} (entries : Entries)

theorem hasKey_withoutValues (name : String) :
    entries.withoutValues.hasKey name = entries.hasKey name := by
  simp [hasKey, withoutValues, List.any_map, Function.comp_def]

theorem get?_update_self : (entries.update key f).get? key = (entries.get? key).map f := by
  induction entries with
  | nil => rfl
  | cons entry rest ih =>
    by_cases h : entry.1.isStr key
    · simp [update, get?_cons, h]
    · simp only [update, List.map_cons, h, Bool.false_eq_true, if_false, get?_cons] at ih ⊢
      exact ih

theorem get?_update_of_ne {other : String} (hne : other ≠ key) :
    (entries.update key f).get? other = entries.get? other := by
  induction entries with
  | nil => rfl
  | cons entry rest ih =>
    have hcons : (update key f (entry :: rest)) =
        (entry.1, if entry.1.isStr key then f entry.2 else entry.2) :: update key f rest := by
      by_cases h : entry.1.isStr key <;> simp [update, h]
    rw [hcons, get?_cons, get?_cons, ih]
    -- the key whose value may have changed is not the one that is asked for
    by_cases h : entry.1.isStr key
    · have ho : entry.1.isStr other = false := by simpa [Tree.eq_of_isStr h] using hne.symm
      simp [ho]
    · simp [h]

end Entries

/-- The parameters of a stack without their values. -/
def Tree.withoutValues : Tree → Tree
  | .map entries => .map (Entries.withoutValues entries)
  | t => t

/-- The properties of a stack without the values of its parameters. -/
def Tree.withoutParameterValues : Tree → Tree
  | .map entries => .map (Entries.update "Parameters" withoutValues entries)
  | .tagged tag payload => .tagged tag payload.withoutParameterValues
  | t => t

/-- The resource `r` without the values that it passes, if it stands for a template. -/
def Resource.withoutValues (r : Resource) : Resource :=
  if r.needsFlattening then ⟨r.body.update "Properties" Tree.withoutParameterValues⟩ else r

/-- The value of one entry of `Resources`, in the same way. -/
def Tree.withoutResourceValues : Tree → Tree
  | .map body => (Resource.mk body).withoutValues.toTree
  | t => t

/-- The value of `Resources`, in the same way. -/
def Tree.withoutResourcesValues : Tree → Tree
  | .map entries => .map (entries.map fun e => (e.1, e.2.withoutResourceValues))
  | t => t

/-- The template `t` without the values that its stacks pass: nothing else is changed, and all keys
stay. -/
def Template.withoutValues (t : Template) : Template :=
  ⟨t.root.update "Resources" Tree.withoutResourcesValues⟩

/-- The naming `ctx` without the values of parameters. -/
def Context.withoutValues (ctx : Context) : Context :=
  { ctx with bindings := ctx.bindings.withoutValues }

theorem Context.sameNames_withoutValues (ctx : Context) : ctx.withoutValues.SameNames ctx where
  isBound := ctx.bindings.hasKey_withoutValues
  namePrefix := rfl

/-! ### Stacks without values -/

namespace Resource

variable {ctx : Context} (r : Resource)

theorem get?_withoutValues {key : String} (hp : key ≠ "Properties") :
    r.withoutValues.get? key = r.get? key := by
  unfold withoutValues
  split
  · exact Entries.get?_update_of_ne _ hp
  · rfl

theorem type?_withoutValues : r.withoutValues.type? = r.type? := by
  rw [type?, type?, get?_withoutValues r (by decide)]

theorem asEntries?_withoutParameterValues (t : Tree) :
    t.withoutParameterValues.asEntries? =
      t.asEntries?.map (Entries.update "Parameters" Tree.withoutValues) := by
  induction t using Tree.induct with
  | tagged tag payload ih => exact ih
  | _ => rfl

/-- Of the properties of a stack `r` only the parameters change. -/
theorem property?_withoutValues (hr : r.needsFlattening = true) (key : String) :
    r.withoutValues.property? key =
      (r.property? key).map fun t => if key = "Parameters" then t.withoutValues else t := by
  have hproperties : r.withoutValues.properties? =
      r.properties?.map Tree.withoutParameterValues := by
    rw [withoutValues, if_pos hr]
    exact Entries.get?_update_self _
  rw [property?, property?, hproperties]
  cases r.properties? with
  | none => rfl
  | some t =>
    simp only [Option.map_some, Option.bind_some, asEntries?_withoutParameterValues]
    cases t.asEntries? with
    | none => rfl
    | some entries =>
      simp only [Option.map_some, Option.bind_some]
      by_cases hkey : key = "Parameters"
      · subst hkey
        simp [Entries.get?_update_self]
      · simp [Entries.get?_update_of_ne _ hkey, hkey]

theorem location?_withoutValues (hr : r.needsFlattening = true) :
    r.withoutValues.location? = r.location? := by
  rw [location?, location?, property?_withoutValues r hr]
  simp

theorem needsFlattening_withoutValues :
    r.withoutValues.needsFlattening = r.needsFlattening := by
  cases hr : r.needsFlattening with
  | true =>
    rw [← hr]
    simp only [needsFlattening, stackKind?, type?_withoutValues, location?_withoutValues r hr]
  | false => rw [withoutValues, hr, if_neg Bool.false_ne_true, hr]

theorem parameters_withoutValues (hr : r.needsFlattening = true) (kind : StackKind)
    (name : String) :
    r.withoutValues.parameters kind name = Entries.withoutValues <$> r.parameters kind name := by
  rw [parameters, parameters, property?_withoutValues r hr]
  cases r.property? "Parameters" with
  | none => rfl
  | some t => cases t <;> rfl

/-- The naming inside the stack `r` without values is the one inside `r`, without values. -/
theorem nestedContext_withoutValues (hr : r.needsFlattening = true) (name : String)
    (directory : Path) :
    r.withoutValues.nestedContext name ctx directory =
      (fun inside => (inside.1, inside.2.1, inside.2.2.withoutValues)) <$>
        r.nestedContext name ctx directory := by
  have hkind : r.withoutValues.stackKind = r.stackKind := by
    rw [stackKind, stackKind, type?_withoutValues]
  have hlocation : r.withoutValues.templateLocation name = r.templateLocation name := by
    rw [templateLocation, templateLocation, location?_withoutValues r hr]
  cases hmaster : ctx.location with
  | none =>
    simp only [nestedContext, hkind, hmaster, map_bind]
    rfl
  | some master =>
    simp only [nestedContext, hkind, hmaster, hlocation, parameters_withoutValues r hr, map_bind,
      bind_map_left, map_pure]
    rfl

end Resource

/-! ### Templates without values -/

/-- The resources `rs` without the values that they pass. -/
def Resources.withoutValues (rs : Resources) : Resources := rs.map fun e => (e.1, e.2.withoutValues)

theorem resourceOf_withoutValues (e : Tree × Tree) :
    Template.resourceOf (e.1, e.2.withoutResourceValues) =
      (fun e => (e.1, e.2.withoutValues)) <$> Template.resourceOf e := by
  simp only [Template.resourceOf, map_bind, map_pure]
  refine congrArg _ (funext fun name => ?_)
  cases e.2 <;> rfl

/-- Without values `t` has its resources without values, or the same error. -/
theorem Template.resources_withoutValues (t : Template) :
    t.withoutValues.resources = Resources.withoutValues <$> t.resources := by
  have hget : t.withoutValues.get? "Resources" =
      (t.get? "Resources").map Tree.withoutResourcesValues := Entries.get?_update_self _
  rw [resources, resources, hget]
  cases t.get? "Resources" with
  | none => rfl
  | some value =>
    cases value with
    | map entries => exact mapM_map resourceOf_withoutValues entries
    | _ => rfl

/-! ### Processing -/

variable {macros : Bool} {ctx ctx' : Context}

/-- The resource in `e` contributes the same under `ctx` and `ctx'` if these bind the same names.
The namings of templates inside do not depend on what is bound here. -/
theorem contribution_congr (hlocation : ctx.location = ctx'.location) (h : ctx.SameNames ctx')
    (depth : Nat) (e : String × Resource) :
    contribution macros depth ctx e = contribution macros depth ctx' e := by
  have hnested : ∀ directory,
      e.2.nestedContext e.1 ctx directory = e.2.nestedContext e.1 ctx' directory :=
    fun _ => Resource.nestedContext_congr hlocation
  simp only [contribution, renameResource_congr h, hnested]

theorem processResources_congr (hlocation : ctx.location = ctx'.location) (h : ctx.SameNames ctx')
    (depth : Nat) (t : Template) :
    processResources macros depth t ctx = processResources macros depth t ctx' := by
  rw [processResources_eq, processResources_eq, funext (contribution_congr hlocation h depth)]

/-- A stack `e` contributes the same when it passes no values: it is gone afterwards, and inside of
it the same names are bound. -/
theorem contribution_withoutValues (depth : Nat) (e : String × Resource) :
    contribution macros depth ctx (e.1, e.2.withoutValues) = contribution macros depth ctx e := by
  cases hr : e.2.needsFlattening with
  | false => rw [Resource.withoutValues, hr, if_neg Bool.false_ne_true]
  | true =>
    simp only [contribution, e.2.needsFlattening_withoutValues, hr, if_true,
      e.2.nestedContext_withoutValues hr]
    refine congrArg _ (funext fun directory => ?_)
    cases e.2.nestedContext e.1 ctx directory with
    | error fault => rfl
    | ok inside =>
      have hlocation : inside.2.2.withoutValues.location = inside.2.2.location := rfl
      have hnames := inside.2.2.sameNames_withoutValues
      cases depth with
      | zero => rfl
      | succ depth =>
        simp only [Except.map_ok, Run.ofExcept_ok, pure_bind,
          processResources_congr hlocation hnames]

theorem processResources_withoutValues (depth : Nat) (t : Template) :
    processResources macros depth t.withoutValues ctx = processResources macros depth t ctx := by
  rw [processResources_eq, processResources_eq, t.resources_withoutValues]
  cases t.resources with
  | error e => rfl
  | ok rs =>
    have hparts : (Resources.withoutValues rs).mapM (contribution macros depth ctx) =
        rs.mapM (contribution macros depth ctx) := by
      rw [Resources.withoutValues, List.mapM_map]
      exact mapM_congr fun e _ => contribution_withoutValues depth e
    exact congrArg (· >>= fun parts => pure parts.flatten) hparts

/-- **The values of parameters leave no trace.**  Let `t` and `t'` be the same but for the values
that their stacks pass, and let `ctx` and `ctx'` have the same location, bind the same names and put
the same in front of names.  Then processing `t` under `ctx` and `t'` under `ctx'` is the same work:
in every world the steps are the same, and so are the error or the names and bodies of the
resources. -/
theorem parameter_values_leave_no_trace (macros : Bool) {t t' : Template}
    (ht : t.withoutValues = t'.withoutValues) (hlocation : ctx.location = ctx'.location)
    (hctx : ctx.SameNames ctx') :
    t.process macros ctx = t'.process macros ctx' := by
  funext w n
  calc t.process macros ctx w n
      = processResources macros w.depth t.withoutValues ctx w n := by
        rw [Template.process_run, processResources_withoutValues]
    _ = processResources macros w.depth t'.withoutValues ctx' w n := by
        rw [ht, processResources_congr hlocation hctx]
    _ = t'.process macros ctx' w n := by
        rw [Template.process_run, processResources_withoutValues]

/-- A stack that passes `value` as its one parameter. -/
def passingStack (value : Tree) : Resource :=
  ⟨[(.str "Type", .str "AWS::CloudFormation::Stack"),
    (.str "Properties", .map [(.str "Location", .str "c.yaml"),
      (.str "Parameters", .map [(.str "Table", value)])])]⟩

/-- The sample passes a text or a reference as its parameter, and is given one or another number
itself, with and without a key that is no name. -/
theorem parameter_values_leave_no_trace_child :
    (Template.ofResource "Child" (passingStack (.str "secret"))).withoutValues =
        (Template.ofResource "Child" (passingStack (.tagged "!Ref" (.str "Other")))).withoutValues ∧
      (Context.nested ⟨"r.yaml"⟩ [(.str "Size", .str "1")] "Top").location =
        (Context.nested ⟨"r.yaml"⟩ [(.null, .str "2"), (.str "Size", .str "3")] "Top").location ∧
      (Context.nested ⟨"r.yaml"⟩ [(.str "Size", .str "1")] "Top").SameNames
        (.nested ⟨"r.yaml"⟩ [(.null, .str "2"), (.str "Size", .str "3")] "Top") ∧
      (Template.ofResource "Child" (passingStack (.str "secret"))).process false
          (.nested ⟨"r.yaml"⟩ [(.str "Size", .str "1")] "Top") =
        (Template.ofResource "Child" (passingStack (.tagged "!Ref" (.str "Other")))).process false
          (.nested ⟨"r.yaml"⟩ [(.null, .str "2"), (.str "Size", .str "3")] "Top") := by
  have ht : (Template.ofResource "Child" (passingStack (.str "secret"))).withoutValues =
      (Template.ofResource "Child" (passingStack (.tagged "!Ref" (.str "Other")))).withoutValues :=
    rfl
  have hctx : (Context.nested ⟨"r.yaml"⟩ [(.str "Size", .str "1")] "Top").SameNames
      (.nested ⟨"r.yaml"⟩ [(.null, .str "2"), (.str "Size", .str "3")] "Top") :=
    ⟨fun name => by simp [Context.isBound, Context.nested, Entries.hasKey, Tree.isStr], rfl⟩
  exact ⟨ht, rfl, hctx, parameter_values_leave_no_trace false ht rfl hctx⟩

end NestedStacks
