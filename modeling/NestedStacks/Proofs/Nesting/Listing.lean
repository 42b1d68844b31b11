/-
Processing lists the tree of nested templates.

A resource that stays is reached through a chain of stacks, one template inside the other.  In the
result it stands where its template was put in, under its own name behind the name of the last
stack of the chain, and renamed with what that stack says.  Nothing that stands further out has a
part in it: `process_lists_nesting`.

* `Leaf`, `Nesting.leaves` — the resources that stay, depth first, each with its chain of stacks;
* `Stack.StandsIn`, `Leads` — where the template of a stack is, and what it is given;
* `Unfolds.leads_leaves` — the chains of a tree lead from each template to the next.
-/
import NestedStacks.Proofs.Nesting.Flattening

namespace NestedStacks

/-- A stack with its name, on the way to a resource, and the naming of the template that it stands
for. -/
structure Stack where
  name : String
  resource : Resource
  naming : Context

/-- A resource that stays, with its name and the `chain` of stacks on the way to its template, from
the outside in. -/
structure Leaf where
  chain : List Stack
  name : String
  resource : Resource

namespace Leaf

/-- The resource `leaf` as it is reached through one more stack `s`. -/
def under (s : Stack) (leaf : Leaf) : Leaf := { leaf with chain := s :: leaf.chain }

/-- What is put in front of the name of `leaf`: the name of the last stack in its chain, or what
`ctx` puts there if there is no stack. -/
def front (ctx : Context) (leaf : Leaf) : String :=
  (leaf.chain.getLast?.map Stack.name).getD ctx.namePrefix

/-- The naming of the template around `leaf`, which is `ctx` if its chain has no stack. -/
def naming (ctx : Context) (leaf : Leaf) : Context :=
  (leaf.chain.getLast?.map Stack.naming).getD ctx

/-- `leaf.Becomes ctx entry`: `leaf` becomes `entry` in the result.  The name is
`leaf.front ctx ++ leaf.name`, and the body is renamed with `leaf.naming ctx`. -/
structure Becomes (ctx : Context) (leaf : Leaf) (entry : String × Resource) : Prop where
  name : entry.1 = leaf.front ctx ++ leaf.name
  body : leaf.resource.retarget (leaf.naming ctx) = .ok entry.2

end Leaf

/-- The resources of `nesting` that stay, depth first in the order of the templates. -/
def Nesting.leaves : Nesting → List Leaf
  | done => []
  | keep name r rest => ⟨[], name, r⟩ :: rest.leaves
  | stack name r naming inside rest => inside.leaves.map (.under ⟨name, r, naming⟩) ++ rest.leaves

/-- `r.Passes bindings`: the stack `r` gives its template the parameters `bindings`. -/
def Resource.Passes (r : Resource) (bindings : Entries) : Prop :=
  match r.property? "Parameters" with
  | none | some .null => bindings = []
  | some (.map entries) => bindings = entries
  | some _ => False

/-- `s.StandsIn directory location`: the stack `s` stands in the template at `location`, and its
naming is what it makes of this place: its own location seen from there, the parameters that it
passes, and its name. -/
structure Stack.StandsIn (directory : Path) (location : Option Path) (s : Stack) : Prop where
  needsFlattening : s.resource.needsFlattening = true
  /-- The template that it stands for is at its own location, seen from the template around it. -/
  inside : ∃ master text, location = some master ∧ s.resource.location? = some text ∧
    s.naming.location = some (Path.locate directory master text)
  bindings : s.resource.Passes s.naming.bindings
  namePrefix : s.naming.namePrefix = s.name

/-- `Leads directory location chain`: the first stack of `chain` stands in the template at
`location`, and each other one in the template of the one in front. -/
def Leads (directory : Path) : Option Path → List Stack → Prop
  | _, [] => True
  | location, s :: chain =>
    s.StandsIn directory location ∧ Leads directory s.naming.location chain

/-! ### Leaves -/

namespace Leaf

theorem naming_under (ctx : Context) (s : Stack) (leaf : Leaf) :
    (leaf.under s).naming ctx = leaf.naming s.naming := by
  unfold naming under
  rw [List.getLast?_cons]
  cases leaf.chain.getLast? <;> rfl

/-- On a chain that leads somewhere, what is put in front of the name of `leaf` is what
`leaf.naming ctx` says. -/
theorem namePrefix_naming {directory : Path} {location : Option Path} {leaf : Leaf}
    (h : Leads directory location leaf.chain) (ctx : Context) :
    (leaf.naming ctx).namePrefix = leaf.front ctx := by
  have hall : ∀ s ∈ leaf.chain, s.naming.namePrefix = s.name := by
    obtain ⟨chain, name, r⟩ := leaf
    induction chain generalizing location with
    | nil => simp
    | cons s chain ih =>
      intro s' hs'
      rcases List.mem_cons.mp hs' with rfl | hs'
      · exact h.1.namePrefix
      · exact ih h.2 s' hs'
  unfold naming front
  cases hlast : leaf.chain.getLast? with
  | none => rfl
  | some s => exact hall s (List.mem_of_getLast? hlast)

end Leaf

theorem Nesting.kept_eq_leaves (ctx : Context) (nesting : Nesting) :
    nesting.kept ctx =
      nesting.leaves.map fun leaf => (leaf.naming ctx, leaf.name, leaf.resource) := by
  induction nesting generalizing ctx with
  | done => rfl
  | keep name r rest ih =>
    rw [kept, leaves, List.map_cons, ih]
    rfl
  | stack name r naming inside rest ihinside ihrest =>
    rw [kept, leaves, List.map_append, List.map_map, ihinside, ihrest]
    congr 1
    exact List.map_congr_left fun leaf _ => by rw [Function.comp, Leaf.naming_under]; rfl

/-! ### Chains -/

theorem Resource.passes_of_parameters {r : Resource} {kind : StackKind} {name : String}
    {bindings : Entries} (h : r.parameters kind name = .ok bindings) : r.Passes bindings := by
  unfold Resource.parameters at h
  unfold Resource.Passes
  split at h <;> cases h <;> simp_all

theorem Resource.nestedContext_congr {r : Resource} {name : String} {directory : Path}
    {ctx ctx' : Context} (h : ctx'.location = ctx.location) :
    r.nestedContext name ctx' directory = r.nestedContext name ctx directory := by
  rw [nestedContext, nestedContext, h]

theorem Resource.standsIn_of_nestedContext {r : Resource} {name : String} {directory : Path}
    {ctx naming : Context} {kind : StackKind} {path : Path} (hr : r.needsFlattening = true)
    (h : r.nestedContext name ctx directory = .ok (kind, path, naming)) :
    Stack.StandsIn directory ctx.location ⟨name, r, naming⟩ := by
  obtain ⟨master, location, bindings, -, hmaster, hlocation, hbindings, rfl, rfl⟩ :=
    Resource.nestedContext_eq_ok.mp h
  refine ⟨hr, ⟨master, location, hmaster, ?_, rfl⟩, Resource.passes_of_parameters hbindings, rfl⟩
  -- the location of a stack is there, so that the empty one does not stand in for it
  simp only [Resource.needsFlattening, Bool.and_eq_true, Option.any_eq_true] at hr
  obtain ⟨text, htext, hending⟩ := hr.2
  simp only [Resource.templateLocation, htext, Option.getD_some, hending, if_true,
    Except.ok.injEq] at hlocation
  rw [htext, hlocation]

variable {w : World} {macros : Bool} {ctx : Context} {n n' : Nat}

namespace Unfolds

variable {rs : Resources} {nesting : Nesting}

/-- Every leaf of `nesting` is a resource that stands for no template, at the end of a chain of
stacks each of which stands in the template of the one in front. -/
theorem leads_leaves (h : Unfolds w macros ctx n rs nesting n') :
    ∀ leaf ∈ nesting.leaves, leaf.resource.needsFlattening = false ∧
      Leads w.workingDirectory ctx.location leaf.chain := by
  induction h with
  | done => simp [Nesting.leaves]
  | keep hr _ ih =>
    intro leaf hleaf
    rcases List.mem_cons.mp hleaf with rfl | hleaf
    · exact ⟨hr, trivial⟩
    · exact ih leaf hleaf
  | stack hr hnaming _ _ _ _ ihinside ihrest =>
    intro leaf hleaf
    rcases List.mem_append.mp hleaf with hleaf | hleaf
    · obtain ⟨leaf, hmem, rfl⟩ := List.mem_map.mp hleaf
      obtain ⟨hkept, hleads⟩ := ihinside leaf hmem
      exact ⟨hkept, Resource.standsIn_of_nestedContext hr hnaming, hleads⟩
    · exact ihrest leaf hleaf

/-- Of `ctx` only the location has a part in what `rs` unfold to. -/
theorem of_location_eq (h : Unfolds w macros ctx n rs nesting n') {ctx' : Context}
    (hlocation : ctx'.location = ctx.location) : Unfolds w macros ctx' n rs nesting n' := by
  induction h with
  | done => exact .done
  | keep hr _ ih => exact .keep hr (ih hlocation)
  | stack hr hnaming hload hinner hinside _ _ ihrest =>
    exact .stack hr ((Resource.nestedContext_congr hlocation).trans hnaming) hload hinner hinside
      (ihrest hlocation)

end Unfolds

/-! ### Listing -/

/-- On chains that lead somewhere, the kept resources of `nesting` become `out` as its leaves do. -/
theorem forall₂_becomes_iff {directory : Path} {nesting : Nesting} {out : Resources}
    (h : ∀ leaf ∈ nesting.leaves, Leads directory ctx.location leaf.chain) :
    List.Forall₂ BecomesEntry (nesting.kept ctx) out ↔
      List.Forall₂ (Leaf.Becomes ctx) nesting.leaves out := by
  rw [Nesting.kept_eq_leaves, List.forall₂_map_left_iff]
  constructor
  · refine fun hout => forall₂_of_mem hout fun leaf hleaf entry hentry => ⟨?_, hentry.2⟩
    rw [hentry.1, Context.prefixed, Leaf.namePrefix_naming (h leaf hleaf)]
  · refine fun hout => forall₂_of_mem hout fun leaf hleaf entry hentry => ⟨?_, hentry.body⟩
    rw [hentry.name, Context.prefixed, Leaf.namePrefix_naming (h leaf hleaf)]

/-- **Processing lists the tree of nested templates.**  Processing `t` under `ctx` in `w` yields
`out` if and only if the resources `rs` of `t` unfold to a tree `nesting` with
`nesting.height ≤ w.depth` and `out` lists its leaves: they go together with `nesting.leaves` one by
one, depth first and with each template in the place of its stack, and `leaf.Becomes ctx entry`.  So
the name of an entry is `leaf.front ctx ++ leaf.name`, where `leaf.front ctx` is the name of the
last stack in `leaf.chain`, and its body is renamed with the naming of the template around the leaf:
where that is, which parameters its stack passes, and the name of its stack, as `Leads` says for the
whole chain.  Of `ctx` only the location has a part in `nesting`. -/
theorem process_lists_nesting (w : World) (macros : Bool) (t : Template) (ctx : Context)
    (n n' : Nat) (out : Resources) :
    (t.process macros ctx).Yields w n out n' ↔
      ∃ rs nesting, t.resources = .ok rs ∧ Unfolds w macros ctx n rs nesting n' ∧
        nesting.height ≤ w.depth ∧ List.Forall₂ (Leaf.Becomes ctx) nesting.leaves out ∧
        (∀ leaf ∈ nesting.leaves, leaf.resource.needsFlattening = false ∧
          Leads w.workingDirectory ctx.location leaf.chain) ∧
        ∀ ctx' : Context, ctx'.location = ctx.location →
          Unfolds w macros ctx' n rs nesting n' := by
  rw [Template.process_yields, processResources_yields_iff]
  refine exists_congr fun rs => exists_congr fun nesting => and_congr_right fun _ => ?_
  constructor
  · rintro ⟨hunfolds, hheight, hout⟩
    have hleaves := hunfolds.leads_leaves
    exact ⟨hunfolds, hheight, (forall₂_becomes_iff fun leaf h => (hleaves leaf h).2).mp hout,
      hleaves, fun _ => hunfolds.of_location_eq⟩
  · rintro ⟨hunfolds, hheight, hout, hleaves, -⟩
    exact ⟨hunfolds, hheight, (forall₂_becomes_iff fun leaf h => (hleaves leaf h).2).mpr hout⟩

/-- Of two stacks on the way only the inner one gives its name. -/
example (outer inner r : Resource) (ctx ctx₁ ctx₂ : Context) :
    (Leaf.mk [⟨"A", outer, ctx₁⟩, ⟨"B", inner, ctx₂⟩] "X" r).front ctx = "B" := rfl

end NestedStacks
