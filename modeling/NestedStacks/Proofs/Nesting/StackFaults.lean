/-
What can go wrong with stacks.

Whether a resource stands for a template is found out first, and what it takes to put that template
in is looked at again afterwards.  The second look never disagrees with the first one about the type
or the location.  So what can be missing is the place of the template around the resource, or a
mapping as its parameters: `stack_faults_exact`.

* `Resource.StackFault`, `Resource.nestedContext_eq_error` — what a stack can lack;
* `Meets` — the stacks that processing comes to, at all levels;
* `processResources_eq_error_iff` — processing fails with what the stack lacks that it comes to;
* `opened_processResources_kept` — without stacks no file is opened.
-/
import NestedStacks.Proofs.Nesting.Macros

namespace NestedStacks

/-- `e.AboutStack`: `e` is about a resource that is taken for a stack. -/
inductive StackError.AboutStack : StackError → Prop
  | config (fault : ConfigFault) : AboutStack (.config fault)
  | unsupportedResource (type : String) : AboutStack (.unsupportedResource type)

/-! ### One stack -/

namespace Resource

/-- `r.StackFault name location fault`: what the stack `r` lacks, with its `name`, in a template at
`location`.  The location is not known, or the parameters are there and are neither null nor a
mapping. -/
inductive StackFault (r : Resource) (name : String) (location : Option Path) : ConfigFault → Prop
  | location {kind : StackKind} (hkind : r.stackKind? = some kind) (hlocation : location = none) :
      StackFault r name location (.locationRequired kind name)
  | parameters {kind : StackKind} {master : Path} {given : Tree} (hkind : r.stackKind? = some kind)
      (hlocation : location = some master) (hgiven : r.property? "Parameters" = some given)
      (hnull : given ≠ .null) (hmap : ∀ entries, given ≠ .map entries) :
      StackFault r name location (.parametersNotMapping kind name)

variable {r : Resource} {name : String} {ctx : Context} {directory : Path}

/-- A resource `r` that stands for a template has the type of a stack, and a `location` with the
ending of a template. -/
theorem exists_of_needsFlattening (hr : r.needsFlattening = true) (name : String) :
    ∃ kind location, r.stackKind? = some kind ∧ r.stackKind = .ok kind ∧
      r.templateLocation name = .ok location := by
  simp only [needsFlattening, Bool.and_eq_true, Option.isSome_iff_exists,
    Option.any_eq_true] at hr
  obtain ⟨⟨kind, hkind⟩, location, hlocation, hending⟩ := hr
  obtain ⟨type, htype, hof⟩ := Option.bind_eq_some_iff.mp hkind
  refine ⟨kind, location, hkind, ?_, ?_⟩
  · simp only [stackKind, htype, Option.getD_some, hof]
  · simp only [templateLocation, hlocation, Option.getD_some, hending, if_true]

theorem parameters_eq_error {kind : StackKind} {e : StackError} :
    r.parameters kind name = .error e ↔
      e = .config (.parametersNotMapping kind name) ∧
        ∃ given, r.property? "Parameters" = some given ∧ given ≠ .null ∧
          ∀ entries, given ≠ .map entries := by
  unfold parameters
  generalize r.property? "Parameters" = given
  split <;> simp_all [eq_comm]

/-- Of all that is looked at, a resource `r` that stands for a template can lack only what
`StackFault` says. -/
theorem nestedContext_eq_error (hr : r.needsFlattening = true) {e : StackError} :
    r.nestedContext name ctx directory = .error e ↔
      ∃ fault, r.StackFault name ctx.location fault ∧ e = .config fault := by
  obtain ⟨kind, text, hkind, htype, htext⟩ := exists_of_needsFlattening hr name
  simp only [nestedContext, htype, htext]
  cases hlocation : ctx.location with
  | none =>
    constructor
    · intro h
      exact ⟨_, .location hkind rfl, (Except.error.inj h).symm⟩
    · rintro ⟨_, hfault, rfl⟩
      cases hfault with
      | location hkind' =>
        obtain rfl := Option.some.inj (hkind.symm.trans hkind')
        rfl
      | parameters _ hlocation => cases hlocation
  | some master =>
    show (r.parameters kind name >>= fun entries => pure _) = _ ↔ _
    rw [Except.bind_eq_error, parameters_eq_error]
    constructor
    · rintro (⟨rfl, given, hgiven, hnull, hmap⟩ | ⟨_, -, h⟩)
      · exact ⟨_, .parameters hkind rfl hgiven hnull hmap, rfl⟩
      · exact absurd h Except.pure_ne_error
    · rintro ⟨_, hfault, rfl⟩
      cases hfault with
      | location _ hlocation => cases hlocation
      | parameters hkind' _ hgiven hnull hmap =>
        obtain rfl := Option.some.inj (hkind.symm.trans hkind')
        exact .inl ⟨rfl, _, hgiven, hnull, hmap⟩

end Resource

/-! ### Templates -/

namespace Template

variable {w : World} {macros : Bool} {e : StackError}

theorem not_aboutStack_ofTree {tree : Tree} (h : Template.ofTree tree = .error e) :
    ¬e.AboutStack := by
  unfold Template.ofTree at h
  split at h <;> cases h
  rintro ⟨⟩

theorem not_aboutStack_resourceOf {entry : Tree × Tree} (h : resourceOf entry = .error e) :
    ¬e.AboutStack := by
  rcases Except.bind_eq_error.mp h with h | ⟨name, -, h⟩
  · obtain ⟨d, -, rfl⟩ := Except.mapError_eq_error.mp h
    rintro ⟨⟩
  rcases Except.bind_eq_error.mp h with h | ⟨r, -, h⟩
  · unfold Resource.ofTree at h
    split at h <;> cases h
    rintro ⟨⟩
  · exact absurd h Except.pure_ne_error

/-- Reading the resources of `t` takes none of them for a stack. -/
theorem not_aboutStack_resources {t : Template} (h : t.resources = .error e) : ¬e.AboutStack := by
  unfold resources at h
  split at h
  · cases h
  · cases h
  · obtain ⟨entry, -, h⟩ := Except.mapM_eq_error h
    exact not_aboutStack_resourceOf h
  · cases h
    rintro ⟨⟩

/-- Nor does loading a template from `path`. -/
theorem not_aboutStack_load {path : Path} {n : Nat}
    (h : (Template.load macros path w n).result = .error e) : ¬e.AboutStack := by
  rcases Run.bind_eq_error_iff.mp h with h | ⟨tree, -, h⟩
  · obtain ⟨d, -, rfl⟩ := Except.mapError_eq_error.mp h
    rintro ⟨⟩
  · exact not_aboutStack_ofTree h

end Template

/-! ### The stacks that processing comes to -/

/-- `Meets w macros depth ctx n rs naming s`: processing the resources `rs` under `ctx`, with `n`
identifiers drawn before and up to `depth` templates below, comes to the stack `s`, which stands in
a template under `naming`.  What is in front of `s`, at its level and at those around it, has been
put into the result by then. -/
inductive Meets (w : World) (macros : Bool) :
    Nat → Context → Nat → Resources → Context → String × Resource → Prop
  | here {depth n : Nat} {ctx : Context} {e : String × Resource} {rest : Resources}
      (he : e.2.needsFlattening = true) : Meets w macros depth ctx n (e :: rest) ctx e
  | behind {depth n n' : Nat} {ctx naming : Context} {e s : String × Resource}
      {part rest : Resources} (hpart : (contribution macros depth ctx e).Yields w n part n')
      (hrest : Meets w macros depth ctx n' rest naming s) :
      Meets w macros depth ctx n (e :: rest) naming s
  | inside {depth n n' : Nat} {ctx inner naming : Context} {e s : String × Resource}
      {kind : StackKind} {path : Path} {t : Template} {rs rest : Resources}
      (he : e.2.needsFlattening = true)
      (hinner : e.2.nestedContext e.1 ctx w.workingDirectory = .ok (kind, path, inner))
      (hload : (Template.load macros path).Yields w n t n') (hrs : t.resources = .ok rs)
      (hinside : Meets w macros depth inner n' rs naming s) :
      Meets w macros (depth + 1) ctx n (e :: rest) naming s

variable {w : World} {macros : Bool} {depth n : Nat} {ctx naming : Context} {rs : Resources}
  {s : String × Resource} {e : StackError}

namespace Meets

theorem needsFlattening (h : Meets w macros depth ctx n rs naming s) :
    s.2.needsFlattening = true := by
  induction h with
  | here he => exact he
  | behind _ _ ih => exact ih
  | inside _ _ _ _ _ ih => exact ih

/-- The way to a stack `s` starts in a stack `e` of the template itself. -/
theorem exists_mem (h : Meets w macros depth ctx n rs naming s) :
    ∃ e ∈ rs, e.2.needsFlattening = true := by
  induction h with
  | here he => exact ⟨_, List.mem_cons_self, he⟩
  | behind _ _ ih =>
    obtain ⟨e, hmem, he⟩ := ih
    exact ⟨e, List.mem_cons_of_mem _ hmem, he⟩
  | inside he => exact ⟨_, List.mem_cons_self, he⟩

end Meets

/-! ### Processing -/

/-- Renaming `r` takes it for no stack. -/
theorem not_aboutStack_renameResource {name : String} {r : Resource}
    (h : (renameResource ctx name r w n).result = .error e) : ¬e.AboutStack := by
  rw [renameResource] at h
  rcases Run.bind_eq_error_iff.mp h with h | ⟨changed, -, h⟩
  · obtain ⟨d, -, rfl⟩ := Except.mapError_eq_error.mp h
    rintro ⟨⟩
  · split at h
    · cases h
    · cases h

/-- What `t` comes to fails over a stack if what one of its resources comes to does. -/
theorem processResources_eq_error (he : e.AboutStack) {t : Template} :
    (processResources macros depth t ctx w n).result = .error e ↔
      ∃ rs, t.resources = .ok rs ∧
        (rs.mapM (contribution macros depth ctx) w n).result = .error e := by
  rw [processResources_eq, Run.bind_eq_error_iff]
  constructor
  · rintro (h | ⟨rs, hrs, h⟩)
    · exact absurd he (Template.not_aboutStack_resources h)
    · exact ⟨rs, hrs, Run.bind_pure_eq_error.mp h⟩
  · rintro ⟨rs, hrs, h⟩
    exact .inr ⟨rs, hrs, Run.bind_pure_eq_error.mpr h⟩

/-- What the resource in `entry` comes to fails over a stack if it is one that lacks something, or
if its template fails so. -/
theorem contribution_eq_error (he : e.AboutStack) {entry : String × Resource} :
    (contribution macros depth ctx entry w n).result = .error e ↔
      entry.2.needsFlattening = true ∧
        ((∃ fault, entry.2.StackFault entry.1 ctx.location fault ∧ e = .config fault) ∨
          ∃ below kind path naming t m, depth = below + 1 ∧
            entry.2.nestedContext entry.1 ctx w.workingDirectory = .ok (kind, path, naming) ∧
            (Template.load macros path).Yields w n t m ∧
            (processResources macros below t naming w m).result = .error e) := by
  cases hneeds : entry.2.needsFlattening with
  | false =>
    simp only [contribution, hneeds, Bool.false_eq_true, if_false, false_and, iff_false]
    intro h
    exact not_aboutStack_renameResource (Run.bind_pure_eq_error.mp h) he
  | true =>
    simp only [contribution, hneeds, if_true, true_and]
    have hnested : entry.2.nestedContext entry.1 ctx w.workingDirectory = .error e ↔ _ :=
      Resource.nestedContext_eq_error hneeds
    have hdirectory : ∀ f : Path → Run StackError Resources,
        (Run.workingDirectory >>= f) w n = f w.workingDirectory w n := fun _ => rfl
    rw [← hnested, hdirectory, Run.bind_eq_error_iff]
    refine or_congr Iff.rfl ⟨?_, ?_⟩
    · rintro ⟨⟨kind, path, naming⟩, hnaming, h⟩
      cases depth with
      | zero =>
        obtain rfl := Except.error.inj h
        cases he
      | succ below =>
        rw [Run.result_note_bind] at h
        rcases Run.bind_eq_error_iff.mp h with h | ⟨t, ht, h⟩
        · exact absurd he (Template.not_aboutStack_load h)
        · exact ⟨below, kind, path, naming, t, _, rfl, hnaming, Run.yields_of_result ht, h⟩
    · rintro ⟨below, kind, path, naming, t, m, rfl, hnaming, ⟨ht, rfl⟩, h⟩
      refine ⟨_, hnaming, ?_⟩
      rw [Run.result_note_bind]
      exact Run.bind_eq_error_iff.mpr (.inr ⟨t, ht, h⟩)

/-- A stack `s` that processing `rs` comes to, and that lacks something, makes it fail. -/
theorem Meets.contributions_eq_error (h : Meets w macros depth ctx n rs naming s)
    {fault : ConfigFault} (hfault : s.2.StackFault s.1 naming.location fault) :
    (rs.mapM (contribution macros depth ctx) w n).result = .error (.config fault) := by
  have habout : (StackError.config fault).AboutStack := .config fault
  induction h with
  | here he =>
    exact Run.mapM_cons_eq_error.mpr
      (.inl ((contribution_eq_error habout).mpr ⟨he, .inl ⟨fault, hfault, rfl⟩⟩))
  | behind hpart _ ih => exact Run.mapM_cons_eq_error.mpr (.inr ⟨_, _, hpart, ih hfault⟩)
  | inside he hinner hload hrs _ ih =>
    have hbelow := (processResources_eq_error habout).mpr ⟨_, hrs, ih hfault⟩
    exact Run.mapM_cons_eq_error.mpr (.inl ((contribution_eq_error habout).mpr
      ⟨he, .inr ⟨_, _, _, _, _, _, rfl, hinner, hload, hbelow⟩⟩))

/-- Processing `rs` that fails because of a stack has come to a stack `s` that lacks something. -/
theorem exists_meets (he : e.AboutStack)
    (h : (rs.mapM (contribution macros depth ctx) w n).result = .error e) :
    ∃ naming s fault, Meets w macros depth ctx n rs naming s ∧
      s.2.StackFault s.1 naming.location fault ∧ e = .config fault := by
  induction depth using Nat.strongRecOn generalizing ctx n rs with
  | _ depth ihinside =>
    induction rs generalizing n with
    | nil => cases h
    | cons entry rest ihbehind =>
      rcases Run.mapM_cons_eq_error.mp h with h | ⟨part, m, hpart, h⟩
      · obtain ⟨hneeds, ⟨fault, hfault, rfl⟩ | ⟨below, _, _, _, _, _, rfl, hinner, hload, h⟩⟩ :=
          (contribution_eq_error he).mp h
        · exact ⟨_, _, fault, .here hneeds, hfault, rfl⟩
        · obtain ⟨inner, hrs, h⟩ := (processResources_eq_error he).mp h
          obtain ⟨naming, s, fault, hmeets, hfault⟩ := ihinside below (Nat.lt_succ_self below) h
          exact ⟨naming, s, fault, .inside hneeds hinner hload hrs hmeets, hfault⟩
      · obtain ⟨naming, s, fault, hmeets, hfault⟩ := ihbehind h
        exact ⟨naming, s, fault, .behind hpart hmeets, hfault⟩

/-- Processing `t` fails with `.config fault` if and only if it comes to a stack `r` with this
fault. -/
theorem processResources_eq_error_iff {t : Template} {fault : ConfigFault} :
    (processResources macros depth t ctx w n).result = .error (.config fault) ↔
      ∃ rs naming name r, t.resources = .ok rs ∧ Meets w macros depth ctx n rs naming (name, r) ∧
        r.StackFault name naming.location fault := by
  rw [processResources_eq_error (.config fault)]
  constructor
  · rintro ⟨rs, hrs, h⟩
    obtain ⟨naming, s, fault', hmeets, hfault, heq⟩ := exists_meets (.config fault) h
    obtain rfl := StackError.config.inj heq
    exact ⟨rs, naming, s.1, s.2, hrs, hmeets, hfault⟩
  · rintro ⟨rs, naming, name, r, hrs, hmeets, hfault⟩
    exact ⟨rs, hrs, hmeets.contributions_eq_error hfault⟩

/-- A template `t` without stacks opens no file. -/
theorem opened_processResources_kept {t : Template}
    (h : ∀ rs, t.resources = .ok rs → ∀ e ∈ rs, e.2.needsFlattening = false) :
    (processResources macros depth t ctx w n).opened = [] := by
  cases hrs : t.resources with
  | error e =>
    have hread : (Run.ofExcept t.resources w n).result = .error e := hrs
    rw [processResources_eq, Run.bind_error _ hread]
    rfl
  | ok rs =>
    rw [opened_processResources hrs]
    exact Run.opened_mapM_of_silent (fun e he n => opened_contribution_kept (h rs hrs e he)) n

/-! ### The main statement -/

/-- **What a stack can lack is a place or a mapping.**  Processing `t` under `ctx`, with up to
`depth` templates below, never fails with the type of a resource, and never with the ending of a
location.  It fails with `.config fault` if and only if it comes to a stack `r`, at any level, with
`r.StackFault name naming.location fault`, where `naming` is that of the template around `r`.  If
`t` has no stacks, it gives no such error and opens no file. -/
theorem stack_faults_exact (w : World) (macros : Bool) (depth : Nat) (t : Template) (ctx : Context)
    (n : Nat) :
    (∀ type, (processResources macros depth t ctx w n).result ≠
        .error (.unsupportedResource type)) ∧
      (∀ name location, (processResources macros depth t ctx w n).result ≠
        .error (.config (.locationEnding name location))) ∧
      (∀ fault, (processResources macros depth t ctx w n).result = .error (.config fault) ↔
        ∃ rs naming name r, t.resources = .ok rs ∧
          Meets w macros depth ctx n rs naming (name, r) ∧ r.needsFlattening = true ∧
          r.StackFault name naming.location fault) ∧
      ((∀ rs, t.resources = .ok rs → ∀ e ∈ rs, e.2.needsFlattening = false) →
        (∀ fault, (processResources macros depth t ctx w n).result ≠ .error (.config fault)) ∧
          (processResources macros depth t ctx w n).opened = []) := by
  refine ⟨fun type h => ?_, fun name location h => ?_, fun fault => ?_, fun hkept => ?_⟩
  · obtain ⟨rs, -, h⟩ := (processResources_eq_error (.unsupportedResource type)).mp h
    obtain ⟨_, _, _, -, -, h⟩ := exists_meets (.unsupportedResource type) h
    cases h
  · obtain ⟨_, _, _, _, -, -, h⟩ := processResources_eq_error_iff.mp h
    cases h
  · rw [processResources_eq_error_iff]
    constructor
    · rintro ⟨rs, naming, name, r, hrs, hmeets, hfault⟩
      exact ⟨rs, naming, name, r, hrs, hmeets, hmeets.needsFlattening, hfault⟩
    · rintro ⟨rs, naming, name, r, hrs, hmeets, -, hfault⟩
      exact ⟨rs, naming, name, r, hrs, hmeets, hfault⟩
  · refine ⟨fun fault h => ?_, opened_processResources_kept hkept⟩
    obtain ⟨rs, _, _, _, hrs, hmeets, -⟩ := processResources_eq_error_iff.mp h
    obtain ⟨e, he, hneeds⟩ := hmeets.exists_mem
    rw [hkept rs hrs e he] at hneeds
    cases hneeds

/-- The text of a template with a stack whose parameters are a list. -/
def listedText : String :=
  "Resources:\n  Deep:\n    Type: AWS::CloudFormation::Stack\n" ++
    "    Properties:\n      Location: d.yaml\n      Parameters:\n        - Key\n"

/-- A stack whose template has a stack inside, which is given a list as its parameters. -/
def listedFiles : World :=
  { sampleFiles with
    lookup := fun p =>
      if p.text = "/d/r.yaml" then .ok sampleOuterText
      else if p.text = "/d/c.yaml" then .ok listedText
      else .error .missing }

/-- The stack inside. -/
def listedStack : Resource :=
  ⟨[(.str "Type", .str "AWS::CloudFormation::Stack"),
    (.str "Properties",
      .map [(.str "Location", .str "d.yaml"), (.str "Parameters", .seq [.str "Key"])])]⟩

/-- The list is found out one level below, before the file of the stack is looked for. -/
theorem stack_faults_exact_listed :
    (processResources false 3 (.ofResource "Child" sampleStack) (.root ⟨"r.yaml"⟩) listedFiles
      0).result = .error (.config (.parametersNotMapping .cloudFormationStack "Deep")) := by
  have hload : (Template.load false ⟨"/d/c.yaml"⟩).Yields listedFiles 0
      (.ofResource "Deep" listedStack) 0 :=
    Template.load_yields.mpr ⟨_, loadFile_yields.mpr
      ⟨_, _, by decide +kernel, (by decide +kernel : Markup.parse listedText = .ok
        (Template.ofResource "Deep" listedStack).toTree), rfl, rfl⟩, rfl⟩
  have hmeets : Meets listedFiles false 3 (.root ⟨"r.yaml"⟩) 0 [("Child", sampleStack)]
      (.nested ⟨"/d/c.yaml"⟩ [] "Child") ("Deep", listedStack) :=
    .inside rfl rfl hload rfl (.here rfl)
  have hfault : listedStack.StackFault "Deep" (some ⟨"/d/c.yaml"⟩)
      (.parametersNotMapping .cloudFormationStack "Deep") :=
    .parameters rfl rfl rfl nofun nofun
  obtain ⟨-, -, hexact, -⟩ := stack_faults_exact listedFiles false 3
    (.ofResource "Child" sampleStack) (.root ⟨"r.yaml"⟩) 0
  exact (hexact _).mpr ⟨_, _, _, _, rfl, hmeets, rfl, hfault⟩

end NestedStacks
