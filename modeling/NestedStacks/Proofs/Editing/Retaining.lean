/-
Retention before and after flattening.

A retention policy can be put on the resources of every template as it is loaded, or on those of
the flattened template.  Both come to the same: `flatten_marked`.  The policy decides neither which
resources stand for templates nor what renaming does, and it keeps its place among the keys of a
resource, because renaming sets no key that was not there.

* `processWith`, `flattenWith` — processing and flattening with any way of loading templates;
* `Marker.retarget_markResource`, `Marker.mergeResources_markAll` — a policy and the steps of
  flattening;
* `Marker.processWith_mark` — marking the templates marks what they come to.
-/
import NestedStacks.Template.Retention
import NestedStacks.Proofs.Nesting.Flattening

namespace NestedStacks

/-! ### Any way of loading templates -/

/-- `contributionVia inside ctx entry`: what the resource in `entry` comes to under `ctx`, where
`inside kind name path naming` is what the template at `path` comes to for a stack `name`. -/
def contributionVia (inside : StackKind → String → Path → Context → Run StackError Resources)
    (ctx : Context) (entry : String × Resource) : Run StackError Resources := do
  if entry.2.needsFlattening then
    let (kind, path, naming) ←
      Run.ofExcept (entry.2.nestedContext entry.1 ctx (← Run.workingDirectory))
    inside kind entry.1 path naming
  else
    return [← renameResource ctx entry.1 entry.2]

/-- `processVia inside t ctx`: what the resources of `t` come to under `ctx`, one after the
other. -/
def processVia (inside : StackKind → String → Path → Context → Run StackError Resources)
    (t : Template) (ctx : Context) : Run StackError Resources := do
  let rs ← Run.ofExcept t.resources
  let parts ← rs.mapM (contributionVia inside ctx)
  return parts.flatten

/-- `processWith load depth t ctx`: the resources that `t` comes to under `ctx` when `load` loads
the templates below it, of which up to `depth` may stand in one another. -/
def processWith (load : Path → Run StackError Template) :
    Nat → Template → Context → Run StackError Resources
  | 0 => processVia fun _ _ path _ => Run.fail (.endlessNesting path)
  | depth + 1 => processVia fun kind name path naming => do
    Run.note .debug .flattening
      ("Inlining " ++ kind.resourceType ++ " " ++ name ++ " from " ++ path.text)
    processWith load depth (← load path) naming

/-- `flattenWith load path`: the template that `load` gives for `path`, without nested templates,
which are loaded by `load` too. -/
def flattenWith (load : Path → Run StackError Template) (path : Path) :
    Run StackError Template := do
  Run.note .info .flattening ("Flattening " ++ path.text)
  let t ← load path
  let rs ← processWith load (← Run.depth) t (.root path)
  let flattened ← t.assemble rs
  Run.note .info .flattening
    ("Flattened " ++ path.text ++ " into " ++ toString rs.length ++ " resources")
  return flattened

variable {macros : Bool}

/-- `processResources` loads templates from files. -/
theorem processResources_eq_with (depth : Nat) :
    processResources macros depth = processWith (Template.load macros) depth := by
  induction depth with
  | zero => rfl
  | succ depth ih =>
    rw [processWith, ← ih]
    rfl

theorem flatten_eq_with (path : Path) :
    flatten macros path = flattenWith (Template.load macros) path := by
  simp only [flatten, flattenWith, Template.process, processResources_eq_with, bind_assoc]

theorem processWith_of_error {load : Path → Run StackError Template} {t : Template} {e : StackError}
    (h : t.resources = .error e) (depth : Nat) (ctx : Context) :
    processWith load depth t ctx = Run.fail e := by
  have hvia : ∀ inside, processVia inside t ctx = Run.fail e := by
    intro inside
    rw [processVia, h]
    rfl
  cases depth <;> exact hvia _

/-- `w.DistinctNames macros`: no template in a file of `w` gives one name to two resources. -/
def World.DistinctNames (w : World) (macros : Bool) : Prop :=
  ∀ {path : Path} {n n' : Nat} {t : Template} {rs : Resources},
    (Template.load macros path).Yields w n t n' → t.resources = .ok rs → (rs.map (·.1)).Nodup

/-! ### A policy on one resource -/

namespace Resource

variable {ctx : Context} {r changed : Resource} {policy : String}

theorem set_comm {key other : String} (hne : key ≠ other) (h : (r.get? key).isSome) (t u : Tree) :
    (r.set other u).set key t = (r.set key t).set other u :=
  congrArg Resource.mk (Entries.set_comm hne h t u)

theorem prefixDependsOn_setDeletionPolicy (h : changed.get? "DependsOn" = r.get? "DependsOn") :
    prefixDependsOn ctx (r.setDeletionPolicy policy) (changed.setDeletionPolicy policy) =
      (prefixDependsOn ctx r changed).setDeletionPolicy policy := by
  have hsame : (r.setDeletionPolicy policy).get? "DependsOn" = r.get? "DependsOn" :=
    get?_set_of_ne _ _ (by decide)
  rw [prefixDependsOn, prefixDependsOn, hsame]
  cases hd : r.get? "DependsOn" with
  | none => rfl
  | some t => exact set_comm (by decide) (Option.isSome_iff_exists.mpr ⟨t, h.trans hd⟩) _ _

/-- The `policy` of `r` keeps its place when `r` is renamed, since renaming sets only keys that are
there. -/
theorem retarget_setDeletionPolicy (ctx : Context) (r : Resource) (policy : String) :
    (r.setDeletionPolicy policy).retarget ctx =
      (fun r' => r'.setDeletionPolicy policy) <$> r.retarget ctx := by
  have hsame : (r.setDeletionPolicy policy).properties? = r.properties? :=
    get?_set_of_ne _ _ (by decide)
  rw [retarget, retarget, hsame]
  cases hp : r.properties? with
  | none => exact congrArg Except.ok (prefixDependsOn_setDeletionPolicy rfl)
  | some t =>
    dsimp only
    cases t.retarget ctx with
    | error e => rfl
    | ok t' =>
      -- the properties are there, so that the policy stays where it was put
      have hplace : (r.setDeletionPolicy policy).set "Properties" t' =
          (r.set "Properties" t').setDeletionPolicy policy :=
        set_comm (by decide) (Option.isSome_iff_exists.mpr ⟨t, hp⟩) _ _
      have hdepends : (r.set "Properties" t').get? "DependsOn" = r.get? "DependsOn" :=
        get?_set_of_ne _ _ (by decide)
      show Except.ok _ = Except.ok _
      rw [hplace, prefixDependsOn_setDeletionPolicy hdepends]

end Resource

namespace Marker

variable {m : Marker} {ctx : Context}

theorem get?_markResource (r : Resource) {key : String} (h : key ≠ "DeletionPolicy") :
    (m.markResource r).get? key = r.get? key := by
  unfold markResource
  split
  · exact Resource.get?_set_of_ne _ _ h
  · rfl

theorem type?_markResource (r : Resource) : (m.markResource r).type? = r.type? := by
  rw [Resource.type?, get?_markResource r (by decide), ← Resource.type?]

theorem property?_markResource (r : Resource) (key : String) :
    (m.markResource r).property? key = r.property? key := by
  rw [Resource.property?, Resource.properties?, get?_markResource r (by decide)]
  rfl

theorem location?_markResource (r : Resource) : (m.markResource r).location? = r.location? := by
  rw [Resource.location?, property?_markResource, ← Resource.location?]

/-- The policy does not decide whether `r` stands for a template. -/
theorem needsFlattening_markResource (r : Resource) :
    (m.markResource r).needsFlattening = r.needsFlattening := by
  simp only [Resource.needsFlattening, Resource.stackKind?, type?_markResource,
    location?_markResource]

theorem nestedContext_markResource (r : Resource) (name : String) (directory : Path) :
    (m.markResource r).nestedContext name ctx directory = r.nestedContext name ctx directory := by
  simp only [Resource.nestedContext, Resource.stackKind, Resource.templateLocation,
    Resource.parameters, type?_markResource, location?_markResource, property?_markResource]

/-- The resource `r` may be marked before or after it is renamed under `ctx`. -/
theorem retarget_markResource (ctx : Context) (r : Resource) :
    (m.markResource r).retarget ctx = m.markResource <$> r.retarget ctx := by
  have happlies : ∀ r', r.retarget ctx = .ok r' → m.applies r' = m.applies r := by
    intro r' h
    rw [applies, Resource.type?_retarget h, ← applies]
  cases hm : m.applies r with
  | true =>
    rw [markResource, if_pos hm, Resource.retarget_setDeletionPolicy]
    cases hr : r.retarget ctx with
    | error e => rfl
    | ok r' =>
      show Except.ok _ = Except.ok _
      rw [markResource, happlies r' hr, if_pos hm]
  | false =>
    rw [markResource, hm]
    cases hr : r.retarget ctx with
    | error e => exact hr
    | ok r' =>
      show r.retarget ctx = Except.ok (m.markResource r')
      rw [markResource, happlies r' hr, hm]
      exact hr

/-! ### A policy on all resources -/

theorem names_markAll (rs : Resources) : (m.markAll rs).map (·.1) = rs.map (·.1) := by
  rw [markAll, List.map_map]
  rfl

theorem length_markAll (rs : Resources) : (m.markAll rs).length = rs.length := List.length_map _

theorem putResource_markAll (name : String) (r : Resource) (rs : Resources) :
    putResource name (m.markResource r) (m.markAll rs) = m.markAll (putResource name r rs) := by
  induction rs with
  | nil => rfl
  | cons e rest ih =>
    simp only [markAll, List.map_cons, putResource] at ih ⊢
    by_cases hn : e.1 = name
    · simp [hn]
    · simp [hn, ih]

/-- Of the marked resources `rs` with one name the same one is left. -/
theorem mergeResources_markAll (rs : Resources) :
    mergeResources (m.markAll rs) = m.markAll (mergeResources rs) := by
  -- whatever was merged before
  have h : ∀ merged : Resources,
      (m.markAll rs).foldl (fun merged e => putResource e.1 e.2 merged) (m.markAll merged) =
        m.markAll (rs.foldl (fun merged e => putResource e.1 e.2 merged) merged) := by
    induction rs with
    | nil => exact fun _ => rfl
    | cons e rest ih =>
      intro merged
      rw [List.foldl_cons, ← ih, ← putResource_markAll]
      rfl
  exact h []

/-- A template `t` that gets the marked resources `rs` has them, if their names are different. -/
theorem resources_setResources_markAll (t : Template) {rs : Resources}
    (h : (rs.map (·.1)).Nodup) :
    (t.setResources (m.markAll rs)).resources = .ok (m.markAll rs) := by
  rw [Template.resources_setResources, mergeResources_of_nodup (by rwa [names_markAll])]

/-- Marking `t` is marking its resources, if they can be read. -/
theorem bind_mark {α : Type} (t : Template) (f : Template → Run StackError α) :
    (Run.ofExcept (m.mark t) >>= f) =
      Run.ofExcept t.resources >>= fun rs => f (t.setResources (m.markAll rs)) := by
  rw [mark]
  cases t.resources <;> rfl

/-! ### Marking while loading -/

/-- `m.load macros path`: the template at `path`, marked by `m`. -/
def load (m : Marker) (macros : Bool) (path : Path) : Run StackError Template := do
  Run.ofExcept (m.mark (← Template.load macros path))

variable {w : World}

theorem renameResource_markResource (name : String) (r : Resource) :
    renameResource ctx name (m.markResource r) =
      (fun e => (e.1, m.markResource e.2)) <$> renameResource ctx name r := by
  rw [renameResource, renameResource, retarget_markResource]
  cases r.retarget ctx with
  | error e => rfl
  | ok r' =>
    split
    · rfl
    · rfl

section

variable {inside inside' : StackKind → String → Path → Context → Run StackError Resources}
  (hinside : ∀ kind name path naming,
    inside' kind name path naming w = (m.markAll <$> inside kind name path naming) w)
include hinside

theorem contributionVia_mark (e : String × Resource) :
    contributionVia inside' ctx (e.1, m.markResource e.2) w =
      (m.markAll <$> contributionVia inside ctx e) w := by
  rw [contributionVia, contributionVia]
  simp only [needsFlattening_markResource, nestedContext_markResource]
  cases e.2.needsFlattening with
  | true =>
    simp only [if_true, map_bind]
    refine Run.bind_congr_of_yields fun _ directory _ _ => ?_
    refine Run.bind_congr_of_yields fun _ nested _ _ => ?_
    exact hinside _ _ _ _
  | false =>
    simp [renameResource_markResource, markAll]

theorem processVia_mark {t : Template} {rs : Resources} (hrs : t.resources = .ok rs)
    (hnames : (rs.map (·.1)).Nodup) :
    processVia inside' (t.setResources (m.markAll rs)) ctx w =
      (m.markAll <$> processVia inside t ctx) w := by
  rw [processVia, processVia, resources_setResources_markAll t hnames, hrs]
  show ((m.markAll rs).mapM (contributionVia inside' ctx) >>= fun parts => pure parts.flatten) w =
    (m.markAll <$> (rs.mapM (contributionVia inside ctx) >>= fun parts => pure parts.flatten)) w
  have hflatten : ∀ parts : List Resources,
      (parts.map m.markAll).flatten = m.markAll parts.flatten := fun _ => List.map_flatten.symm
  rw [markAll, Run.bind_congr_left (Run.mapM_map (contributionVia_mark hinside) rs), bind_map_left,
    map_bind]
  simp only [hflatten, map_pure]

end

/-- If no template gives a name twice, marking `t` and the templates below marks what `t` comes
to. -/
theorem processWith_mark (hfiles : w.DistinctNames macros) (depth : Nat) {t : Template}
    {rs : Resources} (hrs : t.resources = .ok rs) (hnames : (rs.map (·.1)).Nodup) :
    processWith (m.load macros) depth (t.setResources (m.markAll rs)) ctx w =
      (m.markAll <$> processWith (Template.load macros) depth t ctx) w := by
  induction depth generalizing t rs ctx with
  | zero =>
    rw [processWith, processWith]
    refine processVia_mark ?_ hrs hnames
    intro kind name path naming
    rfl
  | succ depth ih =>
    rw [processWith, processWith]
    refine processVia_mark (fun kind name path naming => ?_) hrs hnames
    simp only [load, map_bind, bind_assoc, bind_mark]
    refine Run.bind_congr_of_yields fun _ _ _ _ => ?_
    refine Run.bind_congr_of_yields fun n template n' hload => ?_
    -- if its resources cannot be read, both ways fail before anything is marked
    cases hinner : template.resources with
    | error e =>
      rw [processWith_of_error hinner]
      rfl
    | ok inner => exact ih hinner (hfiles hload hinner)

/-- A template `t` that got the resources `rs` is marked by marking these. -/
theorem mark_setResources (t : Template) (rs : Resources) :
    m.mark (t.setResources rs) = .ok (t.setResources (m.markAll rs)) := by
  have hentries : Template.resourceEntries (m.markAll (mergeResources rs)) =
      Template.resourceEntries (m.markAll rs) := by
    rw [← mergeResources_markAll, Template.resourceEntries_mergeResources]
  rw [mark, Template.resources_setResources]
  show Except.ok ((t.setResources rs).setResources (m.markAll (mergeResources rs))) = _
  rw [Template.setResources_setResources, Template.setResources, Template.setResources, hentries]

/-- Flattening marked templates takes the steps of `flatten macros path`, and gives the marked
template. -/
theorem flattenWith_mark (hfiles : w.DistinctNames macros) (path : Path) :
    flattenWith (m.load macros) path w =
      (flatten macros path >>= fun flat => Run.ofExcept (m.mark flat)) w := by
  rw [flatten_eq_with, flattenWith, flattenWith]
  simp only [load, bind_assoc, bind_mark]
  refine Run.bind_congr_of_yields fun _ _ _ _ => ?_
  refine Run.bind_congr_of_yields fun n t n' hload => ?_
  cases hrs : t.resources with
  | error e =>
    simp only [processWith_of_error hrs]
    rfl
  | ok rs =>
    have hread : (Run.ofExcept (.ok rs) : Run StackError Resources) = pure rs := rfl
    rw [hread, pure_bind]
    refine Run.bind_congr_of_yields fun _ depth _ _ => ?_
    rw [Run.bind_congr_left (processWith_mark hfiles depth hrs (hfiles hload hrs)), bind_map_left]
    refine Run.bind_congr_of_yields fun _ out _ _ => ?_
    -- names and their number are the same, and so is what is reported on them
    simp only [Template.assemble, names_markAll, length_markAll, bind_assoc, pure_bind,
      Template.setResources_setResources, mark_setResources]
    rfl

end Marker

variable {w : World}

/-- **Marking and flattening may be done in any order.**  Let no template in the files of `w` give a
name twice.  Flattening from `path` succeeds with templates that are marked by `m` as they are
loaded if and only if it succeeds with those in the files, and if that gives `flat`, it gives
`m.mark flat`. -/
theorem flatten_marked (m : Marker) (hfiles : w.DistinctNames macros) (path : Path) (n : Nat) :
    ((∃ marked, (flattenWith (m.load macros) path w n).result = .ok marked) ↔
        ∃ flat, (flatten macros path w n).result = .ok flat) ∧
      ∀ flat, (flatten macros path w n).result = .ok flat →
        ∃ marked, m.mark flat = .ok marked ∧
          (flattenWith (m.load macros) path w n).result = .ok marked := by
  rw [Marker.flattenWith_mark hfiles]
  have hmark : ∀ flat, (flatten macros path w n).result = .ok flat →
      ∃ marked, m.mark flat = .ok marked := by
    intro flat hflat
    obtain ⟨t, _, out, -, -, rfl⟩ := flatten_yields.mp (Run.yields_of_result hflat)
    exact ⟨_, m.mark_setResources t out⟩
  refine ⟨⟨?_, ?_⟩, ?_⟩
  · rintro ⟨marked, h⟩
    obtain ⟨flat, hflat, -⟩ := Run.bind_eq_ok.mp h
    exact ⟨flat, hflat⟩
  · rintro ⟨flat, hflat⟩
    obtain ⟨marked, hmarked⟩ := hmark flat hflat
    exact ⟨marked, Run.bind_eq_ok.mpr ⟨flat, hflat, hmarked⟩⟩
  · intro flat hflat
    obtain ⟨marked, hmarked⟩ := hmark flat hflat
    exact ⟨marked, hmarked, Run.bind_eq_ok.mpr ⟨flat, hflat, hmarked⟩⟩

/-- The two sample files have one resource each. -/
theorem sampleFiles_distinctNames : sampleFiles.DistinctNames false := by
  intro path n n' t rs hload hrs
  obtain ⟨tree, htree, ht⟩ := Template.load_yields.mp hload
  obtain ⟨text, raw, hread, hparse, hraw⟩ := loadFile_yields.mp htree
  have htext : text = sampleOuterText ∨ text = sampleInnerText := by
    simp only [World.read, sampleFiles] at hread
    split at hread
    · cases hread
    · split at hread
      · exact .inl (Except.ok.inj hread).symm
      · split at hread
        · exact .inr (Except.ok.inj hread).symm
        · cases hread
  rcases htext with rfl | rfl
  · cases hparse.symm.trans parse_sampleOuterText
    obtain ⟨rfl, -⟩ := hraw.unique ⟨rfl, rfl⟩
    cases ht
    cases hrs
    decide
  · cases hparse.symm.trans parse_sampleInnerText
    obtain ⟨rfl, -⟩ := hraw.unique ⟨rfl, rfl⟩
    cases ht
    cases hrs
    decide

/-- The table of the sample gets its policy in its own template and keeps it when it is moved. -/
theorem flatten_marked_table : sampleFiles.DistinctNames false ∧
    (flattenWith ((Marker.standard.withTypes ["Custom::Table"]).load false) ⟨"r.yaml"⟩
      sampleFiles 0).result = .ok (.ofResource "ChildTable"
        ((sampleTable "!Sub" "ChildTable").setDeletionPolicy "Retain")) := by
  obtain ⟨marked, hmarked, hrun⟩ :=
    (flatten_marked (Marker.standard.withTypes ["Custom::Table"]) sampleFiles_distinctNames
      ⟨"r.yaml"⟩ 0).2 _ sampleFiles_flatten
  refine ⟨sampleFiles_distinctNames, ?_⟩
  rw [hrun, ← hmarked]
  rfl

end NestedStacks
