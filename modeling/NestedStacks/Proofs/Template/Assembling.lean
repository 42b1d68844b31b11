/-
Setting resources when names are given more than once.

Each name is left once, where it was given first and with the resource that it was given last, and
each time that a name is given again is reported: `assemble_last_wins`.  So a flattened template has
fewer resources than the templates below it come to just when two of those have one final name.

* `names_mergeResources`, `last_of_mem_mergeResources`, `length_mergeResources_lt_iff` — what is
  left of resources;
* `repetitions`, `collisions_eq_repetitions` — the names that are reported;
* `Template.puts_setResources` — what happens to the rest of the template.
-/
import Mathlib.Data.List.Nodup
import Mathlib.Data.List.Perm.Subperm
import NestedStacks.Proofs.Nesting.Flattening

namespace NestedStacks

/-- The elements of `names` that stand somewhere in front of themselves too, in order. -/
def repetitions (names : List String) : List String :=
  (names.zipIdx.filter fun e => e.1 ∈ names.take e.2).map (·.1)

/-! ### What is left -/

theorem mergeResources_append_singleton (rs : Resources) (e : String × Resource) :
    mergeResources (rs ++ [e]) = putResource e.1 e.2 (mergeResources rs) := by
  simp [mergeResources]

theorem eraseDups_append_singleton (names : List String) (name : String) :
    (names ++ [name]).eraseDups =
      if name ∈ names then names.eraseDups else names.eraseDups ++ [name] := by
  rw [List.eraseDups_append]
  by_cases h : name ∈ names <;> simp [List.removeAll, List.eraseDups_cons, h]

/-- Each name in `rs` is left once, in the order in which they were given first. -/
theorem names_mergeResources (rs : Resources) :
    (mergeResources rs).map (·.1) = (rs.map (·.1)).eraseDups := by
  induction rs using List.reverseRecOn with
  | nil => rfl
  | append_singleton rs e ih =>
    rw [mergeResources_append_singleton, names_putResource, List.map_append, List.map_singleton,
      eraseDups_append_singleton, ← ih]
    simp only [mem_names_mergeResources]

/-- Each name is left with the resource that it was given last: none `behind` it in `rs` has that
name. -/
theorem last_of_mem_mergeResources {rs : Resources} {e : String × Resource}
    (h : e ∈ mergeResources rs) :
    ∃ front behind, rs = front ++ e :: behind ∧ e.1 ∉ behind.map (·.1) := by
  induction rs using List.reverseRecOn generalizing e with
  | nil => cases h
  | append_singleton rs e' ih =>
    rw [mergeResources_append_singleton] at h
    by_cases hname : e.1 = e'.1
    · -- no name is left twice, so this is the resource that was put in
      have hself : e' ∈ putResource e'.1 e'.2 (mergeResources rs) := mem_putResource_self _ _ _
      have hnodup : ((putResource e'.1 e'.2 (mergeResources rs)).map (·.1)).Nodup :=
        nodup_putResource (nodup_mergeResources rs)
      obtain rfl := List.inj_on_of_nodup_map hnodup h hself hname
      exact ⟨rs, [], rfl, List.not_mem_nil⟩
    · rcases mem_putResource h with rfl | h
      · exact absurd rfl hname
      · obtain ⟨front, behind, rfl, hlast⟩ := ih h
        refine ⟨front, behind ++ [e'], by simp, ?_⟩
        rw [List.map_append, List.mem_append, not_or]
        exact ⟨hlast, by simpa using hname⟩

/-- Some of the resources `rs` are lost just when two of them have one name. -/
theorem length_mergeResources_lt_iff {rs : Resources} :
    (mergeResources rs).length < rs.length ↔ ¬(rs.map (·.1)).Nodup := by
  have hsubperm : ((mergeResources rs).map (·.1)).Subperm (rs.map (·.1)) :=
    (nodup_mergeResources rs).subperm fun _ => mem_names_mergeResources.mp
  have hle := hsubperm.length_le
  simp only [List.length_map] at hle
  constructor
  · intro hlt hnodup
    rw [mergeResources_of_nodup hnodup] at hlt
    exact Nat.lt_irrefl _ hlt
  · intro hdup
    refine Nat.lt_of_le_of_ne hle fun hlength => hdup ?_
    -- as many different names as there are names are all of them
    have hperm := hsubperm.perm_of_length_le (by simp [hlength])
    exact hperm.nodup_iff.mp (nodup_mergeResources rs)

/-! ### What is reported -/

theorem collisions_append_singleton (seen names : List String) (name : String) :
    collisions seen (names ++ [name]) =
      collisions seen names ++ if name ∈ seen ∨ name ∈ names then [name] else [] := by
  induction names generalizing seen with
  | nil => by_cases h : name ∈ seen <;> simp [collisions, h]
  | cons other rest ih =>
    rw [List.cons_append, collisions, collisions]
    by_cases hother : other ∈ seen
    · have hsame : name = other → name ∈ seen := by
        rintro rfl
        exact hother
      have hcond : name ∈ seen ∨ name ∈ other :: rest ↔ name ∈ seen ∨ name ∈ rest := by
        rw [List.mem_cons]
        tauto
      simp only [List.contains_iff_mem, hother, if_true, ih, hcond, List.cons_append]
    · simp only [List.contains_iff_mem, hother, if_false, ih, List.mem_cons, or_assoc, or_left_comm]

theorem repetitions_append_singleton (names : List String) (name : String) :
    repetitions (names ++ [name]) = repetitions names ++ if name ∈ names then [name] else [] := by
  have hfront : ∀ e ∈ names.zipIdx, decide (e.1 ∈ (names ++ [name]).take e.2) =
      decide (e.1 ∈ names.take e.2) := by
    intro e he
    have hlt : e.2 < names.length := List.snd_lt_of_mem_zipIdx he
    rw [List.take_append_of_le_length (Nat.le_of_lt hlt)]
  rw [repetitions, List.zipIdx_append, List.filter_append, List.filter_congr hfront,
    List.map_append, ← repetitions]
  by_cases h : name ∈ names <;> simp [h]

/-- Each of the `names` is reported each time that it is given again. -/
theorem collisions_eq_repetitions (names : List String) :
    collisions [] names = repetitions names := by
  induction names using List.reverseRecOn with
  | nil => rfl
  | append_singleton names name ih =>
    rw [collisions_append_singleton, repetitions_append_singleton, ih]
    simp

namespace Template

/-- Only the resources of `t` change: they keep their place, or come last. -/
theorem puts_setResources (t : Template) (rs : Resources) :
    Entries.Puts "Resources" (.map (resourceEntries rs)) t.root (t.setResources rs).root :=
  Entries.puts_set _ _ _

theorem assemble_run (t : Template) (rs : Resources) (w : World) (n : Nat) :
    t.assemble rs w n =
      ⟨(repetitions (rs.map (·.1))).map fun name =>
        .noted ⟨.warn, .assembling, collisionMessage name⟩, .ok (t.setResources rs)⟩ := by
  rw [assemble, collisions_eq_repetitions, Run.bind_ok (a := ()) _ rfl]
  simp [List.map_map, Function.comp_def]

end Template

/-- **Of resources with one name the last one is left.**  Let `t` get the resources `rs`.  Reading
them gives `kept`: each name of `rs` once, in the order in which the names were given first, each
with the resource that it was given last.  Getting them takes no other steps than to report the
`repetitions` of names, and it changes nothing in `t` but `Resources`.  So if `flat` is the
flattened template of a file, and `out` what the template in there comes to, `flat` has fewer
resources than `out` if and only if two of `out` have one name, and otherwise it has just `out`. -/
theorem assemble_last_wins (t : Template) (rs : Resources) :
    (∃ kept, (t.setResources rs).resources = .ok kept ∧
        kept.map (·.1) = (rs.map (·.1)).eraseDups ∧
        ∀ e ∈ kept, ∃ front behind, rs = front ++ e :: behind ∧ e.1 ∉ behind.map (·.1)) ∧
      (∀ (w : World) (n : Nat), t.assemble rs w n =
        ⟨(repetitions (rs.map (·.1))).map fun name =>
          .noted ⟨.warn, .assembling, collisionMessage name⟩, .ok (t.setResources rs)⟩) ∧
      Entries.Puts "Resources" (.map (Template.resourceEntries rs)) t.root
        (t.setResources rs).root ∧
      ∀ (macros : Bool) (path : Path) (w : World) (n : Nat) (flat : Template),
        (flatten macros path w n).result = .ok flat →
        ∃ t' m out kept, (Template.load macros path).Yields w n t' m ∧
          (t'.process macros (.root path) w m).result = .ok out ∧ flat.resources = .ok kept ∧
          (kept.length < out.length ↔ ¬(out.map (·.1)).Nodup) ∧
          ((out.map (·.1)).Nodup → kept = out) := by
  refine ⟨⟨_, t.resources_setResources rs, names_mergeResources rs, ?_⟩, t.assemble_run rs,
    t.puts_setResources rs, ?_⟩
  · exact fun e he => last_of_mem_mergeResources he
  · intro macros path w n flat hflat
    obtain ⟨t', m, out, hload, hprocess, rfl⟩ := flatten_yields.mp (Run.yields_of_result hflat)
    exact ⟨t', m, out, _, hload, hprocess.1, t'.resources_setResources out,
      length_mergeResources_lt_iff, mergeResources_of_nodup⟩

/-- The text of a template with one nested template, and a resource with the final name of the one
in there. -/
def crowdedText : String :=
  "Resources:\n  ChildTable:\n    Type: Custom::Queue\n" ++
    "  Child:\n    Type: AWS::CloudFormation::Stack\n" ++
    "    Properties:\n      Location: c.yaml\n"

/-- This template and the nested one in one directory. -/
def crowdedFiles : World :=
  { sampleFiles with
    lookup := fun p =>
      if p.text = "/d/r.yaml" then .ok crowdedText
      else if p.text = "/d/c.yaml" then .ok sampleInnerText
      else .error .missing }

/-- The template in the file, and the resources that it comes to. -/
def crowdedTemplate : Template :=
  ⟨[(.str "Resources", .map [(.str "ChildTable", (Resource.ofType "Custom::Queue").toTree),
    (.str "Child", sampleStack.toTree)])]⟩

def crowdedResources : Resources :=
  [("ChildTable", .ofType "Custom::Queue"), ("ChildTable", sampleTable "!Sub" "ChildTable")]

theorem crowdedFiles_process :
    (Template.load false ⟨"r.yaml"⟩).Yields crowdedFiles 0 crowdedTemplate 0 ∧
      (crowdedTemplate.process false (.root ⟨"r.yaml"⟩)).Yields crowdedFiles 0
        crowdedResources 0 := by
  have houter : Markup.parse crowdedText = .ok crowdedTemplate.toTree := by decide +kernel
  have hinner : (Template.load false ⟨"/d/c.yaml"⟩).Yields crowdedFiles 0
      (.ofResource "Table" (sampleTable "!Sub" "Table")) 0 :=
    Template.load_yields.mpr ⟨_, loadFile_yields.mpr
      ⟨_, _, by decide +kernel, parse_sampleInnerText, rfl, rfl⟩, rfl⟩
  have hunfolds : Unfolds crowdedFiles false (.root ⟨"r.yaml"⟩) 0
      [("ChildTable", .ofType "Custom::Queue"), ("Child", sampleStack)]
      (.keep "ChildTable" (.ofType "Custom::Queue") sampleNesting) 0 :=
    .keep rfl (.stack rfl rfl hinner rfl (.keep rfl .done) .done)
  refine ⟨Template.load_yields.mpr ⟨_, loadFile_yields.mpr
    ⟨_, _, by decide +kernel, houter, rfl, rfl⟩, rfl⟩, ?_⟩
  exact Template.process_yields.mpr (processResources_yields_iff.mpr
    ⟨_, _, rfl, hunfolds, by decide, .cons ⟨rfl, rfl⟩ (.cons ⟨rfl, rfl⟩ .nil)⟩)

/-- The resource of the nested template takes the place of the one with its final name. -/
theorem assemble_last_wins_crowded : ∃ flat kept,
    (flatten false ⟨"r.yaml"⟩ crowdedFiles 0).result = .ok flat ∧
      flat.resources = .ok kept ∧ ¬(crowdedResources.map (·.1)).Nodup ∧
      kept.length < crowdedResources.length := by
  obtain ⟨hload, hprocess⟩ := crowdedFiles_process
  have hflat := (flatten_yields.mpr ⟨_, _, _, hload, hprocess, rfl⟩).1
  have hcrowded : ¬(crowdedResources.map (·.1)).Nodup := by decide
  obtain ⟨-, -, -, hflatten⟩ := assemble_last_wins ⟨[]⟩ []
  obtain ⟨t', m, out, kept, hload', hprocess', hkept, hlost, -⟩ := hflatten _ _ _ _ _ hflat
  obtain ⟨rfl, rfl⟩ := hload.unique hload'
  obtain rfl := Except.ok.inj (hprocess.1.symm.trans hprocess')
  exact ⟨_, kept, hflat, hkept, hcrowded, hlost.mpr hcrowded⟩

end NestedStacks
