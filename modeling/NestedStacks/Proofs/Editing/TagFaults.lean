/-
No action finds fault with a tag of a template in order.

The renaming of references checks every tag anew, so it could fail anywhere in a template.  On a
template in order it does not, and all templates that come from a loaded one are in order:
`tags_stay_in_order`.

* `StackError.BlamesTag` — the errors about tags;
* `EndsInLoading` — work that fails while it loads a file;
* `failsWith_process`, `Action.failsWith_run` — errors about tags come from files that are loaded.
-/
import NestedStacks.Proofs.Editing.Actions
import NestedStacks.Proofs.Template.Faults

namespace NestedStacks

/-- `e.BlamesTag`: `e` is about a tag, which is in no catalog or stands on a wrong payload. -/
def StackError.BlamesTag : StackError → Prop
  | .document (.shape _ _) | .document (.unknownTag _) => True
  | _ => False

/-- `EndsInLoading w macros e steps`: the error `e` and the last ones of `steps` are those of
loading some file in `w`. -/
def EndsInLoading (w : World) (macros : Bool) (e : StackError) (steps : List Step) : Prop :=
  ∃ path k d before, e = .document d ∧ (loadFile macros path w k).result = .error d ∧
    steps = before ++ (loadFile macros path w k).steps

/-- `BlamesFiles w macros e steps`: if `e` is about a tag, it comes from loading a file. -/
def BlamesFiles (w : World) (macros : Bool) (e : StackError) (steps : List Step) : Prop :=
  e.BlamesTag → EndsInLoading w macros e steps

variable {w : World} {macros : Bool} {ctx : Context} {n n' : Nat} {t t' : Template}

theorem BlamesFiles.after (e : StackError) (before steps : List Step)
    (h : BlamesFiles w macros e steps) : BlamesFiles w macros e (before ++ steps) := by
  intro he
  obtain ⟨path, k, d, front, hd, hload, rfl⟩ := h he
  exact ⟨path, k, d, before ++ front, hd, hload, by rw [List.append_assoc]⟩

theorem StackError.AboutTemplate.not_blamesTag {e : StackError} (h : e.AboutTemplate) :
    ¬e.BlamesTag := by
  intro hblames
  unfold StackError.BlamesTag at hblames
  split at hblames
  · exact h
  · exact h
  · exact hblames

/-! ### Processing -/

theorem failsWith_ofExcept {α : Type} {r : Except StackError α}
    (h : ∀ e, r = .error e → e.AboutTemplate) :
    Run.FailsWith w (BlamesFiles w macros) (Run.ofExcept r) :=
  .ofExcept fun e he hblames => absurd hblames (h e he).not_blamesTag

/-- Loading the template at `path` fails with an error about a tag only in the file. -/
theorem failsWith_load (path : Path) :
    Run.FailsWith w (BlamesFiles w macros) (Template.load macros path) := by
  refine .bind BlamesFiles.after ?_ fun _ _ _ =>
    failsWith_ofExcept fun _ => Template.aboutTemplate_ofTree
  intro n e h _
  obtain ⟨d, hd, rfl⟩ := Except.mapError_eq_error.mp h
  exact ⟨path, n, d, [], rfl, hd, rfl⟩

theorem failsWith_renameResource {r : Resource} (hr : r.toTree.WellTagged) (name : String) :
    Run.FailsWith w (BlamesFiles w macros) (renameResource ctx name r) := by
  obtain ⟨r', hr', -⟩ := Resource.exists_retarget hr ctx
  refine .bind BlamesFiles.after (.of_ok fun _ => ⟨r', by simp [hr', Except.mapError]⟩) ?_
  intro _ changed _
  split
  · exact .of_ok fun _ => ⟨_, rfl⟩
  · exact .pure _

/-- Processing a well tagged `t` fails with an error about a tag only in a file.  The induction is
on the number of templates that may still stand below `t`. -/
theorem failsWith_process (depth : Nat) (ht : t.toTree.WellTagged) (ctx : Context) :
    Run.FailsWith w (BlamesFiles w macros) (processResources macros depth t ctx) := by
  induction depth using Nat.strongRecOn generalizing t ctx with
  | ind depth ih =>
    rw [processResources_eq]
    refine .bind BlamesFiles.after (failsWith_ofExcept fun _ => Template.aboutTemplate_resources) ?_
    intro _ rs hrs
    refine .bind BlamesFiles.after (.mapM BlamesFiles.after ?_) fun _ _ _ => .pure _
    intro entry hentry
    have hin := Template.taggedIn_resources ht hrs entry hentry
    unfold contribution
    split
    · -- a stack: nothing fails over a tag until the template that it stands for is loaded
      refine .bind BlamesFiles.after (.of_ok fun _ => ⟨_, rfl⟩) fun _ directory _ => ?_
      refine .bind BlamesFiles.after
        (failsWith_ofExcept fun _ => Resource.aboutTemplate_nestedContext) ?_
      rintro _ ⟨kind, path, naming⟩ -
      cases depth with
      | zero =>
        refine .ofExcept fun e he hblames => ?_
        cases he
        exact hblames.elim
      | succ depth =>
        refine .bind BlamesFiles.after (.of_ok fun _ => ⟨_, rfl⟩) fun _ _ _ => ?_
        refine .bind BlamesFiles.after (failsWith_load path) fun _ template hload => ?_
        -- and what was loaded is in order again
        have htemplate := Template.normal_of_load (Run.yields_of_result hload)
        exact ih depth (Nat.lt_succ_self depth) htemplate.wellTagged naming
    · exact .bind BlamesFiles.after (failsWith_renameResource hin _) fun _ _ _ => .pure _

/-! ### Actions -/

theorem failsWith_mark (m : Marker) :
    Run.FailsWith w (fun e _ => ¬e.BlamesTag) (m.run t) := by
  refine .bind (fun _ _ _ h => h)
    (.ofExcept fun _ h => (Template.aboutTemplate_resources h).not_blamesTag) ?_
  exact fun _ rs _ => .of_ok fun _ => ⟨_, rfl⟩

/-- An action `a` on a well tagged `t` fails with an error about a tag only when it processes `t`,
and then in a file that it loads. -/
theorem Action.failsWith_run (ht : t.toTree.WellTagged) (a : Action) :
    Run.FailsWith w (fun e steps => e.BlamesTag →
      ∃ macros naming, a = .process macros naming ∧ EndsInLoading w macros e steps) (a.run t) := by
  cases a with
  | mark m =>
    intro n e h hblames
    exact absurd hblames (failsWith_mark m n e h)
  | process macros naming =>
    have hprocess : Run.FailsWith w (BlamesFiles w macros) (t.process macros naming) :=
      .bind BlamesFiles.after (.of_ok fun _ => ⟨_, rfl⟩) fun _ depth _ =>
        failsWith_process depth ht naming
    have hrun : Run.FailsWith w (BlamesFiles w macros) ((Action.process macros naming).run t) :=
      .bind BlamesFiles.after hprocess fun _ _ _ => .of_ok fun _ => ⟨_, rfl⟩
    exact fun n e h hblames => ⟨macros, naming, rfl, hrun n e h hblames⟩

/-- **Tags stay in order.**  Let `t` be loaded from some `text`, and let `t'` come from `t` by
finitely many actions.  Then `t'` is well tagged.  So an action `a` on `t'` fails with an error `e`
about a tag only if `a` is processing and the failure is one of loading another file; the properties
`p` of each resource of `t'` can be renamed under any `naming`; and `t'` has plain data, unless the
error is about a key that has no form there. -/
theorem tags_stay_in_order {scope : Scope} {text : String} {tree : Tree}
    (htree : (loadText macros scope text w n).result = .ok tree)
    (ht : Template.ofTree tree = .ok t) (hreach : Reaches t t') :
    t'.toTree.WellTagged ∧
      (∀ (a : Action) (w' : World) (k : Nat) (e : StackError), ((a.run t') w' k).result = .error e →
        e.BlamesTag → ∃ macros' naming, a = .process macros' naming ∧
          EndsInLoading w' macros' e ((a.run t') w' k).steps) ∧
      (∀ rs, t'.resources = .ok rs → ∀ entry ∈ rs, ∀ p, entry.2.properties? = some p →
        ∀ naming, ∃ p', p.retarget naming = .ok p') ∧
      ∀ e, t'.data = .error e → ∃ found, e = .document (.invalidKey found) := by
  have hstart : t.toTree.WellTagged :=
    Template.taggedIn_of_ofTree (loadText_normal htree).wellTagged ht
  have hin := hreach.wellTagged hstart
  refine ⟨hin, fun a w' k e h => Action.failsWith_run hin a k e h, ?_, ?_⟩
  · intro rs hrs entry hentry p hp naming
    obtain ⟨p', hp', -⟩ :=
      ((Template.taggedIn_resources hin hrs entry hentry).get? hp).retarget naming
    exact ⟨p', hp'⟩
  · intro e he
    obtain ⟨d, hd, rfl⟩ := Except.mapError_eq_error.mp he
    obtain ⟨found, rfl⟩ := Tree.WellTagged.toData_eq_error hin hd
    exact ⟨found, rfl⟩

/-- The table of the sample is renamed and then marked. -/
theorem tags_stay_in_order_table : ∃ tree t t',
    (loadText true .here sampleInnerText sampleFiles 0).result = .ok tree ∧
      Template.ofTree tree = .ok t ∧ Reaches t t' ∧ t'.toTree.WellTagged ∧
      ∀ e, t'.data = .error e → ∃ found, e = .document (.invalidKey found) := by
  have htree : (loadText true .here sampleInnerText sampleFiles 0).result =
      .ok (Template.ofResource "Table" (sampleTable "!Sub" "Table")).toTree :=
    (loadText_yields.mpr ⟨_, parse_sampleInnerText, rfl, rfl⟩).1
  have hprocess : ((Action.process true (.nested ⟨"/d/c.yaml"⟩ [] "Child")).run
      (.ofResource "Table" (sampleTable "!Sub" "Table")) sampleFiles 0).result =
        .ok (.ofResource "ChildTable" (sampleTable "!Sub" "ChildTable")) := rfl
  have hmark : ((Action.mark (Marker.standard.withTypes ["Custom::Table"])).run
      (.ofResource "ChildTable" (sampleTable "!Sub" "ChildTable")) sampleFiles 0).result =
        .ok (.ofResource "ChildTable"
          ((sampleTable "!Sub" "ChildTable").setDeletionPolicy "Retain")) := rfl
  have hreach := Reaches.step _ (.step _ .refl hprocess) hmark
  obtain ⟨hin, -, -, hdata⟩ := tags_stay_in_order htree rfl hreach
  exact ⟨_, _, _, htree, rfl, hreach, hin, hdata⟩

end NestedStacks
