/-
The result of the program and where it goes.

The text of the result is complete before anything is written, and it does not depend on where it
goes.  So a run leaves either the whole text at one place or nothing anywhere.

* `Invocation.render_identifiers` — the text of the result in worlds with other identifiers;
* `output_all_or_nothing` — the main statement.
-/
import NestedStacks.Proofs.Command.Endings
import NestedStacks.Proofs.Command.Storing
import NestedStacks.Proofs.Comparing.Identifiers

namespace NestedStacks.Command

/-! ### Work that does not depend on identifiers -/

section

variable {w w' : World} (hsame : w.SameButIdentifiers w')
include hsame

theorem fileExists_identifiers (path : Path) :
    (fileExists path).Alike w w' Eq Eq (fileExists path) := by
  have hread : (Run.read path).Alike w w' Eq Eq (Run.read path) := by
    refine .of_results (fun _ => rfl) (fun _ => rfl) fun _ _ => ?_
    show Results Eq Eq (w.read path) (w'.read path)
    rw [← hsame.read]
    exact .same fun _ _ => rfl
  refine (hread.attempt Eq).bind fun _ r _ r' _ hr => ?_
  obtain rfl := hr.eq
  split
  · exact .pure rfl
  · exact .pure rfl
  · exact .pure rfl

theorem Settings.ofFile_identifiers (path : Path) :
    (Settings.ofFile path).Alike w w' Eq Eq (Settings.ofFile path) := by
  refine .note_bind (.read_bind (hsame.read path) (fun _ _ => rfl) fun text _ => ?_)
  exact .ofExcept (.same fun _ _ => rfl)

theorem Settings.load_identifiers (named : Option Path) :
    (Settings.load named).Alike w w' Eq Eq (Settings.load named) := by
  cases named with
  | some path => exact Settings.ofFile_identifiers hsame path
  | none =>
    refine (fileExists_identifiers hsame _).bind fun _ found _ found' _ hfound => ?_
    subst hfound
    cases found with
    | true => exact Settings.ofFile_identifiers hsame _
    | false => exact .pure rfl

omit hsame in
theorem Marker.run_identifiers (m : Marker) (t : Template) :
    (m.run t).Alike w w' Eq Eq (m.run t) := by
  have hresources : (Run.ofExcept t.resources).Alike w w' Eq Eq (Run.ofExcept t.resources) :=
    .ofExcept (.same fun _ _ => rfl)
  refine hresources.bind fun _ rs _ rs' _ hrs => ?_
  subst hrs
  refine .noteAll_bind ?_
  have hassemble : (t.assemble (m.markAll rs)).Alike w w' Eq Eq (t.assemble (m.markAll rs)) :=
    .noteAll_bind (.pure rfl)
  refine hassemble.bind fun _ marked _ marked' _ hmarked => ?_
  subst hmarked
  exact .note_bind (.pure rfl)

theorem Invocation.transform_identifiers (i : Invocation) (s : Settings) :
    (i.transform s).Alike w w' Eq Eq (i.transform s) := by
  unfold Invocation.transform
  cases i.action with
  | flatten =>
    exact (flatten_identifiers hsame _ _).mapError fun _ _ => congrArg _
  | retain =>
    have hload := (Template.load_identifiers hsame (i.macros.getD s.macros) i.templatePath).mapError
      fun _ _ => congrArg (Failure.loading i.templatePath)
    refine .note_bind (hload.bind fun _ t _ t' _ ht => ?_)
    subst ht
    exact (Marker.run_identifiers _ t).mapError fun _ _ => congrArg _

/-- The text of the result of `i` is found alike in `w` and `w'`. -/
theorem Invocation.render_identifiers (i : Invocation) : i.render.Alike w w' Eq Eq i.render := by
  refine (Settings.load_identifiers hsame _).bind fun _ s _ s' _ hs => ?_
  subst hs
  refine (i.transform_identifiers hsame s).bind fun _ t _ t' _ ht => ?_
  subst ht
  exact .ofExcept (.same fun _ _ => rfl)

end

/-! ### All or nothing -/

/-- `i.printing` is `i` with its result on standard output. -/
def Invocation.printing (i : Invocation) : Invocation := { i with output := none }

/-- **The output of the program is all or nothing, and independent of where it goes.**  Let `i` run
on the files `fs` in `directory`.  If its exit code is not 0, it prints nothing and leaves `fs` as
they were.  If it is 0 and `i.output = some output`, which may be any file, also one that `i` reads,
it prints nothing, and it leaves `fs` with one `text` in the file `output` and everything else as it
was.  This is just the `text` that `i.printing` prints on the same `fs`, in front of the end of the
line.  The two runs may draw from a different `identifier` and `identifier'` if the result needs
none. -/
theorem output_all_or_nothing (i : Invocation) (fs : Files) (directory : Path)
    (identifier identifier' : Nat → String) :
    ((i.runOn fs directory identifier).1.exit ≠ 0 →
      (i.runOn fs directory identifier).1.stdout = "" ∧
        (i.runOn fs directory identifier).2 = fs) ∧
    ∀ output, i.output = some output → (i.runOn fs directory identifier).1.exit = 0 →
      (i.render (fs.world directory identifier) 0).drawn = 0 →
        (i.runOn fs directory identifier).1.stdout = "" ∧
        ∃ text, fs.Stores (directory.join ⟨output⟩) text (i.runOn fs directory identifier).2 ∧
          (i.printing.runOn fs directory identifier').1.exit = 0 ∧
          (i.printing.runOn fs directory identifier').1.stdout = text ++ "\n" ∧
          (i.printing.runOn fs directory identifier').2 = fs := by
  have hends := i.ends_runOn fs directory identifier
  generalize i.runOn fs directory identifier = run at hends ⊢
  refine ⟨fun hexit => ?_, fun output houtput hexit hdrawn => ?_⟩
  · cases hends with
    | failed | unwritten => exact ⟨rfl, rfl⟩
    | printed | stored => exact absurd rfl hexit
  · cases hends with
    | @failed f => exact absurd hexit f.exitCode_ne_zero
    | @unwritten _ output' fault =>
      exact absurd hexit (Failure.writing ⟨output'⟩ fault).exitCode_ne_zero
    | printed _ hnone =>
      rw [houtput] at hnone
      cases hnone
    | @stored text output' fs' hresult houtput' hwrite =>
      obtain rfl : output = output' := Option.some.inj (houtput.symm.trans houtput')
      refine ⟨rfl, text, Files.stores_of_write hwrite, ?_⟩
      -- the work does not look at the file for the result, so it comes to the same text
      have hresult' : (i.printing.render (fs.world directory identifier') 0).result = .ok text := by
        have hsame : (fs.world directory identifier).SameButIdentifiers
            (fs.world directory identifier') := ⟨rfl, rfl, rfl⟩
        have hdraws : (fs.world directory identifier).SameDraws (fs.world directory identifier')
            0 0 (i.render (fs.world directory identifier) 0).drawn := by
          rw [hdrawn]
          exact World.sameDraws_zero 0 0
        obtain ⟨-, hresults⟩ := i.render_identifiers hsame 0 0 fun _ => hdraws
        exact hresults.eq.symm.trans hresult
      have hends' := i.printing.ends_runOn fs directory identifier'
      generalize i.printing.runOn fs directory identifier' = plain at hends' ⊢
      cases hends' with
      | failed hfailed =>
        rw [hresult'] at hfailed
        cases hfailed
      | @printed text' hprinted =>
        obtain rfl : text = text' := Except.ok.inj (hresult'.symm.trans hprinted)
        exact ⟨rfl, rfl, rfl⟩
      | unwritten _ hsome | stored _ hsome => cases hsome

/-- A directory with one template. -/
def singleFile : Files :=
  ⟨[(["d"], .directory), (["d", "t.yaml"], .file (String.toUTF8 "A: 1\n"))]⟩

/-- Flattening the template in place, to plain data. -/
def flattenInPlace : Invocation where
  action := .flatten
  template := "t.yaml"
  macros := none
  format := .json
  output := some "./t.yaml"
  verbose := false
  quiet := false
  logJson := false
  config := none

/-- What the template is flattened to. -/
def singleText : String := "\x7b\n  \"A\": 1,\n  \"Resources\": \x7b\x7d\n\x7d"

/-- The template is flattened in place: its file gets `singleText`, which is printed otherwise. -/
theorem output_all_or_nothing_in_place :
    (flattenInPlace.printing.runOn singleFile ⟨"/d"⟩ fun _ => "x").1.stdout = singleText ++ "\n" ∧
      singleFile.Stores (Path.join ⟨"/d"⟩ ⟨"./t.yaml"⟩) singleText
        (flattenInPlace.runOn singleFile ⟨"/d"⟩ fun _ => "").2 := by
  have hexit : (flattenInPlace.runOn singleFile ⟨"/d"⟩ fun _ => "").1.exit = 0 := by
    decide +kernel
  have hdrawn : (flattenInPlace.render (singleFile.world ⟨"/d"⟩ fun _ => "") 0).drawn = 0 := by
    decide +kernel
  have hprinted : (flattenInPlace.printing.runOn singleFile ⟨"/d"⟩ fun _ => "x").1.stdout =
      singleText ++ "\n" := by
    decide +kernel
  obtain ⟨-, hstores⟩ :=
    output_all_or_nothing flattenInPlace singleFile ⟨"/d"⟩ (fun _ => "") fun _ => "x"
  obtain ⟨-, text, hstored, -, hstdout, -⟩ := hstores "./t.yaml" rfl hexit hdrawn
  obtain rfl : singleText = text := by
    have htexts := congrArg String.toList (hprinted.symm.trans hstdout)
    rw [String.toList_append, String.toList_append] at htexts
    exact String.toList_inj.mp (List.append_cancel_right htexts)
  exact ⟨hprinted, hstored⟩

end NestedStacks.Command
