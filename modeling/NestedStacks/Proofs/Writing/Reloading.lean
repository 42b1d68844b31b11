/-
A document that was written loads back to itself.

Whatever is done to a loaded document leaves no macro to replace and no tag out of order, so that
loading it again has nothing left to do: `reload_made`.

* `Made` — the documents that loading, flattening, processing and marking give;
* `Made.normal` — all of them are as loading leaves documents.
-/
import NestedStacks.Proofs.Editing.TagFaults
import NestedStacks.Proofs.Writing.Standard

namespace NestedStacks

/-- `Made macros t`: the document `t` is made with macros replaced, or with macros left: it is
loaded or flattened, or processing or marking makes it of such a document.  Files may change in
between. -/
inductive Made (macros : Bool) : Tree → Prop
  | text {scope : Scope} {text : String} {w : World} {n : Nat} {t : Tree}
      (h : (loadText macros scope text w n).result = .ok t) : Made macros t
  | file {path : Path} {w : World} {n : Nat} {t : Tree}
      (h : (loadFile macros path w n).result = .ok t) : Made macros t
  | flattened {path : Path} {w : World} {n : Nat} {t : Template}
      (h : (flatten macros path w n).result = .ok t) : Made macros t.toTree
  | processed {tree : Tree} {t t' : Template} {naming : Context} {w : World} {n : Nat}
      (hmade : Made macros tree) (ht : Template.ofTree tree = .ok t)
      (h : ((Action.process macros naming).run t w n).result = .ok t') : Made macros t'.toTree
  | marked {tree : Tree} {t t' : Template} {marker : Marker} {w : World} {n : Nat}
      (hmade : Made macros tree) (ht : Template.ofTree tree = .ok t)
      (h : ((Action.mark marker).run t w n).result = .ok t') : Made macros t'.toTree

variable {macros : Bool} {t : Tree}

theorem flatten_normal {path : Path} {w : World} {n : Nat} {flat : Template}
    (h : (flatten macros path w n).result = .ok flat) : flat.toTree.Normal macros := by
  obtain ⟨t, m, out, hload, hout, rfl⟩ := flatten_yields.mp (Run.yields_of_result h)
  have ht := Template.normal_of_load hload
  exact Template.taggedIn_setResources ht (Template.taggedIn_process id ht hout)

/-- However `t` was made, loading can leave it as it is. -/
theorem Made.normal (h : Made macros t) : t.Normal macros := by
  induction h with
  | text h => exact loadText_normal h
  | file h => exact loadFile_normal h
  | flattened h => exact flatten_normal h
  | processed _ ht h ih =>
    refine Action.taggedIn_run ?_ (Template.taggedIn_of_ofTree ih ht) h
    rintro _ _ ⟨rfl, rfl⟩ tree htree
    exact htree
  | marked _ ht h ih =>
    refine Action.taggedIn_run ?_ (Template.taggedIn_of_ofTree ih ht) h
    rintro _ _ ⟨⟩

/-- Loading a `text` that is read as `raw`, which is the document `t` in order but for exclamation
marks, only puts the marks back. -/
theorem loadText_standard {text : String} {raw : Tree} (ht : t.Normal macros)
    (hparse : Markup.parse text = .ok raw) (hraw : t.SameText raw) (scope : Scope) (w : World)
    (n : Nat) : loadText macros scope text w n = ⟨[], .ok raw.standard⟩ := by
  have hload : raw.load (resolver? macros w.depth scope) = pure raw.standard :=
    Tree.TaggedIn.load_standard ht (fun _ => Tree.resolver?_left.mp) hraw
  have h : loadWith (resolver? macros w.depth scope) text = pure raw.standard := by
    rw [loadWith, hparse, ← hload]
    rfl
  rw [loadText_run, h, Run.pure_run]

/-- **A document that was written loads back to itself.**  Let the document `t` be made in any way,
let `text` be what is written for it, and let `text` be read as `raw`, which is `t` up to the
exclamation marks in front of tags.  Then loading `text` in any `scope` and in any world `w` takes
no steps and gives one document `t'`.  It is `t`, only that marks inside keys, which loading does
not look at, stay as they were read; its text is `text` again, and it has the plain data of `t`. -/
theorem reload_made {text : String} {raw : Tree} (hmade : Made macros t)
    (htext : Markup.print t = some text) (hparse : Markup.parse text = .ok raw)
    (hraw : t.SameText raw) :
    ∃ t', t.SameValue t' ∧ (t.BareKeys → raw.BareKeys → t' = t) ∧
      Markup.print t' = some text ∧ t'.toData = t.toData ∧
      ∀ (scope : Scope) (w : World) (n : Nat), loadText macros scope text w n = ⟨[], .ok t'⟩ := by
  have hnormal := hmade.normal
  have hsame := Tree.TaggedIn.sameValue_standard hnormal hraw
  refine ⟨raw.standard, hsame, fun ht hr => hsame.eq_of_bareKeys ht hr.respell, ?_, ?_,
    loadText_standard hnormal hparse hraw⟩
  · rw [← Markup.print_congr hsame.sameText, htext]
  · exact (Tree.WellTagged.toData_congr hnormal.wellTagged hsame).symm

/-- The text of the flattened sample. -/
def sampleFlatText : String :=
  "Resources:\n  ChildTable:\n    Type: Custom::Table\n" ++
    "    Properties:\n      Name: !Sub ${ChildTable.Arn}-a\n"

open Markup in
theorem print_sampleFlat :
    Markup.print (Template.ofResource "ChildTable" (sampleTable "!Sub" "ChildTable")).toTree =
      some sampleFlatText := by
  have hfits : ∀ s ∈ ["Resources", "ChildTable", "Type", "Properties", "Name"],
      keyFits (.str s) = true ∧ chooseStyle s = .plain := by decide +kernel
  simp only [List.mem_cons, List.not_mem_nil, or_false, forall_eq_or_imp, forall_eq] at hfits
  -- printing does not reduce by itself, so its equations take the document apart
  simp only [Template.ofResource, sampleTable, Template.toTree, Resource.toTree, Markup.print,
    hasText, entriesHaveText, payloadHasText, isTagged, looksLikeTag, printNode, printKey,
    printEntries, printShort, scalarText, hfits]
  decide +kernel

/-- The flattened sample loads back to itself, with its tag. -/
theorem reload_flattened_table : ∃ flat : Template,
    (flatten false ⟨"r.yaml"⟩ sampleFiles 0).result = .ok flat ∧
      Markup.print flat.toTree = some sampleFlatText ∧
      ∀ (scope : Scope) (w : World) (n : Nat),
        loadText false scope sampleFlatText w n = ⟨[], .ok flat.toTree⟩ := by
  have hparse : Markup.parse sampleFlatText =
      .ok (Template.ofResource "ChildTable" (sampleTable "Sub" "ChildTable")).toTree := by
    decide +kernel
  obtain ⟨t', -, heq, -, -, hload⟩ :=
    reload_made (.flattened sampleFiles_flatten) print_sampleFlat hparse rfl
  obtain rfl := heq rfl rfl
  exact ⟨_, sampleFiles_flatten, print_sampleFlat, hload⟩

end NestedStacks
