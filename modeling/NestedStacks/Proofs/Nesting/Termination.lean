/-
Flattening comes to an end.

Templates lead to templates by the locations of stacks, and files to files by the macros that
include documents.  Where neither graph leads back to a place that it has left, each step leaves
fewer files to come, so that the bounds on nesting and on includes are never met:
`flatten_terminates`.

* `World.Nests`, `World.Includes` — the two graphs;
* `World.Acyclic`, `World.reached`, `World.ncard_reached_lt` — the measure;
* `resolveMacro_settles`, `Template.load_settles`, `processResources_settles` — two runs whose
  bounds are above the measure go alike.
-/
import Mathlib.Data.Set.Card
import Mathlib.Logic.Relation
import NestedStacks.Proofs.Comparing.Flattening
import NestedStacks.Proofs.Locating.Files
import NestedStacks.Proofs.Nesting.Listing

namespace NestedStacks

open Relation (ReflTransGen TransGen)

/-- `w.within depth`: the world `w` with the bound `depth`. -/
def World.within (w : World) (depth : Nat) : World := { w with depth }

/-- The normal paths of the files of `w`. -/
def World.files (w : World) : Set Path := {f | f.normal = f ∧ ∃ text, w.lookup f = .ok text}

/-- `w.Nests macros p q`: a resource of the template at `p` stands for the template at `q`, whatever
identifiers were drawn before. -/
def World.Nests (w : World) (macros : Bool) (p q : Path) : Prop :=
  ∃ includes n t n' rs e location, (Template.load macros p).Yields (w.within includes) n t n' ∧
    t.resources = .ok rs ∧ e ∈ rs ∧ e.2.needsFlattening = true ∧ e.2.location? = some location ∧
      q = Path.locate w.workingDirectory p location

/-- `w.Includes p q`: a macro in the file at `p` includes the document at `q`. -/
def World.Includes (w : World) (p q : Path) : Prop :=
  ∃ text raw place payload argument, w.read p = .ok text ∧ Markup.parse text = .ok raw ∧
    raw.MacroAt place .includeJson payload ∧ TaggedNode.scalarText? payload = some argument ∧
      q = (Scope.ofFile p).resolve (Text.trim argument)

/-- `w.Acyclic R p`: no path `q` that steps of `R` from `p` lead to leads back to its own place. -/
def World.Acyclic (w : World) (R : Path → Path → Prop) (p : Path) : Prop :=
  ∀ q r, TransGen R p q → TransGen R q r → w.place r ≠ w.place q

/-- `w.reached R p`: the files of `w` that steps of `R` from `p` lead to. -/
def World.reached (w : World) (R : Path → Path → Prop) (p : Path) : Set Path :=
  {f ∈ w.files | ∃ q, TransGen R p q ∧ w.place q = f}

namespace World

variable {w : World} {R : Path → Path → Prop} {p q : Path}

theorem read_within (w : World) (depth : Nat) (p : Path) : (w.within depth).read p = w.read p := rfl

theorem place_mem_files (hw : w.Lexical) {text : String} (h : w.read p = .ok text) :
    w.place p ∈ w.files :=
  ⟨Path.normal_normal _, text, lookup_of_read hw h⟩

theorem Acyclic.of_step (h : w.Acyclic R p) (hstep : R p q) : w.Acyclic R q := by
  intro r s hr hs
  exact h r s (.head hstep hr) hs

theorem ncard_reached_le (hfinite : w.files.Finite) (p : Path) :
    (w.reached R p).ncard ≤ w.files.ncard :=
  Set.ncard_le_ncard (Set.sep_subset _ _) hfinite

/-- A step from `p` to a file `q` leaves fewer files to come. -/
theorem ncard_reached_lt (hfinite : w.files.Finite) (hacyclic : w.Acyclic R p) (hstep : R p q)
    (hfile : w.place q ∈ w.files) : (w.reached R q).ncard < (w.reached R p).ncard := by
  have hsubset : w.reached R q ⊆ w.reached R p := by
    rintro f ⟨hf, r, hr, hplace⟩
    exact ⟨hf, r, .head hstep hr, hplace⟩
  have hmem : w.place q ∈ w.reached R p := ⟨hfile, q, .single hstep, rfl⟩
  have hnot : w.place q ∉ w.reached R q := by
    rintro ⟨-, r, hr, hplace⟩
    exact hacyclic q r (.single hstep) hr hplace
  have hsmaller : w.reached R q ⊂ w.reached R p :=
    (Set.ssubset_iff_of_subset hsubset).mpr ⟨w.place q, hmem, hnot⟩
  exact Set.ncard_lt_ncard hsmaller (hfinite.subset (Set.sep_subset _ _))

end World

/-! ### Errors of the bounds -/

/-- `e.Endless`: `e` says that there was no end. -/
def DocumentError.Endless : DocumentError → Prop
  | .endlessInclude _ => True
  | _ => False

/-- `e.Endless`: `e` says that there was no end. -/
def StackError.Endless : StackError → Prop
  | .endlessNesting _ => True
  | .document e => e.Endless
  | _ => False

/-- `e.Settled e'`: `e` and `e'` are one error, and not over a bound. -/
def DocumentError.Settled (e e' : DocumentError) : Prop := e = e' ∧ ¬e.Endless

/-- `e.Settled e'`: `e` and `e'` are one error, and not over a bound. -/
def StackError.Settled (e e' : StackError) : Prop := e = e' ∧ ¬e.Endless

theorem settled_errorsAgree : ErrorsAgree DocumentError.Settled StackError.Settled where
  document e he := by
    refine ⟨rfl, fun h => ?_⟩
    cases e <;> first | exact h | cases he
  stack e he := by
    refine ⟨rfl, fun h => ?_⟩
    cases e with
    | document e => cases e <;> first | exact h | cases he
    | endlessNesting => cases he
    | _ => exact h
  inside e e' h := ⟨congrArg StackError.document h.1, h.2⟩

theorem DocumentError.not_endless_ofFault (p : Path) (fault : FileFault) :
    ¬(ofFault p fault).Endless := by
  cases fault <;> exact id

section

variable {w : World} (hw : w.Lexical) (hfinite : w.files.Finite)
include hw hfinite

/-! ### Includes -/

/-- Two bounds `depth` and `depth'` that are no less than the number of files that includes lead to
do not matter for a macro `m`. -/
theorem resolveMacro_settles {p : Path} (hacyclic : w.Acyclic w.Includes p) {depth depth' : Nat}
    (hdepth : (w.reached w.Includes p).ncard ≤ depth)
    (hdepth' : (w.reached w.Includes p).ncard ≤ depth') (k k' : Nat) {m : MacroTag}
    {argument : String}
    (hincludes : m = .includeJson → w.Includes p ((Scope.ofFile p).resolve (Text.trim argument))) :
    (resolveMacro depth (.ofFile p) m argument).Alike (w.within k) (w.within k')
      DocumentError.Settled Eq (resolveMacro depth' (.ofFile p) m argument) := by
  -- each document that is included leads to fewer files
  induction hcount : (w.reached w.Includes p).ncard using Nat.strong_induction_on
    generalizing p depth depth' m argument with
  | _ count ih =>
    rw [resolveMacro_eq_via, resolveMacro_eq_via]
    refine includeVia_alike settled_errorsAgree.document ?_ ?_ ?_
    · intro file text n t n' hyields
      exact wellTagged_includedDocument hyields
    · intro _
      exact ⟨rfl, fun fault _ => ⟨rfl, DocumentError.not_endless_ofFault _ fault⟩⟩
    · intro hm _ text hread
      have hstep := hincludes hm
      have hfewer := World.ncard_reached_lt hfinite hacyclic hstep (World.place_mem_files hw hread)
      obtain ⟨d, rfl⟩ : ∃ d, depth = d + 1 := Nat.exists_eq_add_one.mpr (by omega)
      obtain ⟨d', rfl⟩ : ∃ d', depth' = d' + 1 := Nat.exists_eq_add_one.mpr (by omega)
      refine loadWith_alike settled_errorsAgree.document fun raw hraw => ?_
      intro place m' payload argument' hmacro hargument
      refine ih _ (hcount ▸ hfewer) (hacyclic.of_step hstep) (by omega) (by omega) ?_ rfl
      rintro rfl
      exact ⟨text, raw, place, payload, argument', hread, hraw, hmacro, hargument, rfl⟩

/-! ### Templates -/

/-- Two bounds `k` and `k'` that are no less than the number of files do not matter for loading the
template at `p`. -/
theorem Template.load_settles {macros : Bool} {p : Path}
    (hacyclic : macros = true → w.Acyclic w.Includes p) {k k' : Nat} (hk : w.files.ncard ≤ k)
    (hk' : w.files.ncard ≤ k') :
    (Template.load macros p).Alike (w.within k) (w.within k') StackError.Settled Eq
      (Template.load macros p) := by
  have hcount := World.ncard_reached_le (R := w.Includes) hfinite p
  refine Template.load_alike settled_errorsAgree rfl ?_ fun text raw hread hraw => ?_
  · intro fault _
    exact ⟨rfl, DocumentError.not_endless_ofFault p fault⟩
  · cases macros with
    | false => exact trivial
    | true =>
      intro place m payload argument hmacro hargument
      refine resolveMacro_settles hw hfinite (hacyclic rfl) (hcount.trans hk) (hcount.trans hk')
        k k' ?_
      rintro rfl
      exact ⟨text, raw, place, payload, argument, hread, hraw, hmacro, hargument, rfl⟩

/-- Two bounds `depth` and `depth'` above the number of files that templates lead to do not matter
for the resources that `t` comes to. -/
theorem processResources_settles {macros : Bool} {p : Path} (hnests : w.Acyclic (w.Nests macros) p)
    (hincludes : macros = true → ∀ q, TransGen (w.Nests macros) p q → w.Acyclic w.Includes q)
    {k k' : Nat} (hk : w.files.ncard ≤ k) (hk' : w.files.ncard ≤ k') {depth depth' : Nat}
    (hdepth : (w.reached (w.Nests macros) p).ncard < depth)
    (hdepth' : (w.reached (w.Nests macros) p).ncard < depth') {n n' : Nat} {t : Template}
    (hload : (Template.load macros p).Yields (w.within k) n t n') {ctx : Context}
    (hlocation : ctx.location = some p) :
    (processResources macros depth t ctx).Alike (w.within k) (w.within k') StackError.Settled Eq
      (processResources macros depth' t ctx) := by
  induction hcount : (w.reached (w.Nests macros) p).ncard using Nat.strong_induction_on
    generalizing p depth depth' n n' t ctx with
  | _ count ih =>
    obtain ⟨d, rfl⟩ : ∃ d, depth = d + 1 := Nat.exists_eq_add_one.mpr (by omega)
    obtain ⟨d', rfl⟩ : ∃ d', depth' = d' + 1 := Nat.exists_eq_add_one.mpr (by omega)
    rw [processResources_eq_inside, processResources_eq_inside]
    have hwell := (Template.normal_of_load hload).wellTagged
    refine processVia_alike settled_errorsAgree ⟨fun _ => rfl, rfl⟩ hwell (fun _ _ _ _ _ => rfl) ?_
    intro rs hrs e he hneeds kind q naming hnaming
    obtain ⟨master, location, hmaster, htext, hlocate⟩ :=
      (Resource.standsIn_of_nestedContext hneeds hnaming).inside
    obtain ⟨_, _, bindings, -, -, -, -, -, rfl⟩ := Resource.nestedContext_eq_ok.mp hnaming
    obtain rfl : p = master := Option.some.inj (hlocation.symm.trans hmaster)
    have hstep : w.Nests macros p q :=
      ⟨k, n, t, n', rs, e, location, hload, hrs, he, hneeds, htext, Option.some.inj hlocate⟩
    refine templateInside_alike ?_ fun m inner m' hinner => ?_
    · exact Template.load_settles hw hfinite (fun hm => hincludes hm q (.single hstep)) hk hk'
    · obtain ⟨text, hread⟩ := Template.read_of_load hinner
      have hfewer := World.ncard_reached_lt hfinite hnests hstep (World.place_mem_files hw hread)
      refine ih _ (hcount ▸ hfewer) (hnests.of_step hstep) ?_ (by omega) (by omega) hinner rfl rfl
      intro hm r hr
      exact hincludes hm r (.head hstep hr)

/-- Bounds above the numbers of files do not matter for flattening from `p`, and none of them is
met. -/
theorem flattenWithin_settles {macros : Bool} {p : Path} (hnests : w.Acyclic (w.Nests macros) p)
    (hincludes : macros = true → ∀ q, ReflTransGen (w.Nests macros) p q → w.Acyclic w.Includes q)
    {k k' : Nat} (hk : w.files.ncard ≤ k) (hk' : w.files.ncard ≤ k') {depth depth' : Nat}
    (hdepth : (w.reached (w.Nests macros) p).ncard < depth)
    (hdepth' : (w.reached (w.Nests macros) p).ncard < depth') (n : Nat) :
    (flattenWithin macros depth' p (w.within k') n).result =
        (flattenWithin macros depth p (w.within k) n).result ∧
      ∀ e, (flattenWithin macros depth p (w.within k) n).result = .error e → ¬e.Endless := by
  have halike : (flattenWithin macros depth p).Alike (w.within k) (w.within k')
      StackError.Settled Eq (flattenWithin macros depth' p) := by
    refine flattenWithin_alike ?_ fun n t m hload => ?_
    · exact Template.load_settles hw hfinite (fun hm => hincludes hm p .refl) hk hk'
    · refine processResources_settles hw hfinite hnests ?_ hk hk' hdepth hdepth' hload rfl
      intro hm q hq
      exact hincludes hm q hq.to_reflTransGen
  exact halike.result_eq (World.SameDraws.refl rfl n _)

end

/-- **Flattening comes to an end.**  Let `w` have finitely many files, let nesting not lead back to
a place from `path`, and, if `macros` are replaced, let inclusion not lead back from any template
that nesting leads to.  Then flattening from `path` has one `result`, a template or an error that is
not `Endless`, for every bound above `w.files.ncard`.  The templates stand in one another no deeper
than `(w.reached (w.Nests macros) path).ncard + 1`, and the documents that are included no deeper
than `w.files.ncard`. -/
theorem flatten_terminates {w : World} (hw : w.Lexical) (hfinite : w.files.Finite) {macros : Bool}
    {path : Path} (hnests : w.Acyclic (w.Nests macros) path)
    (hincludes : macros = true →
      ∀ q, ReflTransGen (w.Nests macros) path q → w.Acyclic w.Includes q) (n : Nat) :
    ∃ result, (∀ e, result = .error e → ¬e.Endless) ∧
      (∀ depth includes, (w.reached (w.Nests macros) path).ncard + 1 ≤ depth →
        w.files.ncard ≤ includes →
          (flattenWithin macros depth path (w.within includes) n).result = result) ∧
      ∀ bound, w.files.ncard + 1 ≤ bound →
        (flatten macros path (w.within bound) n).result = result := by
  have hcount := World.ncard_reached_le (R := w.Nests macros) hfinite path
  have hleast := Nat.lt_succ_self (w.reached (w.Nests macros) path).ncard
  refine ⟨(flattenWithin macros ((w.reached (w.Nests macros) path).ncard + 1) path
    (w.within w.files.ncard) n).result, ?_, ?_, ?_⟩
  · exact (flattenWithin_settles hw hfinite hnests hincludes le_rfl le_rfl hleast hleast n).2
  · intro depth includes hdepth hbound
    exact (flattenWithin_settles hw hfinite hnests hincludes le_rfl hbound hleast hdepth n).1
  · intro bound hbound
    have hincluded : w.files.ncard ≤ bound := by omega
    have hnested : (w.reached (w.Nests macros) path).ncard < bound := by omega
    rw [flatten_eq_within]
    exact (flattenWithin_settles hw hfinite hnests hincludes le_rfl hincluded hleast hnested n).1

/-! ### A sample -/

theorem World.files_ofTexts_subset {directory : Path} {texts : List (Path × String)} {depth : Nat} :
    (ofTexts directory texts depth).files ⊆ (texts.map Prod.fst).toFinset := by
  rintro f ⟨hnormal, text, hlookup⟩
  have hmem := mem_of_lookup_ofTexts hlookup
  rw [hnormal] at hmem
  exact List.mem_toFinset.mpr (List.mem_map_of_mem hmem)

/-- There is no cycle where the first step of `R` from `p` leads to an end. -/
theorem World.Acyclic.of_ends {w : World} {R : Path → Path → Prop} {p : Path}
    (h : ∀ q, R p q → ∀ r, ¬R q r) : w.Acyclic R p := by
  intro q r hq hr
  obtain ⟨first, hfirst, hbehind⟩ := TransGen.head'_iff.mp hq
  obtain ⟨second, hsecond, -⟩ := TransGen.head'_iff.mp hr
  rcases hbehind.cases_head with rfl | ⟨next, hnext, -⟩
  · exact absurd hsecond (h _ hfirst second)
  · exact absurd hnext (h first hfirst next)

/-- The text of a template that includes the document of its nested template. -/
def includingText : String :=
  "Description: !IncludeJsonStringFromYamlFile c.yaml\n" ++ sampleOuterText

/-- The text of the nested template. -/
def includedText : String := "Resources:\n  Table:\n    Type: Custom::Table\n"

/-- The two files. -/
def includingFiles : World :=
  .ofTexts ⟨"/d"⟩ [(⟨"/d/r.yaml"⟩, includingText), (⟨"/d/c.yaml"⟩, includedText)] 3

theorem parse_includedText : Markup.parse includedText =
    .ok (Template.ofResource "Table" (.ofType "Custom::Table")).toTree := by
  decide +kernel

theorem parse_includingText : Markup.parse includingText =
    .ok (.map [(.str "Description", .tagged "IncludeJsonStringFromYamlFile" (.str "c.yaml")),
      (.str "Resources", .map [(.str "Child", sampleStack.toTree)])]) := by
  decide +kernel

/-- The nested template leads nowhere. -/
theorem not_nests_of_includedText {p q : Path} (hread : includingFiles.read p = .ok includedText) :
    ¬includingFiles.Nests true p q := by
  rintro ⟨k, n, t, n', rs, e, location, hload, hrs, he, hneeds, -, -⟩
  obtain ⟨tree, htree, ht⟩ := Template.load_yields.mp hload
  obtain ⟨text, raw, hread', hparse, hraw⟩ := loadFile_yields.mp htree
  rw [World.read_within, hread] at hread'
  obtain rfl := Except.ok.inj hread'
  rw [parse_includedText] at hparse
  obtain rfl := Except.ok.inj hparse
  obtain ⟨rfl, -⟩ := hraw.unique ⟨rfl, rfl⟩
  obtain rfl := Except.ok.inj ht
  obtain rfl := Except.ok.inj hrs
  obtain rfl := List.mem_singleton.mp he
  cases hneeds

theorem not_includes_of_includedText {p q : Path}
    (hread : includingFiles.read p = .ok includedText) : ¬includingFiles.Includes p q := by
  rintro ⟨text, raw, place, payload, argument, hread', hparse, hmacro, -, -⟩
  rw [hread] at hread'
  obtain rfl := Except.ok.inj hread'
  rw [parse_includedText] at hparse
  obtain rfl := Except.ok.inj hparse
  have htags : (Template.ofResource "Table" (.ofType "Custom::Table")).toTree.TaggedIn
      fun _ => False :=
    .map (List.forall_mem_singleton.mpr (.map (List.forall_mem_singleton.mpr
      (.map (List.forall_mem_singleton.mpr (.str _))))))
  exact htags.not_macroAt (fun _ h => h.elim) hmacro

theorem includingFiles_read : includingFiles.read ⟨"r.yaml"⟩ = .ok includingText := by
  decide +kernel

theorem eq_of_nests {q : Path} (h : includingFiles.Nests true ⟨"r.yaml"⟩ q) :
    q = ⟨"/d/c.yaml"⟩ := by
  obtain ⟨k, n, t, n', rs, e, location, hload, hrs, he, hneeds, hlocation, rfl⟩ := h
  obtain ⟨tree, htree, ht⟩ := Template.load_yields.mp hload
  obtain ⟨text, raw, hread, hparse, hraw⟩ := loadFile_yields.mp htree
  rw [World.read_within, includingFiles_read] at hread
  obtain rfl := Except.ok.inj hread
  rw [parse_includingText] at hparse
  obtain rfl := Except.ok.inj hparse
  -- whatever the description becomes, the resources stay as they are
  obtain ⟨entries, rfl, hentries⟩ := Tree.load_map_eq_ok hraw.1
  obtain ⟨⟨key, description⟩, rest, ⟨hkey, -⟩, hrest, rfl⟩ := List.forall₂_cons_left_iff.mp hentries
  obtain ⟨⟨key', resources⟩, rest', ⟨hkey', m, hresources⟩, hrest', rfl⟩ :=
    List.forall₂_cons_left_iff.mp hrest
  obtain rfl := List.forall₂_nil_left_iff.mp hrest'
  obtain rfl : key = .str "Description" := hkey
  obtain rfl : key' = .str "Resources" := hkey'
  obtain rfl : .map [(.str "Child", sampleStack.toTree)] = resources := Except.ok.inj hresources
  obtain rfl := Except.ok.inj ht
  obtain rfl : [("Child", sampleStack)] = rs := Except.ok.inj hrs
  obtain rfl := List.mem_singleton.mp he
  obtain rfl : "c.yaml" = location := Option.some.inj hlocation
  decide +kernel

theorem eq_of_includes {q : Path} (h : includingFiles.Includes ⟨"r.yaml"⟩ q) :
    q = ⟨"./c.yaml"⟩ := by
  obtain ⟨text, raw, place, payload, argument, hread, hparse, hmacro, hargument, rfl⟩ := h
  rw [includingFiles_read] at hread
  obtain rfl := Except.ok.inj hread
  rw [parse_includingText] at hparse
  obtain rfl := Except.ok.inj hparse
  have htags : (Tree.map [(.str "Child", sampleStack.toTree)]).TaggedIn fun _ => False := by
    refine .map (List.forall_mem_singleton.mpr (.map (List.forall_mem_cons.mpr ⟨.str _, ?_⟩)))
    exact List.forall_mem_singleton.mpr (.map (List.forall_mem_singleton.mpr (.str _)))
  have hnone : ∀ {t : Tree}, (t.TaggedIn fun _ => False) → ∀ {place : List Nat},
      ¬t.MacroAt place .includeJson payload :=
    fun ht _ => ht.not_macroAt fun _ h => h.elim
  -- the macro stands at the description, and there is no other one
  rcases place with _ | ⟨i, place⟩
  · obtain ⟨tag, htag, -⟩ := Tree.macroAt_nil.mp hmacro
    cases htag
  · obtain ⟨u, hu, hmacro⟩ := Tree.macroAt_cons.mp hmacro
    obtain rfl | hu := List.mem_cons.mp (List.mem_of_getElem? hu)
    · rcases place with _ | ⟨j, place⟩
      · obtain ⟨tag, htag, -⟩ := Tree.macroAt_nil.mp hmacro
        cases htag
        obtain rfl : "c.yaml" = argument := Option.some.inj hargument
        decide +kernel
      · obtain ⟨v, hv, hmacro⟩ := Tree.macroAt_cons.mp hmacro
        obtain rfl := List.mem_singleton.mp (List.mem_of_getElem? hv)
        exact absurd hmacro (hnone (.str _))
    · obtain rfl := List.mem_singleton.mp hu
      exact absurd hmacro (hnone htags)

/-- Neither nesting nor inclusion goes on without an end in the two files, so that flattening has
the same result for all bounds above two. -/
theorem flatten_terminates_including : ∃ result : Except StackError Template,
    (∀ e, result = .error e → ¬e.Endless) ∧ ∀ bound, 3 ≤ bound →
      (flatten true ⟨"r.yaml"⟩ (includingFiles.within bound) 0).result = result := by
  have hlexical : includingFiles.Lexical := World.lexical_ofTexts (by decide)
  have hfinite : includingFiles.files.Finite :=
    (Finset.finite_toSet _).subset World.files_ofTexts_subset
  have hcount : includingFiles.files.ncard ≤ 2 := by
    have hle := Set.ncard_le_ncard (World.files_ofTexts_subset : includingFiles.files ⊆ _)
      (Finset.finite_toSet _)
    rw [Set.ncard_coe_finset] at hle
    exact hle
  have hends : ∀ q, includingFiles.Nests true ⟨"r.yaml"⟩ q →
      includingFiles.read q = .ok includedText := by
    intro q hq
    rw [eq_of_nests hq]
    decide +kernel
  have hnests : includingFiles.Acyclic (includingFiles.Nests true) ⟨"r.yaml"⟩ :=
    .of_ends fun q hq r => not_nests_of_includedText (hends q hq)
  have hincludes : ∀ q, ReflTransGen (includingFiles.Nests true) ⟨"r.yaml"⟩ q →
      includingFiles.Acyclic includingFiles.Includes q := by
    intro q hq
    rcases hq.cases_head with rfl | ⟨first, hfirst, hbehind⟩
    · refine .of_ends fun r hr s => ?_
      have hread : includingFiles.read r = .ok includedText := by
        rw [eq_of_includes hr]
        decide +kernel
      exact not_includes_of_includedText hread
    · rcases hbehind.cases_head with rfl | ⟨next, hnext, -⟩
      · exact .of_ends fun r hr => absurd hr (not_includes_of_includedText (hends _ hfirst))
      · exact absurd hnext (not_nests_of_includedText (hends _ hfirst))
  obtain ⟨result, hend, -, hbound⟩ :=
    flatten_terminates hlexical hfinite hnests (fun _ => hincludes) 0
  exact ⟨result, hend, fun bound hle => hbound bound (by omega)⟩

end NestedStacks
