/-
The spelling of paths does not matter.

Two runs that start from one file come to the same, whatever their working directories are and
however they spell the path of the file: `spelling_of_root_does_not_matter`.  Paths below the root
are spelled differently in the two runs, but they lead to the same places; only errors show a path.

* `StackError.withoutPath` — what an error says apart from its path;
* `World.SameFiles` — worlds that may differ in the working directory and in their identifiers;
* `Scope.Agrees` — scopes that are the same directory, seen from two worlds;
* `resolveMacro_spelling`, `processResources_spelling` — includes and nested templates.
-/
import NestedStacks.Proofs.Comparing.Flattening
import NestedStacks.Proofs.Locating.Files

namespace NestedStacks

/-- The error `e` with an empty path in it. -/
def DocumentError.withoutPath : DocumentError → DocumentError
  | .notFound _ => .notFound ⟨""⟩
  | .unreadable _ fault => .unreadable ⟨""⟩ fault
  | .endlessInclude _ => .endlessInclude ⟨""⟩
  | e => e

/-- The error `e` with an empty path in it. -/
def StackError.withoutPath : StackError → StackError
  | .document e => .document e.withoutPath
  | .endlessNesting _ => .endlessNesting ⟨""⟩
  | e => e

/-- `e.Like e'`: `e` and `e'` say the same apart from their paths. -/
def DocumentError.Like (e e' : DocumentError) : Prop := e.withoutPath = e'.withoutPath

/-- `e.Like e'`: `e` and `e'` say the same apart from their paths. -/
def StackError.Like (e e' : StackError) : Prop := e.withoutPath = e'.withoutPath

/-- `w.SameFiles w'`: `w` and `w'` have the same files, seen from two working directories, and the
same bound. -/
structure World.SameFiles (w w' : World) : Prop where
  lookup : w.lookup = w'.lookup
  depth : w.depth = w'.depth

/-- `s.Agrees w w' s'`: the scope `s` in `w` and the scope `s'` in `w'` are the same directory,
which is no file. -/
structure Scope.Agrees (w w' : World) (s s' : Scope) : Prop where
  trail : w.trail s.base = w'.trail s'.base
  notFile : ∀ text, w.lookup (w.place s.base) ≠ .ok text

theorem like_errorsAgree : ErrorsAgree DocumentError.Like StackError.Like where
  document _ _ := rfl
  stack _ _ := rfl
  inside _ _ h := congrArg StackError.document h

theorem DocumentError.like_ofFault (p p' : Path) (fault : FileFault) :
    (ofFault p fault).Like (ofFault p' fault) := by
  cases fault <;> rfl

variable {w w' : World}

/-! ### Scopes and resources -/

/-- If `s` and `s'` agree, `argument` means the same place in them. -/
theorem Scope.Agrees.trail_resolve {s s' : Scope} (h : s.Agrees w w' s') (argument : String) :
    w.trail (s.resolve argument) = w'.trail (s'.resolve argument) := by
  rw [World.trail_resolve, World.trail_resolve, h.trail]

/-- If `p` and `p'` are one file that is read, their scopes agree: they are its directory. -/
theorem Scope.agrees_ofFile (hw : w.Lexical) (hapart : w.FilesApart) (hroot : w.RootApart)
    {p p' : Path} {front : List (List Char)} {name : List Char} (hp : p.moves = front ++ [name])
    {text : String} (hread : w.read p = .ok text)
    (htrail : w.trail (Scope.ofFile p).base = w'.trail (Scope.ofFile p').base) :
    (Scope.ofFile p).Agrees w w' (Scope.ofFile p') :=
  ⟨htrail, World.not_file_of_ofFile hw hapart hroot hp hread⟩

/-- If `s` and `s'` agree, `argument` means files in them whose scopes agree. -/
theorem Scope.Agrees.resolve (hw : w.Lexical) (hapart : w.FilesApart) (hroot : w.RootApart)
    {s s' : Scope} (h : s.Agrees w w' s') {argument text : String}
    (hread : w.read (s.resolve argument) = .ok text) :
    (Scope.ofFile (s.resolve argument)).Agrees w w' (Scope.ofFile (s'.resolve argument)) := by
  rcases List.eq_nil_or_concat (Path.mk argument).moves with hmoves | ⟨front, name, hmoves⟩
  · -- without moves the text means a directory
    have hlookup := World.lookup_of_read hw hread
    rw [World.place_eq, World.trail_resolve, Path.after, hmoves, List.foldl_nil] at hlookup
    split at hlookup
    · exact absurd hlookup (hroot text)
    · rw [← World.place_eq] at hlookup
      exact absurd hlookup (h.notFile text)
  · rw [List.concat_eq_append] at hmoves
    obtain ⟨⟨behind, hresolve⟩, htrail⟩ := Scope.ofFile_resolve w s hmoves
    obtain ⟨-, htrail'⟩ := Scope.ofFile_resolve w' s' hmoves
    refine Scope.agrees_ofFile hw hapart hroot hresolve hread ?_
    rw [htrail, htrail', h.trail]

/-- The resource `r` stands for the same template wherever the file around it is seen from, as `p`
or as `p'`. -/
theorem Resource.nestedContext_spelling {p p' : Path} (hp : p.HasFileName) (hp' : p'.HasFileName)
    (htrail : w.trail p = w'.trail p') {ctx ctx' : Context} (hlocation : ctx.location = some p)
    (hlocation' : ctx'.location = some p') (r : Resource) (name : String) :
    r.nestedContext name ctx w.workingDirectory =
      r.nestedContext name ctx' w'.workingDirectory := by
  have hlocate : ∀ location, Path.locate w.workingDirectory p location =
      Path.locate w'.workingDirectory p' location := by
    intro location
    rw [World.trail, World.trail] at htrail
    rw [Path.locate_eq hp, Path.locate_eq hp', htrail]
  rw [Resource.nestedContext, Resource.nestedContext, hlocation, hlocation']
  refine bind_congr fun kind => ?_
  show (r.templateLocation name >>= _) = (r.templateLocation name >>= _)
  refine bind_congr fun location => ?_
  rw [hlocate location]

theorem processResources_spelling_step {macros : Bool} {depth : Nat} {t : Template}
    (ht : t.toTree.WellTagged) {p p' : Path} (hp : p.HasFileName) (hp' : p'.HasFileName)
    (htrail : w.trail p = w'.trail p') {ctx ctx' : Context} (hnames : ctx.SameNames ctx')
    (hlocation : ctx.location = some p) (hlocation' : ctx'.location = some p')
    (hinside : ∀ kind name names bindings, Path.Clean names →
      (templateInside macros depth kind name (.ofNames true names)
        (.nested (.ofNames true names) bindings name)).Alike w w' StackError.Like Eq
          (templateInside macros depth kind name (.ofNames true names)
            (.nested (.ofNames true names) bindings name))) :
    (processResources macros depth t ctx).Alike w w' StackError.Like Eq
      (processResources macros depth t ctx') := by
  rw [processResources_eq_inside]
  refine processVia_alike like_errorsAgree hnames ht ?_ ?_
  · intro rs _ e _ _
    exact Resource.nestedContext_spelling hp hp' htrail hlocation hlocation' e.2 e.1
  · intro rs _ e _ _ kind path naming hnaming
    obtain ⟨master, location, bindings, -, hmaster, -, -, rfl, rfl⟩ :=
      Resource.nestedContext_eq_ok.mp hnaming
    obtain rfl : p = master := Option.some.inj (hlocation.symm.trans hmaster)
    rw [Path.locate_eq hp]
    have hclean := (Path.clean_trail w.workingDirectory p).tail
    exact hinside kind e.1 _ bindings (Path.clean_after ⟨location⟩ hclean).reverse

section

variable (hw : w.Lexical) (hw' : w'.Lexical) (hfiles : w.SameFiles w')
include hw hw' hfiles

/-- If `p` and `p'` lead to one place, they read alike. -/
theorem read_eq_of_trail_eq {p p' : Path} (hp : p.text ≠ "") (hp' : p'.text ≠ "")
    (h : w.trail p = w'.trail p') : w.read p = w'.read p' := by
  rw [World.read_eq hw hp, World.read_eq hw' hp', World.place_eq, World.place_eq, h, hfiles.lookup]

/-! ### Includes -/

/-- If `s` and `s'` agree, `argument` means files in them that read alike. -/
theorem Scope.Agrees.includesAlike {s s' : Scope} (h : s.Agrees w w' s') {argument : String}
    (hne : argument.isEmpty = false) : IncludesAlike w w' DocumentError.Like s s' argument := by
  have htext : (Path.mk argument).text ≠ "" := by simpa using hne
  refine ⟨read_eq_of_trail_eq hw hw' hfiles ?_ ?_ (h.trail_resolve argument), fun fault _ => ?_⟩
  · exact Path.text_join_ne _ htext
  · exact Path.text_join_ne _ htext
  · exact DocumentError.like_ofFault _ _ fault

theorem resolveMacro_spelling_step {depth : Nat} {s s' : Scope} (h : s.Agrees w w' s')
    (hinside : ∀ argument text, w.read (s.resolve argument) = .ok text →
      (includedDocument depth (s.resolve argument) text).Alike w w' DocumentError.Like Eq
        (includedDocument depth (s'.resolve argument) text))
    (m : MacroTag) (argument : String) :
    (resolveMacro depth s m argument).Alike w w' DocumentError.Like Eq
      (resolveMacro depth s' m argument) := by
  rw [resolveMacro_eq_via, resolveMacro_eq_via]
  refine includeVia_alike like_errorsAgree.document ?_ ?_ ?_
  · intro path text n t n' hyields
    exact wellTagged_includedDocument hyields
  · intro hne
    exact h.includesAlike hw hw' hfiles hne
  · intro _ _ text hread
    exact hinside _ text hread

/-- If `s` and `s'` agree, the macro `m` is replaced by the same in them. -/
theorem resolveMacro_spelling (hapart : w.FilesApart) (hroot : w.RootApart) (depth : Nat)
    {s s' : Scope} (h : s.Agrees w w' s') (m : MacroTag) (argument : String) :
    (resolveMacro depth s m argument).Alike w w' DocumentError.Like Eq
      (resolveMacro depth s' m argument) := by
  induction depth generalizing s s' m argument with
  | zero =>
    refine resolveMacro_spelling_step hw hw' hfiles h (fun _ text _ => ?_) m argument
    exact .fail rfl
  | succ depth ih =>
    refine resolveMacro_spelling_step hw hw' hfiles h (fun file text hread => ?_) m argument
    refine loadWith_alike like_errorsAgree.document fun raw _ => ?_
    intro place m' payload argument' _ _
    exact ih (h.resolve hw hapart hroot hread) m' argument'

/-! ### Templates -/

/-- If `p` and `p'` are one file, a template is loaded from them alike. -/
theorem Template.load_spelling (hapart : w.FilesApart) (macros : Bool) {p p' : Path}
    (hp : p.text ≠ "") (hp' : p'.text ≠ "") (htrail : w.trail p = w'.trail p')
    (hname : ∀ text, w.read p = .ok text → p.HasFileName ∧ p'.HasFileName) :
    (Template.load macros p).Alike w w' StackError.Like Eq (Template.load macros p') := by
  have hreads := read_eq_of_trail_eq hw hw' hfiles hp hp' htrail
  refine Template.load_alike like_errorsAgree hreads
    (fun fault _ => DocumentError.like_ofFault p p' fault) fun text raw hread _ => ?_
  cases macros with
  | false => exact trivial
  | true =>
    intro place m payload argument _ _
    obtain ⟨⟨front, name, hmoves, hup⟩, front', name', hmoves', hup'⟩ := hname text hread
    have hroot := World.rootApart_of_read hw hapart ⟨front, name, hmoves, hup⟩ hread
    have hscope : (Scope.ofFile p).Agrees w w' (Scope.ofFile p') := by
      refine Scope.agrees_ofFile hw hapart hroot hmoves hread ?_
      rw [World.trail_eq_cons hmoves hup, World.trail_eq_cons hmoves' hup'] at htrail
      exact (List.cons.inj htrail).2
    rw [← hfiles.depth]
    exact resolveMacro_spelling hw hw' hfiles hapart hroot w.depth hscope m argument

/-- The template `t` comes to the same resources wherever its file is seen from, as `p` or as
`p'`. -/
theorem processResources_spelling (hapart : w.FilesApart) (hroot : w.RootApart) (macros : Bool)
    (depth : Nat) {t : Template} (ht : t.toTree.WellTagged) {p p' : Path} (hp : p.HasFileName)
    (hp' : p'.HasFileName) (htrail : w.trail p = w'.trail p') {ctx ctx' : Context}
    (hnames : ctx.SameNames ctx') (hlocation : ctx.location = some p)
    (hlocation' : ctx'.location = some p') :
    (processResources macros depth t ctx).Alike w w' StackError.Like Eq
      (processResources macros depth t ctx') := by
  induction depth generalizing t p p' ctx ctx' with
  | zero =>
    refine processResources_spelling_step ht hp hp' htrail hnames hlocation hlocation' ?_
    intro kind name names bindings _
    exact .fail rfl
  | succ depth ih =>
    refine processResources_spelling_step ht hp hp' htrail hnames hlocation hlocation' ?_
    intro kind name names bindings hclean
    -- an absolute path leads to one place from everywhere
    obtain ⟨-, habs⟩ := Path.moves_of_clean hclean
    have hsame : w.trail (.ofNames true names) = w'.trail (.ofNames true names) := by
      rw [World.trail, World.trail, Path.trail, Path.trail, Path.after_of_isAbsolute habs,
        Path.after_of_isAbsolute habs (w'.workingDirectory.after [])]
    have htext : (Path.ofNames true names).text ≠ "" := by
      intro hempty
      rw [Path.isAbsolute, hempty] at habs
      cases habs
    have hname : ∀ text, w.read (.ofNames true names) = .ok text →
        (Path.ofNames true names).HasFileName :=
      fun text hread => World.hasFileName_of_read hw hroot hclean hread
    refine templateInside_alike ?_ fun n inner m hload => ?_
    · exact Template.load_spelling hw hw' hfiles hapart macros htext htext hsame
        fun text hread => ⟨hname text hread, hname text hread⟩
    · obtain ⟨text, hread⟩ := Template.read_of_load hload
      have hwell := (Template.normal_of_load hload).wellTagged
      exact ih hwell (hname text hread) (hname text hread) hsame ⟨fun _ => rfl, rfl⟩ rfl rfl

/-! ### The root -/

/-- If `p` and `p'` are one file, the template there is flattened from them alike. -/
theorem flattenWithin_spelling (hapart : w.FilesApart) (macros : Bool) (depth : Nat) {p p' : Path}
    (hp : p.HasFileName) (hp' : p'.HasFileName) (htrail : w.trail p = w'.trail p') :
    (flattenWithin macros depth p).Alike w w' StackError.Like Eq
      (flattenWithin macros depth p') := by
  refine flattenWithin_alike ?_ fun n t m hload => ?_
  · exact Template.load_spelling hw hw' hfiles hapart macros hp.text_ne hp'.text_ne htrail
      fun _ _ => ⟨hp, hp'⟩
  · obtain ⟨text, hread⟩ := Template.read_of_load hload
    have hroot := World.rootApart_of_read hw hapart hp hread
    exact processResources_spelling hw hw' hfiles hapart hroot macros depth
      (Template.normal_of_load hload).wellTagged hp hp' htrail ⟨fun _ => rfl, rfl⟩ rfl rfl

end

/-- **The spelling of paths does not matter.**  Let `w` and `w'` have the same files, found under
any spelling of their absolute paths and none inside another one, but two working directories; and
let `path` in `w` and `path'` in `w'` be paths of one file that end in its name.  They may be
relative or absolute and go up and down before.  If flattening from `path` draws no identifier, then
flattening from `path` in `w` and from `path'` in `w'` gives the same template `flat`, or fails with
errors `e` and `e'` that differ in nothing but a path. -/
theorem spelling_of_root_does_not_matter (hw : w.Lexical) (hw' : w'.Lexical)
    (hfiles : w.SameFiles w') (hapart : w.FilesApart) (macros : Bool) {path path' : Path}
    (hpath : path.HasFileName) (hpath' : path'.HasFileName) (hplace : w.place path = w'.place path')
    {n : Nat} (hdrawn : (flatten macros path w n).drawn = 0) (n' : Nat) :
    (∃ flat, (flatten macros path w n).result = .ok flat ∧
        (flatten macros path' w' n').result = .ok flat) ∨
      ∃ e e', (flatten macros path w n).result = .error e ∧
        (flatten macros path' w' n').result = .error e' ∧ e.withoutPath = e'.withoutPath := by
  have halike := flattenWithin_spelling hw hw' hfiles hapart macros w.depth hpath hpath'
    (World.trail_eq_of_place_eq hplace)
  rw [flatten_eq_within] at hdrawn
  rw [flatten_eq_within, flatten_eq_within, ← hfiles.depth]
  refine halike.results ?_
  rw [hdrawn]
  exact World.sameDraws_zero n n'

/-- The two files of the sample, seen from `directory`. -/
def sampleFilesFrom (directory : Path) : World :=
  .ofTexts directory [(⟨"/d/r.yaml"⟩, sampleOuterText), (⟨"/d/c.yaml"⟩, sampleInnerText)] 3

theorem sampleFilesFrom_apart (directory : Path) : (sampleFilesFrom directory).FilesApart := by
  refine World.filesApart_ofTexts fun e he e' he' hprefix => ?_
  simp only [List.mem_cons, List.not_mem_nil, or_false] at he he'
  rcases he with rfl | rfl <;> rcases he' with rfl | rfl
  · rfl
  · exact absurd hprefix (by decide +kernel)
  · exact absurd hprefix (by decide +kernel)
  · rfl

theorem sampleFilesFrom_flatten : (flatten false ⟨"r.yaml"⟩).Yields (sampleFilesFrom ⟨"/d"⟩) 0
    (.ofResource "ChildTable" (sampleTable "!Sub" "ChildTable")) 0 := by
  have houter : (Template.load false ⟨"r.yaml"⟩).Yields (sampleFilesFrom ⟨"/d"⟩) 0
      (.ofResource "Child" sampleStack) 0 :=
    Template.load_yields.mpr ⟨_, loadFile_yields.mpr
      ⟨_, _, by decide +kernel, parse_sampleOuterText, rfl, rfl⟩, rfl⟩
  have hinner : (Template.load false ⟨"/d/c.yaml"⟩).Yields (sampleFilesFrom ⟨"/d"⟩) 0
      (.ofResource "Table" (sampleTable "!Sub" "Table")) 0 :=
    Template.load_yields.mpr ⟨_, loadFile_yields.mpr
      ⟨_, _, by decide +kernel, parse_sampleInnerText, rfl, rfl⟩, rfl⟩
  have hunfolds : Unfolds (sampleFilesFrom ⟨"/d"⟩) false (.root ⟨"r.yaml"⟩) 0
      [("Child", sampleStack)] sampleNesting 0 :=
    .stack rfl rfl hinner rfl (.keep rfl .done) .done
  exact flatten_yields_iff.mpr
    ⟨_, 0, _, _, [("ChildTable", sampleTable "!Sub" "ChildTable")], houter, rfl, hunfolds,
      by decide, .cons ⟨rfl, rfl⟩ .nil, rfl⟩

/-- From another directory, and with another path, the sample flattens to the same template. -/
theorem spelling_of_root_does_not_matter_child :
    (flatten false ⟨"../d/./r.yaml"⟩ (sampleFilesFrom ⟨"/e"⟩) 0).result =
      .ok (.ofResource "ChildTable" (sampleTable "!Sub" "ChildTable")) := by
  obtain ⟨hresult, hdrawn⟩ := sampleFilesFrom_flatten
  have hlexical : (sampleFilesFrom ⟨"/d"⟩).Lexical := World.lexical_ofTexts (by decide)
  have hlexical' : (sampleFilesFrom ⟨"/e"⟩).Lexical := World.lexical_ofTexts (by decide)
  have hpath : (Path.mk "r.yaml").HasFileName :=
    ⟨[], "r.yaml".toList, by decide +kernel, by decide⟩
  have hpath' : (Path.mk "../d/./r.yaml").HasFileName :=
    ⟨["..".toList, "d".toList], "r.yaml".toList, by decide +kernel, by decide⟩
  have hplace : (sampleFilesFrom ⟨"/d"⟩).place ⟨"r.yaml"⟩ =
      (sampleFilesFrom ⟨"/e"⟩).place ⟨"../d/./r.yaml"⟩ := by decide +kernel
  rw [Nat.zero_add] at hdrawn
  obtain ⟨flat, hflat, hflat'⟩ | ⟨e, -, he, -⟩ := spelling_of_root_does_not_matter
    hlexical hlexical' ⟨rfl, rfl⟩ (sampleFilesFrom_apart ⟨"/d"⟩) false hpath hpath' hplace hdrawn 0
  · rw [hflat', ← hflat, hresult]
  · rw [hresult] at he
    cases he

end NestedStacks
