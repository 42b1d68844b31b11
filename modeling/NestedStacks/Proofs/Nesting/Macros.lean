/-
Macros are replaced everywhere or left everywhere.

With macros replaced there is none in a flattened template.  With macros left, only the files of the
templates are opened, each at its place in the tree, and a macro in the body of a resource that
stays is found again at its place in the entry that the resource becomes: `macros_gone_or_kept`.

* `Tree.keepsMacros_of_retarget`, `Resource.keepsMacros_of_retarget` — renaming keeps macros;
* `StandsInFile` — a resource as it is written in a file;
* `Template.load_resource` — a loaded resource has the macros of the one in its file;
* `Unfolds.opened_contributions` — the files that are opened without macros.
-/
import NestedStacks.Proofs.Nesting.Dependencies
import NestedStacks.Proofs.Renaming.Places
import NestedStacks.Proofs.Tagging.Macros
import NestedStacks.Proofs.Writing.Reloading

namespace NestedStacks

variable {w : World} {macros : Bool} {path : Path} {ctx : Context} {n n' : Nat}

/-! ### Renaming -/

namespace Tree

variable {t t' : Tree}

theorem keepsMacros_retargetSub (ht : t.WellTagged) (locals : Entries) :
    t.KeepsMacros (retargetSub ctx locals t) := by
  cases t with
  | str s => exact .of_untagged (.str s)
  | _ => exact .refl ht

/-- The `items'` that renaming makes of `items` have the macros of these, if each item keeps its
macros. -/
theorem RetargetsItems.keepsMacros {function : Intrinsic} {items items' : List Tree}
    (h : RetargetsItems ctx function items items') (hin : ∀ u ∈ items, u.WellTagged)
    (ih : ∀ u ∈ items, ∀ u', u.retarget ctx = .ok u' → u.KeepsMacros u') :
    List.Forall₂ KeepsMacros items items' := by
  cases h with
  | @name s _ _ hrest =>
    refine .cons (.of_untagged (.str s)) (forall₂_of_mem hrest fun u hu => ?_)
    exact ih u (List.mem_cons_of_mem _ hu)
  | expression hrest =>
    refine .cons (keepsMacros_retargetSub (hin _ List.mem_cons_self) _) ?_
    exact forall₂_of_mem hrest fun u hu => ih u (List.mem_cons_of_mem _ hu)
  | items _ _ hitems => exact forall₂_of_mem hitems ih

/-- Renaming a document `t` in order keeps its macros. -/
theorem keepsMacros_of_retarget (ht : t.WellTagged) (h : t.retarget ctx = .ok t') :
    t.KeepsMacros t' := by
  induction ht generalizing t' with
  | null | bool | num | str => exact .of_untagged (by constructor)
  | seq _ ih =>
    obtain ⟨items', rfl, hitems⟩ := retarget_seq_eq_ok h
    exact .seq (forall₂_of_mem hitems fun u hu u' hr => ih u hu hr)
  | map _ ih =>
    obtain ⟨entries', rfl, hentries⟩ := retarget_map_eq_ok h
    exact .map (forall₂_of_mem hentries fun e he e' hr => ih e he hr.2)
  | @text c _ hk s =>
    rw [retarget_text (TaggedNode.ofTagged_text hk s)] at h
    obtain rfl := Except.ok.inj h
    refine .tagged_text (Tag.ofYaml?_spelling c) rfl fun hm => ?_
    -- the texts of macros are no references
    cases c with
    | macroTag m => rfl
    | intrinsic i => cases hm
  | @list c _ hk items hin ih =>
    obtain ⟨i, rfl⟩ := TaggedNode.exists_intrinsic hk
    obtain ⟨items', hlist, rfl⟩ := eq_of_retarget_list (Tag.ofYaml?_spelling _) h
    have hitems := (retargetList_eq_ok.mp hlist).keepsMacros hin fun u hu u' hr => ih u hu hr
    exact .tagged_list (Tag.ofYaml?_spelling _) (.seq hitems)

theorem keepsMacros_prefixDependency (ht : t.WellTagged) :
    t.KeepsMacros (t.prefixDependency ctx) := by
  induction ht with
  | str s => exact .of_untagged (.str s)
  | seq _ ih =>
    rw [prefixDependency, prefixDependencies_eq_map]
    refine .seq ?_
    rw [List.forall₂_map_right_iff, List.forall₂_same]
    exact ih
  | null | bool | num => exact .of_untagged (by constructor)
  | map h _ => exact .refl (.map h : WellTagged _)
  | text _ hk s => exact .refl (.text trivial hk s : WellTagged _)
  | list _ hk h _ => exact .refl (.list trivial hk h : WellTagged _)

/-- Setting a `key` to `t'` keeps the macros of a mapping if `t'` has those of the old value `t`. -/
theorem keepsMacros_set {entries : Entries} (hin : (Tree.map entries).WellTagged) {key : String}
    (hget : entries.get? key = some t) (hkeeps : t.KeepsMacros t') :
    (Tree.map entries).KeepsMacros (.map (entries.set key t')) := by
  have hself : List.Forall₂ (fun e e' => e = e' ∧ e.2.WellTagged) entries entries :=
    List.forall₂_same.mpr fun e he => ⟨rfl, hin.mem_entries e he⟩
  refine .map (Entries.forall₂_set hself hget ?_ ?_)
  · rintro e _ ⟨rfl, he⟩
    exact .refl he
  · rintro _ ⟨rfl, -⟩
    exact hkeeps

end Tree

namespace Resource

variable {r r' : Resource}

theorem keepsMacros_set (hr : r.toTree.WellTagged) {key : String} {t t' : Tree}
    (hget : r.get? key = some t) (hkeeps : t.KeepsMacros t') :
    r.toTree.KeepsMacros (r.set key t').toTree :=
  Tree.keepsMacros_set hr hget hkeeps

/-- Renaming a resource `r` in order keeps its macros, also those in its dependencies. -/
theorem keepsMacros_of_retarget (hr : r.toTree.WellTagged) (h : r.retarget ctx = .ok r') :
    r.toTree.KeepsMacros r'.toTree := by
  obtain ⟨changed, rfl, hchanged⟩ := retarget_eq_ok.mp h
  have hin : changed.toTree.WellTagged ∧ r.toTree.KeepsMacros changed.toTree ∧
      changed.get? "DependsOn" = r.get? "DependsOn" := by
    rcases hchanged with ⟨-, rfl⟩ | ⟨p, p', hp, hp', rfl⟩
    · exact ⟨hr, .refl hr, rfl⟩
    · have hproperties := Tree.keepsMacros_of_retarget (hr.get? hp) hp'
      obtain ⟨q, hq, hqin⟩ := (hr.get? hp).retarget ctx
      obtain rfl : q = p' := by simpa [hp'] using hq.symm
      exact ⟨hr.set _ hqin, keepsMacros_set hr hp hproperties, get?_set_of_ne _ _ (by decide)⟩
  obtain ⟨hin, hkeeps, hsame⟩ := hin
  unfold prefixDependsOn
  split
  · rename_i t ht
    have hdependencies : t.KeepsMacros (t.prefixDependency ctx) :=
      Tree.keepsMacros_prefixDependency (hr.get? ht)
    exact hkeeps.trans (keepsMacros_set hin (hsame.trans ht) hdependencies)
  · exact hkeeps

end Resource

/-! ### Resources in files -/

/-- `StandsInFile w path name body`: a resource `name` with `body` is written in the file at
`path`. -/
def StandsInFile (w : World) (path : Path) (name : String) (body : Tree) : Prop :=
  ∃ text root entries key, w.read path = .ok text ∧ Markup.parse text = .ok (.map root) ∧
    Entries.get? root "Resources" = some (.map entries) ∧ (key, body) ∈ entries ∧
    keyText key = .ok name

theorem Tree.eq_map_of_load {t : Tree} {entries : Entries}
    (h : (t.load none w n).result = .ok (.map entries)) : ∃ entries₀, t = .map entries₀ := by
  cases t with
  | map entries₀ => exact ⟨entries₀, rfl⟩
  | null => simp at h
  | bool b => simp at h
  | num x => simp at h
  | str s => simp at h
  | seq items =>
    obtain ⟨_, h, -⟩ := load_seq_eq_ok h
    cases h
  | tagged tag payload =>
    obtain ⟨_, -, ⟨_, -, h⟩ | ⟨_, _, _, _, -, -, h, -⟩⟩ := load_none_tagged_eq_ok h <;> cases h

/-- A resource `e` of the template at `path`, loaded without macros, is written in its file, with
the same macros. -/
theorem Template.load_resource {t : Template} {rs : Resources}
    (hload : (Template.load false path).Yields w n t n') (hrs : t.resources = .ok rs)
    {e : String × Resource} (he : e ∈ rs) :
    ∃ body, StandsInFile w path e.1 body ∧ body.KeepsMacros e.2.toTree := by
  obtain ⟨tree, htree, ht⟩ := Template.load_yields.mp hload
  obtain ⟨text, raw, hread, hparse, hraw⟩ := loadFile_yields.mp htree
  obtain ⟨entries, hget, k, hkey, hmem⟩ := mem_resources hrs he
  have htree : tree = .map t.root := by
    unfold Template.ofTree at ht
    split at ht <;> cases ht
    · rfl
    · simp [Template.get?] at hget
  subst htree
  obtain ⟨root, rfl⟩ := Tree.eq_map_of_load hraw.1
  -- from the template to the entries of its resources, and from them to the resource
  obtain ⟨root', hroot', hroot⟩ := Tree.load_map_eq_ok hraw.1
  obtain rfl := Tree.map.inj hroot'
  obtain ⟨resources, hresources, m, hloaded⟩ := Entries.get?_of_forall₂
    (R := fun u u' => ∃ k, (u.load none w k).result = .ok u') hroot hget
  obtain ⟨entries₀, rfl⟩ := Tree.eq_map_of_load hloaded
  obtain ⟨entries', hentries', hentries⟩ := Tree.load_map_eq_ok hloaded
  obtain rfl := Tree.map.inj hentries'
  obtain ⟨e₀, he₀, hk₀, m', hbody⟩ := forall₂_exists_left hentries hmem
  have hstands : (k, e₀.2) ∈ entries₀ := by
    have hpair : e₀ = (k, e₀.2) := Prod.ext hk₀.symm rfl
    rw [← hpair]
    exact he₀
  exact ⟨e₀.2, ⟨text, root, entries₀, k, hread, hparse, hresources, hstands, hkey⟩,
    Tree.keepsMacros_of_load hbody⟩

/-! ### Files that are opened -/

theorem steps_loadText (scope : Scope) (text : String) (w : World) (n : Nat) :
    (loadText false scope text w n).steps = [] := by
  rw [loadText_run]
  exact Run.steps_bind (fun _ => rfl) (fun raw n => Tree.steps_load_none raw w n) n

/-- Without macros the template at `path` is loaded from its own file only. -/
theorem opened_load (path : Path) (w : World) (n : Nat) :
    (Template.load false path w n).opened = [path] := by
  have htext : ∀ text m, (loadText false (.ofFile path) text w m).opened = [] := by
    intro text m
    rw [Outcome.opened, steps_loadText, List.filterMap_nil]
  have hfile : (loadFile false path w n).opened = [path] := by
    rw [loadFile, Run.opened_note_bind, Run.opened_bind_of_silent fun text m => ?_]
    · rfl
    · rw [Run.opened_bind_of_silent fun _ _ => rfl]
      exact htext text m
  rw [Template.load, Run.opened_bind_of_silent fun _ _ => rfl]
  exact hfile

theorem opened_contribution_kept {depth : Nat} {entry : String × Resource}
    (hr : entry.2.needsFlattening = false) :
    (contribution macros depth ctx entry w n).opened = [] := by
  have hrename : (renameResource ctx entry.1 entry.2 w n).opened = [] := by
    rw [renameResource, Run.opened_bind_of_silent fun changed m => ?_]
    · rfl
    · split
      · rfl
      · rfl
  rw [contribution, hr, if_neg Bool.false_ne_true, Run.opened_bind_of_silent fun _ _ => rfl]
  exact hrename

theorem opened_contribution_stack {depth : Nat} {entry : String × Resource} {kind : StackKind}
    {path : Path} {naming : Context} {t : Template} {m : Nat}
    (hr : entry.2.needsFlattening = true)
    (hnaming : entry.2.nestedContext entry.1 ctx w.workingDirectory = .ok (kind, path, naming))
    (hload : (Template.load false path).Yields w n t m) :
    (contribution false (depth + 1) ctx entry w n).opened =
      path :: (processResources false depth t naming w m).opened := by
  have hinside : ∀ message, ((Run.note .debug .flattening message >>= fun _ =>
      Template.load false path >>= fun t => processResources false depth t naming) w n).opened =
        path :: (processResources false depth t naming w m).opened := by
    intro message
    rw [Run.opened_note_bind, Run.opened_bind hload, opened_load]
    rfl
  rw [contribution, hr, if_pos rfl, Run.opened_bind (Run.yields_workingDirectory.mpr ⟨rfl, rfl⟩),
    Run.opened_bind (Run.yields_ofExcept.mpr ⟨hnaming, rfl⟩)]
  exact hinside _

/-- A template `t` opens what its resources `rs` open. -/
theorem opened_processResources {depth : Nat} {t : Template} {rs : Resources}
    (hrs : t.resources = .ok rs) :
    (processResources macros depth t ctx w n).opened =
      (rs.mapM (contribution macros depth ctx) w n).opened := by
  rw [processResources_eq, Run.opened_bind (Run.yields_ofExcept.mpr ⟨hrs, rfl⟩),
    Run.opened_bind_of_silent fun _ _ => rfl]
  rfl

theorem opened_mapM_cons {α β ε : Type} {f : α → Run ε β} {x : α} {y : β} {xs : List α} {m : Nat}
    (h : (f x).Yields w n y m) :
    ((x :: xs).mapM f w n).opened = (f x w n).opened ++ (xs.mapM f w m).opened := by
  rw [List.mapM_cons, Run.opened_bind h, Run.opened_bind_of_silent fun _ _ => rfl]

/-- Without macros the files that processing `rs` opens are those of the templates inside, in the
order of `nesting`. -/
theorem Unfolds.opened_contributions {rs out : Resources} {nesting : Nesting} {depth : Nat}
    (h : Unfolds w false ctx n rs nesting n') (hheight : nesting.height ≤ depth)
    (hout : List.Forall₂ BecomesEntry (nesting.kept ctx) out) :
    (rs.mapM (contribution false depth ctx) w n).opened.map some =
      nesting.templatesInside.map (·.1.location) := by
  induction h generalizing depth out with
  | done => rfl
  | @keep ctx n _ name r _ _ hr _ ih =>
    rcases hout with _ | ⟨⟨-, hrename⟩, hout⟩
    have hpart : (contribution false depth ctx (name, r)).Yields w n _ n :=
      (contribution_kept hr).mpr ⟨_, hrename, rfl, rfl⟩
    rw [opened_mapM_cons hpart, opened_contribution_kept hr]
    exact ih hheight hout
  | @stack _ naming _ n₁ n₂ _ name r kind path template inner _ inside _ hr hnaming hload hinner
      hinside _ ihinside ihrest =>
    rw [Nesting.height, Nat.max_le] at hheight
    obtain ⟨below, rfl⟩ := Nat.exists_eq_add_one.mpr (Nat.lt_of_lt_of_le (by simp) hheight.1)
    have hbelow : inside.height ≤ below := Nat.le_of_succ_le_succ hheight.1
    obtain ⟨part, out', rfl, hpart, hout'⟩ := exists_append_of_forall₂ hout
    have hprocess : (processResources false below template naming).Yields w n₁ part n₂ :=
      processResources_yields_iff.mpr ⟨inner, inside, hinner, hinside, hbelow, hpart⟩
    have hpart' : (contribution false (below + 1) _ (name, r)).Yields w _ part n₂ :=
      (contribution_stack hr).mpr
        ⟨below, kind, path, naming, template, n₁, rfl, hnaming, hload, hprocess⟩
    obtain ⟨_, _, _, -, -, -, -, -, rfl⟩ := Resource.nestedContext_eq_ok.mp hnaming
    rw [opened_mapM_cons hpart', opened_contribution_stack hr hnaming hload,
      opened_processResources hinner, List.map_append, List.map_cons, ihinside hbelow hpart,
      ihrest hheight.2 hout', Nesting.templatesInside, List.map_append, List.map_cons]
    rfl

/-- Flattening without macros opens the files of all templates of `nesting`, each of them once for
each stack that stands for it. -/
theorem opened_flatten {flat : Template} {nesting : Nesting}
    (hflat : (flatten false path w n).result = .ok flat)
    (hnesting : FileUnfolds w false path n nesting) :
    (flatten false path w n).opened.map some =
      (nesting.levels (.root path)).map (·.1.location) := by
  obtain ⟨t, m, rs, nesting', out, hload, hrs, hunfolds, hheight, hentries, -⟩ :=
    flatten_yields_iff.mp (Run.yields_of_result hflat)
  obtain rfl := hnesting.unique ⟨t, m, rs, _, hload, hrs, hunfolds⟩
  have hprocess : (t.process false (.root path) w m).opened.map some =
      nesting.templatesInside.map (·.1.location) := by
    rw [Template.process_run, opened_processResources hrs]
    exact hunfolds.opened_contributions hheight hentries
  have hassemble : ∀ rs k, (t.assemble rs w k).opened = [] := by
    intro rs k
    rw [Template.assemble, Run.opened_bind_of_silent fun _ _ => rfl]
    simp [Outcome.opened, List.filterMap_map, Step.path?]
  rw [flatten, Run.opened_note_bind, Run.opened_bind hload, opened_load,
    Run.opened_bind_of_silent fun rs k => ?_, List.map_append, hprocess]
  · rfl
  · rw [Run.opened_bind_of_silent fun _ _ => rfl]
    exact hassemble rs k

/-! ### Macros in a flattened template -/

/-- Every resource `k` that stays is one of `rs` at the top, or of a template that was loaded from
some `file`. -/
theorem Unfolds.mem_kept_loaded {rs : Resources} {nesting : Nesting}
    (h : Unfolds w macros ctx n rs nesting n') :
    ∀ k ∈ nesting.kept ctx, k.1 = ctx ∧ k.2 ∈ rs ∨
      ∃ file t inner m m', k.1.location = some file ∧
        (Template.load macros file).Yields w m t m' ∧ t.resources = .ok inner ∧ k.2 ∈ inner := by
  induction h with
  | done => simp [Nesting.kept]
  | keep _ _ ih =>
    intro k hk
    rcases List.mem_cons.mp hk with rfl | hk
    · exact .inl ⟨rfl, by simp⟩
    · rcases ih k hk with ⟨hctx, hmem⟩ | hloaded
      · exact .inl ⟨hctx, List.mem_cons_of_mem _ hmem⟩
      · exact .inr hloaded
  | stack _ hnaming hload hinner _ _ ihinside ihrest =>
    intro k hk
    rcases List.mem_append.mp hk with hk | hk
    · rcases ihinside k hk with ⟨hctx, hmem⟩ | hloaded
      · obtain ⟨_, _, _, -, -, -, -, -, rfl⟩ := Resource.nestedContext_eq_ok.mp hnaming
        exact .inr ⟨_, _, _, _, _, by rw [hctx]; rfl, hload, hinner, hmem⟩
      · exact .inr hloaded
    · rcases ihrest k hk with ⟨hctx, hmem⟩ | hloaded
      · exact .inl ⟨hctx, List.mem_cons_of_mem _ hmem⟩
      · exact .inr hloaded

/-- Every resource `k` that stays is written in the file of its template, and keeps its macros. -/
theorem FileUnfolds.standsInFile {nesting : Nesting} (h : FileUnfolds w false path n nesting) :
    ∀ k ∈ nesting.kept (.root path), ∃ file body, k.1.location = some file ∧
      StandsInFile w file k.2.1 body ∧ body.KeepsMacros k.2.2.toTree := by
  obtain ⟨t, m, rs, m', hload, hrs, hunfolds⟩ := h
  intro k hk
  rcases hunfolds.mem_kept_loaded k hk with ⟨hctx, hmem⟩ |
    ⟨file, t', inner, _, _, hfile, hload', hinner, hmem⟩
  · obtain ⟨body, hbody⟩ := Template.load_resource hload hrs hmem
    exact ⟨path, body, by rw [hctx]; rfl, hbody⟩
  · obtain ⟨body, hbody⟩ := Template.load_resource hload' hinner hmem
    exact ⟨file, body, hfile, hbody⟩

/-- **Macros are replaced everywhere or left everywhere.**  Let `flat` be the flattened template of
`path`.  With `macros`, no macro `m` stands at any `place` of `flat`.  Without, flattening goes
through a tree `nesting` of templates and opens no other files than theirs; and for each resource
`k` that stays, whose `body` is written in the `file` of its template, and the entry that it
becomes, `body.KeepsMacros entry.2.toTree`: each macro in `body` stands at the same place there, in
the standard spelling and with the text of its argument. -/
theorem macros_gone_or_kept {flat : Template}
    (hflat : (flatten macros path w n).result = .ok flat) :
    (macros = true → ∀ place m payload, ¬flat.toTree.MacroAt place m payload) ∧
      (macros = false → ∃ nesting out, FileUnfolds w false path n nesting ∧
        (flatten false path w n).opened.map some =
          (nesting.levels (.root path)).map (·.1.location) ∧
        flat.resources = .ok (mergeResources out) ∧
        List.Forall₂ (fun k entry => BecomesEntry k entry ∧
          ∃ file body, k.1.location = some file ∧ StandsInFile w file k.2.1 body ∧
            body.KeepsMacros entry.2.toTree) (nesting.kept (.root path)) out) := by
  constructor
  · rintro rfl place m payload
    exact Tree.TaggedIn.not_macroAt (flatten_normal hflat) fun c hc => hc rfl
  · rintro rfl
    obtain ⟨t, nesting, out, rfl, hunfolds, hentries, hnormal⟩ := flatten_unfolds hflat
    refine ⟨nesting, out, hunfolds, opened_flatten hflat hunfolds,
      Template.resources_setResources t out, ?_⟩
    refine forall₂_of_mem hentries fun k hk entry hbecomes => ⟨hbecomes, ?_⟩
    obtain ⟨file, body, hfile, hbody, hkeeps⟩ := hunfolds.standsInFile k hk
    have hrename := Resource.keepsMacros_of_retarget (hnormal k hk).wellTagged hbecomes.2
    exact ⟨file, body, hfile, hbody, hkeeps.trans hrename⟩

/-- The text of a nested template with a macro in the items of a function. -/
def macroText : String :=
  "Resources:\n  Table:\n    Type: Custom::Table\n" ++
    "    Properties:\n      Name: !Join ['-', [!IncludeString n.txt]]\n"

/-- A template, the nested template with the macro, and the file that the macro includes. -/
def macroFiles : World :=
  { sampleFiles with
    lookup := fun p =>
      if p.text = "/d/r.yaml" then .ok sampleOuterText
      else if p.text = "/d/c.yaml" then .ok macroText
      else if p.text = "/d/n.txt" then .ok "included"
      else .error .missing }

/-- The resource of the nested template, with a function `tag` around `t` in the place of the
macro. -/
def macroTable (tag : String) (t : Tree) : Resource :=
  ⟨[(.str "Type", .str "Custom::Table"),
    (.str "Properties", .map [(.str "Name", .tagged tag (.seq [.str "-", .seq [t]]))])]⟩

/-- What the macro becomes. -/
def macroValue (macros : Bool) : Tree :=
  if macros then .str "included" else .tagged "!Macro::IncludeString" (.str "n.txt")

theorem macroFiles_unfolds (macros : Bool) :
    (Template.load macros ⟨"r.yaml"⟩).Yields macroFiles 0 (.ofResource "Child" sampleStack) 0 ∧
      Unfolds macroFiles macros (.root ⟨"r.yaml"⟩) 0 [("Child", sampleStack)]
        (.stack "Child" sampleStack (.nested ⟨"/d/c.yaml"⟩ [] "Child")
          (.keep "Table" (macroTable "!Join" (macroValue macros)) .done) .done) 0 := by
  have hparse : Markup.parse macroText = .ok (Template.ofResource "Table"
      (macroTable "Join" (.tagged "IncludeString" (.str "n.txt")))).toTree := by decide +kernel
  have hload : (Template.load macros ⟨"/d/c.yaml"⟩).Yields macroFiles 0
      (.ofResource "Table" (macroTable "!Join" (macroValue macros))) 0 := by
    refine Template.load_yields.mpr ⟨Template.toTree _, loadFile_yields.mpr
      ⟨_, _, by decide +kernel, hparse, ?_⟩, rfl⟩
    cases macros <;> exact ⟨by decide +kernel, by decide +kernel⟩
  refine ⟨Template.load_yields.mpr ⟨Template.toTree _, loadFile_yields.mpr
    ⟨_, _, by decide +kernel, parse_sampleOuterText, ?_⟩, rfl⟩, ?_⟩
  · cases macros <;> exact ⟨by decide +kernel, by decide +kernel⟩
  · exact .stack rfl rfl hload rfl (.keep rfl .done) .done

theorem macroFiles_flatten (macros : Bool) : (flatten macros ⟨"r.yaml"⟩ macroFiles 0).result =
    .ok (.ofResource "ChildTable" (macroTable "!Join" (macroValue macros))) := by
  obtain ⟨hload, hunfolds⟩ := macroFiles_unfolds macros
  refine (flatten_yields_iff.mpr ⟨_, 0, _, _,
    [("ChildTable", macroTable "!Join" (macroValue macros))], hload, rfl, hunfolds,
    Nat.le_add_left 1 2, .cons ⟨rfl, ?_⟩ .nil, rfl⟩).1
  cases macros <;> rfl

/-- The macro of the sample is gone when macros are replaced; otherwise it stands where it stood in
its file, inside the payload of the function, and the file that it names is not opened. -/
theorem macros_gone_or_kept_included :
    (∃ flat, (flatten true ⟨"r.yaml"⟩ macroFiles 0).result = .ok flat ∧
      ∀ place m payload, ¬flat.toTree.MacroAt place m payload) ∧
      ∃ flat nesting out, (flatten false ⟨"r.yaml"⟩ macroFiles 0).result = .ok flat ∧
        FileUnfolds macroFiles false ⟨"r.yaml"⟩ 0 nesting ∧
        (flatten false ⟨"r.yaml"⟩ macroFiles 0).opened.map some =
          (nesting.levels (.root ⟨"r.yaml"⟩)).map (·.1.location) ∧
        flat.resources = .ok (mergeResources out) ∧
        List.Forall₂ (fun k entry => BecomesEntry k entry ∧
          ∃ file body, k.1.location = some file ∧ StandsInFile macroFiles file k.2.1 body ∧
            body.KeepsMacros entry.2.toTree) (nesting.kept (.root ⟨"r.yaml"⟩)) out := by
  have hgone := (macros_gone_or_kept (macroFiles_flatten true)).1 rfl
  obtain ⟨nesting, out, hkept⟩ := (macros_gone_or_kept (macroFiles_flatten false)).2 rfl
  exact ⟨⟨_, macroFiles_flatten true, hgone⟩, _, nesting, out, macroFiles_flatten false, hkept⟩

end NestedStacks
