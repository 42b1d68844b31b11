/-
Loading the same document in two worlds.

A document is loaded alike when its macros are replaced alike, and these when the files that they
include read alike.  So the worlds, the scopes and the bounds on includes may be different ones, as
long as each file that is read is the same.

* `DocumentError.path?`, `StackError.path?`, `ErrorsAgree` — errors that go together;
* `Tree.load_alike` — from the macros of a document to the document;
* `includeVia`, `includedDocument`, `includeVia_related`, `includeVia_alike` — one step of
  including;
* `loadFile_alike`, `Template.load_alike` — files.
-/
import NestedStacks.Proofs.Comparing.Runs
import NestedStacks.Proofs.Nesting.Unfolding
import NestedStacks.Proofs.Tagging.Macros
import NestedStacks.Proofs.Template.Faults

namespace NestedStacks

/-! ### Errors -/

/-- The path that `e` is about, if it is about a file. -/
def DocumentError.path? : DocumentError → Option Path
  | .notFound path | .unreadable path _ | .endlessInclude path => some path
  | _ => none

/-- The path that `e` is about, if it is about a file. -/
def StackError.path? : StackError → Option Path
  | .endlessNesting path => some path
  | .document e => e.path?
  | _ => none

/-- `ErrorsAgree E S`: the relations `E` and `S` of errors in two worlds hold between each error `e`
with `e.path? = none` and itself, and `S` holds between document errors for which `E` does. -/
structure ErrorsAgree (E : DocumentError → DocumentError → Prop)
    (S : StackError → StackError → Prop) : Prop where
  document : ∀ e, e.path? = none → E e e
  stack : ∀ e, e.path? = none → S e e
  inside : ∀ e e', E e e' → S (.document e) (.document e')

theorem TaggedNode.path?_of_ofTagged {tag : String} {raw : Tree} {e : DocumentError}
    (h : ofTagged tag raw = .error e) : e.path? = none := by
  rcases ofTagged_eq_error h with rfl | ⟨t, rfl⟩
  · rfl
  · rfl

theorem Tree.path?_of_toData {t : Tree} (ht : t.WellTagged) {e : DocumentError}
    (h : t.toData = .error e) : e.path? = none := by
  obtain ⟨found, rfl⟩ := ht.toData_eq_error h
  rfl

theorem StackError.AboutTemplate.path?_eq {e : StackError} (h : e.AboutTemplate) :
    e.path? = none := by
  unfold StackError.AboutTemplate at h
  split at h
  · rfl
  · rfl
  · rfl
  · rfl
  · exact h.elim

variable {w w' : World} {E : DocumentError → DocumentError → Prop}
  {S : StackError → StackError → Prop} {macros : Bool} {path path' : Path}

/-! ### Documents -/

/-- `ResolversAlike w w' E t resolve resolve'`: both leave macros, or for each macro `m` of `t` with
its `argument` the work `r m argument` in `w` goes like `r' m argument` in `w'`, with one value and
with errors in `E`. -/
def ResolversAlike (w w' : World) (E : DocumentError → DocumentError → Prop) (t : Tree) :
    Option Resolver → Option Resolver → Prop
  | none, none => True
  | some r, some r' => ∀ place m payload argument, t.MacroAt place m payload →
      TaggedNode.scalarText? payload = some argument →
        (r m argument).Alike w w' E Eq (r' m argument)
  | _, _ => False

theorem ResolversAlike.part {t u : Tree} {resolve resolve' : Option Resolver} (hu : u ∈ t.parts)
    (h : ResolversAlike w w' E t resolve resolve') : ResolversAlike w w' E u resolve resolve' := by
  obtain ⟨i, hi⟩ := List.getElem?_of_mem hu
  cases resolve <;> cases resolve' <;> try exact h
  intro place m payload argument hat hargument
  exact h (i :: place) m payload argument (Tree.macroAt_cons.mpr ⟨u, hi, hat⟩) hargument

namespace Tree

/-- The document `t` is loaded alike by `resolve` and `resolve'` if its macros are replaced
alike. -/
theorem load_alike (hE : ∀ e, e.path? = none → E e e) {resolve resolve' : Option Resolver}
    {t : Tree} (h : ResolversAlike w w' E t resolve resolve') :
    (t.load resolve).Alike w w' E Eq (t.load resolve') := by
  induction t using Tree.induct with
  | null | bool | num | str => exact .pure rfl
  | seq items ih =>
    have hitems : ∀ u ∈ (Tree.seq items).parts,
        (u.load resolve).Alike w w' E Eq (u.load resolve') := fun u hu => ih u hu (h.part hu)
    rw [load_seq, load_seq]
    refine (Run.Related.mapM hitems).bind fun _ us _ us' _ hus => ?_
    subst hus
    exact .pure rfl
  | map entries _ ih =>
    rw [load_map, load_map]
    refine Run.Related.bind (Run.Related.mapM fun e he => ?_) fun _ es _ es' _ hes => ?_
    · refine (ih e he (h.part (List.mem_map_of_mem he))).bind fun _ v _ v' _ hv => ?_
      subst hv
      exact .pure rfl
    · subst hes
      exact .pure rfl
  | tagged tag payload ih =>
    have hpayload := ih (h.part (List.mem_singleton.mpr rfl))
    cases hnode : TaggedNode.ofTagged tag payload with
    | error e =>
      rw [load, load, hnode]
      exact .fail (hE e (TaggedNode.path?_of_ofTagged hnode))
    | ok node =>
      obtain ⟨c, hc, ⟨-, s, hs, rfl⟩ | ⟨-, items, rfl, rfl⟩⟩ := TaggedNode.ofTagged_eq_ok.mp hnode
      · cases c with
        | intrinsic i =>
          rw [load_text hnode (.inr rfl), load_text hnode (.inr rfl)]
          exact .pure rfl
        | macroTag m =>
          cases resolve <;> cases resolve'
          · rw [load_text hnode (.inl rfl)]
            exact .pure rfl
          · exact h.elim
          · exact h.elim
          · rw [load_replaced hnode, load_replaced hnode]
            exact .note_bind (h [] m payload s ⟨tag, rfl, hc⟩ hs)
      · rw [load_list hnode, load_list hnode]
        refine hpayload.bind fun _ u _ u' _ hu => ?_
        subst hu
        exact .pure rfl

end Tree

theorem loadWith_alike (hE : ∀ e, e.path? = none → E e e) {resolve resolve' : Option Resolver}
    {text : String}
    (h : ∀ raw, Markup.parse text = .ok raw → ResolversAlike w w' E raw resolve resolve') :
    (loadWith resolve text).Alike w w' E Eq (loadWith resolve' text) := by
  have hparse : (Run.ofExcept ((Markup.parse text).mapError .parse)).Alike w w' E Eq
      (Run.ofExcept ((Markup.parse text).mapError .parse)) := by
    refine .ofExcept (.same fun e he => ?_)
    obtain ⟨fault, -, rfl⟩ := Except.mapError_eq_error.mp he
    exact hE _ rfl
  refine hparse.bind fun _ raw _ raw' hraw hsame => ?_
  subst hsame
  exact Tree.load_alike hE (h raw (Except.mapError_eq_ok.mp (Run.yields_ofExcept.mp hraw).1))

/-! ### Included files -/

/-- `includeVia inside scope m argument`: the value of the macro `m` in `scope`, where
`inside path text` loads the document with `text` in the file at `path`. -/
def includeVia (inside : Path → String → Run DocumentError Tree) (scope : Scope) : Resolver :=
  fun tag argument =>
    match tag with
    | .generateUuid => do return .str (← Run.draw)
    | .includeString => do
      let (_, text) ← includedFile tag scope argument
      return .str text
    | .includeJson => do
      let (path, text) ← includedFile tag scope argument
      let document ← inside path text
      let data ← Run.ofExcept document.toData
      return .str data.compact

/-- `includedDocument depth path text`: the document with `text` in an included file at `path`;
`depth` counts it and those that may follow in a row. -/
def includedDocument : Nat → Path → String → Run DocumentError Tree
  | 0, path, _ => Run.fail (.endlessInclude path)
  | depth + 1, path, text => loadWith (some (resolveMacro depth (.ofFile path))) text

theorem resolveMacro_eq_via (depth : Nat) (scope : Scope) :
    resolveMacro depth scope = includeVia (includedDocument depth) scope := by
  funext tag argument
  cases depth <;> cases tag <;> rfl

theorem wellTagged_includedDocument {depth : Nat} {text : String} {n n' : Nat} {t : Tree}
    (h : (includedDocument depth path text).Yields w n t n') : t.WellTagged := by
  cases depth with
  | zero => exact absurd h Run.not_yields_fail
  | succ depth =>
    obtain ⟨raw, _, -, hload⟩ := Run.yields_bind.mp h
    have hresolver : resolver? true depth (.ofFile path) =
      some (resolveMacro depth (.ofFile path)) := rfl
    rw [← hresolver] at hload
    exact (Tree.normal_of_load hload.1).wellTagged

/-- `IncludesAlike w w' E scope scope' argument`: the file that `argument` means in `scope` reads in
`w` as the one that it means in `scope'` does in `w'`, and the errors of a fault in reading are in
`E`. -/
def IncludesAlike (w w' : World) (E : DocumentError → DocumentError → Prop) (scope scope' : Scope)
    (argument : String) : Prop :=
  w.read (scope.resolve argument) = w'.read (scope'.resolve argument) ∧
    ∀ fault, w.read (scope.resolve argument) = .error fault →
      E (.ofFault (scope.resolve argument) fault) (.ofFault (scope'.resolve argument) fault)

/-- The works `f` and `f'` on the file that `argument` means in `scope` and in `scope'` are related
if they are related on its text. -/
theorem includedFile_bind_related {draws : Prop} {α α' : Type} {V : α → α' → Prop}
    (hE : ∀ e, e.path? = none → E e e) {m : MacroTag} {scope scope' : Scope} {argument : String}
    {f : Path × String → Run DocumentError α} {f' : Path × String → Run DocumentError α'}
    (hinclude : (Text.trim argument).isEmpty = false →
      IncludesAlike w w' E scope scope' (Text.trim argument))
    (hf : (Text.trim argument).isEmpty = false → ∀ text,
      w.read (scope.resolve (Text.trim argument)) = .ok text →
        Run.Related draws w w' E V (f (scope.resolve (Text.trim argument), text))
          (f' (scope'.resolve (Text.trim argument), text))) :
    Run.Related draws w w' E V (includedFile m scope argument >>= f)
      (includedFile m scope' argument >>= f') := by
  rw [includedFile, includedFile]
  cases hempty : (Text.trim argument).isEmpty with
  | true =>
    have hfail : Run.Related draws w w' E (fun _ _ => False)
        (Run.fail (.missingPath m) : Run DocumentError (Path × String))
        (Run.fail (.missingPath m) : Run DocumentError (Path × String)) := .fail (hE _ rfl)
    exact hfail.bind fun _ _ _ _ _ hfalse => hfalse.elim
  | false =>
    obtain ⟨hread, hfault⟩ := hinclude hempty
    simp only [Bool.false_eq_true, if_false, bind_assoc, pure_bind]
    exact .note_bind (.read_bind hread hfault (hf hempty))

/-- What the macro `m` is replaced by in `scope` and in `scope'` is in `V` if texts are, which have
to be the same only if `draws` holds, if the file that it includes reads alike, and if the plain
data of the documents in there, loaded by `inside` and `inside'`, go together in the same way. -/
theorem includeVia_related {draws : Prop} {V : Tree → Tree → Prop}
    (hE : ∀ e, e.path? = none → E e e) {m : MacroTag} {scope scope' : Scope} {argument : String}
    {inside inside' : Path → String → Run DocumentError Tree}
    (hstr : ∀ s s', (draws → s = s') → V (.str s) (.str s'))
    (hinclude : (Text.trim argument).isEmpty = false →
      IncludesAlike w w' E scope scope' (Text.trim argument))
    (hinside : m = .includeJson → (Text.trim argument).isEmpty = false → ∀ text,
      w.read (scope.resolve (Text.trim argument)) = .ok text →
        Run.Related draws w w' E
          (fun t t' => Results E (fun d d' => draws → d = d') t.toData t'.toData)
          (inside (scope.resolve (Text.trim argument)) text)
          (inside' (scope'.resolve (Text.trim argument)) text)) :
    Run.Related draws w w' E V (includeVia inside scope m argument)
      (includeVia inside' scope' m argument) := by
  cases m with
  | generateUuid =>
    have hdraw : Run.Related draws w w' E (fun s s' => draws → s = s') Run.draw Run.draw :=
      .draw fun _ _ h => h
    exact hdraw.bind fun _ s _ s' _ hs => .pure (hstr s s' hs)
  | includeString =>
    exact includedFile_bind_related hE hinclude fun _ text _ => .pure (hstr text text fun _ => rfl)
  | includeJson =>
    refine includedFile_bind_related hE hinclude fun hempty text htext => ?_
    refine (hinside rfl hempty text htext).bind fun _ t _ t' _ hresults => ?_
    have hdata : Run.Related draws w w' E (fun d d' => draws → d = d') (Run.ofExcept t.toData)
        (Run.ofExcept t'.toData) := .ofExcept hresults
    exact hdata.bind fun _ d _ d' _ hd =>
      .pure (hstr _ _ fun hcount => congrArg Data.compact (hd hcount))

/-- The macro `m` is replaced alike in `scope` and `scope'` if the file that it includes reads alike
and the document in there is loaded alike, by `inside` and `inside'`. -/
theorem includeVia_alike (hE : ∀ e, e.path? = none → E e e) {m : MacroTag} {scope scope' : Scope}
    {argument : String} {inside inside' : Path → String → Run DocumentError Tree}
    (htagged : ∀ path text n t n', (inside path text).Yields w n t n' → t.WellTagged)
    (hinclude : (Text.trim argument).isEmpty = false →
      IncludesAlike w w' E scope scope' (Text.trim argument))
    (hinside : m = .includeJson → (Text.trim argument).isEmpty = false → ∀ text,
      w.read (scope.resolve (Text.trim argument)) = .ok text →
        (inside (scope.resolve (Text.trim argument)) text).Alike w w' E Eq
          (inside' (scope'.resolve (Text.trim argument)) text)) :
    (includeVia inside scope m argument).Alike w w' E Eq
      (includeVia inside' scope' m argument) := by
  refine includeVia_related hE (fun _ _ hs => congrArg Tree.str (hs trivial)) hinclude
    fun hm hempty text htext => ?_
  refine (hinside hm hempty text htext).imp fun n t n' t' ht hsame => ?_
  subst hsame
  have hdata : Results E Eq t.toData t.toData :=
    .same fun e he => hE e (Tree.path?_of_toData (htagged _ _ _ _ _ ht) he)
  exact hdata.imp fun _ _ heq _ => heq

/-! ### Files -/

theorem Run.Alike.congr {ε ε' α α' : Type} {E : ε → ε' → Prop} {V : α → α' → Prop} {x y : Run ε α}
    {x' y' : Run ε' α'} (h : Run.Alike w w' E V x x') (hx : y w = x w) (hx' : y' w' = x' w') :
    Run.Alike w w' E V y y' := by
  intro n n' hdraws
  rw [hx] at hdraws ⊢
  rw [hx']
  exact h n n' hdraws

/-- A file is loaded alike from `path` and `path'` if it reads alike and its macros are replaced
alike. -/
theorem loadFile_alike (hE : ∀ e, e.path? = none → E e e) (hread : w.read path = w'.read path')
    (hfault : ∀ fault, w.read path = .error fault → E (.ofFault path fault) (.ofFault path' fault))
    (h : ∀ text raw, w.read path = .ok text → Markup.parse text = .ok raw →
      ResolversAlike w w' E raw (resolver? macros w.depth (.ofFile path))
        (resolver? macros w'.depth (.ofFile path'))) :
    (loadFile macros path).Alike w w' E Eq (loadFile macros path') := by
  rw [loadFile, loadFile]
  refine .note_bind (.read_bind hread hfault fun text htext => ?_)
  have htext : (loadText macros (.ofFile path) text).Alike w w' E Eq
      (loadText macros (.ofFile path') text) := by
    have hwith := loadWith_alike hE fun raw hraw => h text raw htext hraw
    exact hwith.congr (funext fun n => loadText_run macros _ text w n)
      (funext fun n => loadText_run macros _ text w' n)
  refine htext.bind fun _ document _ document' _ hsame => ?_
  subst hsame
  exact .note_bind (.pure rfl)

/-- If a template is loaded from `path`, the file there has a text. -/
theorem Template.read_of_load {n n' : Nat} {t : Template}
    (h : (Template.load macros path).Yields w n t n') : ∃ text, w.read path = .ok text := by
  obtain ⟨tree, htree, -⟩ := Template.load_yields.mp h
  obtain ⟨text, -, hread, -⟩ := loadFile_yields.mp htree
  exact ⟨text, hread⟩

theorem Template.load_alike (herrors : ErrorsAgree E S) (hread : w.read path = w'.read path')
    (hfault : ∀ fault, w.read path = .error fault → E (.ofFault path fault) (.ofFault path' fault))
    (h : ∀ text raw, w.read path = .ok text → Markup.parse text = .ok raw →
      ResolversAlike w w' E raw (resolver? macros w.depth (.ofFile path))
        (resolver? macros w'.depth (.ofFile path'))) :
    (Template.load macros path).Alike w w' S Eq (Template.load macros path') := by
  have hfile := (loadFile_alike herrors.document hread hfault h).mapError herrors.inside
  refine hfile.bind fun _ tree _ tree' _ hsame => ?_
  subst hsame
  refine .ofExcept (.same fun e he => herrors.stack e ?_)
  exact (Template.aboutTemplate_ofTree he).path?_eq

end NestedStacks
