/-
Which files macros open.

A macro stands in a file, and the path in it starts from the directory of that file: not from the
directory of a file that includes this one, and not from the scope of the whole load.  The files
that are opened are therefore told by what stands in the files alone.

* `Tree.calls` — the macros of a document, in document order;
* `Opens` — the files that replacing macros in a scope opens, one after the other;
* `Run.OpensFor` — work that opens those of some macros, with its rules;
* `resolveMacro_eq_of_included` — a scope and an argument count only for the path that they mean;
* `resolveMacro_opensFor`, `loadFile_opened` — what macros and files open.
-/
import NestedStacks.Proofs.Comparing.Loading
import NestedStacks.Proofs.Document.Equality
import NestedStacks.Proofs.Document.Nodes
import NestedStacks.Proofs.Locating.Files

namespace NestedStacks

/-! ### The macros of a document -/

/-- The macro `m` and the text of its argument, if `.tagged tag payload` is a macro. -/
def TaggedNode.call? (tag : String) (payload : Tree) : Option (MacroTag × String) := do
  let c ← Tag.ofYaml? tag
  let m ← c.macroTag?
  let argument ← scalarText? payload
  return (m, argument)

/-- The macros of `t` outside keys with their arguments, in document order. -/
def Tree.calls (t : Tree) : List (MacroTag × String) :=
  t.nodes.filterMap fun node => TaggedNode.call? node.1 node.2

namespace Tree

theorem calls_seq (items : List Tree) : (Tree.seq items).calls = items.flatMap calls := by
  rw [calls, nodes_seq, List.filterMap_flatMap]
  rfl

theorem calls_map (entries : Entries) :
    (Tree.map entries).calls = entries.flatMap fun e => e.2.calls := by
  rw [calls, nodes_map, List.filterMap_flatMap]
  rfl

theorem calls_scalar {tag : String} {payload : Tree} {c : Tag} {s : String}
    (h : TaggedNode.ofTagged tag payload = .ok ⟨c, .scalar s⟩) :
    (Tree.tagged tag payload).calls = (c.macroTag?.map fun m => (m, s)).toList := by
  obtain ⟨hc, -, hs⟩ := TaggedNode.ofTagged_eq_scalar.mp h
  cases hm : c.macroTag? <;>
    simp [calls, nodes, nodes_of_scalarText? hs, TaggedNode.call?, hc, hs, hm]

theorem calls_sequence (tag : String) (items : List Tree) :
    (Tree.tagged tag (.seq items)).calls = (Tree.seq items).calls := by
  have hnone : TaggedNode.call? tag (.seq items) = none := by
    simp [TaggedNode.call?, TaggedNode.scalarText?]
  rw [calls, nodes, List.filterMap_cons, hnone]
  rfl

end Tree

/-! ### What macros open -/

/-- `scope.included argument`: the path that `argument` means in `scope`.  Blanks around it do not
count. -/
def Scope.included (scope : Scope) (argument : String) : Path := scope.resolve (Text.trim argument)

/-- `Opens w scope calls paths complete`: while the macros `calls` are replaced in `scope`, one
after the other, the files at `paths` are opened in this order; all of `calls` are replaced if
`complete` holds.  A macro opens `scope.included argument`, and one that includes a document goes on
with the macros of the document in the scope of that file.  Then the next one of `calls` is
replaced, in `scope` again. -/
inductive Opens (w : World) : Scope → List (MacroTag × String) → List Path → Bool → Prop
  | done {scope : Scope} : Opens w scope [] [] true
  /-- A fault that is not about a file ends the work. -/
  | stop {scope : Scope} {calls : List (MacroTag × String)} : Opens w scope calls [] false
  | fresh {scope : Scope} {argument : String} {rest : List (MacroTag × String)} {paths : List Path}
      {complete : Bool} (h : Opens w scope rest paths complete) :
      Opens w scope ((.generateUuid, argument) :: rest) paths complete
  /-- The file is not there, or what it holds cannot be used. -/
  | halt {scope : Scope} {m : MacroTag} {argument : String} {rest : List (MacroTag × String)}
      (hm : m ≠ .generateUuid) :
      Opens w scope ((m, argument) :: rest) [scope.included argument] false
  | text {scope : Scope} {argument text : String} {rest : List (MacroTag × String)}
      {paths : List Path} {complete : Bool} (hread : w.read (scope.included argument) = .ok text)
      (h : Opens w scope rest paths complete) :
      Opens w scope ((.includeString, argument) :: rest) (scope.included argument :: paths) complete
  /-- The work ends among the macros of the included document, or after the last of them. -/
  | within {scope : Scope} {argument text : String} {raw : Tree}
      {rest : List (MacroTag × String)} {inner : List Path} {complete : Bool}
      (hread : w.read (scope.included argument) = .ok text) (hparse : Markup.parse text = .ok raw)
      (hinner : Opens w (.ofFile (scope.included argument)) raw.calls inner complete) :
      Opens w scope ((.includeJson, argument) :: rest) (scope.included argument :: inner) false
  | document {scope : Scope} {argument text : String} {raw : Tree}
      {rest : List (MacroTag × String)} {inner paths : List Path} {complete : Bool}
      (hread : w.read (scope.included argument) = .ok text) (hparse : Markup.parse text = .ok raw)
      (hinner : Opens w (.ofFile (scope.included argument)) raw.calls inner true)
      (h : Opens w scope rest paths complete) :
      Opens w scope ((.includeJson, argument) :: rest)
        (scope.included argument :: (inner ++ paths)) complete

namespace Opens

variable {w : World} {scope : Scope} {calls calls' : List (MacroTag × String)}
  {paths paths' : List Path} {complete : Bool}

/-- Work that ends before the last one of `calls` does not come to those in `rest`. -/
theorem append_right (h : Opens w scope calls paths false) (rest : List (MacroTag × String)) :
    Opens w scope (calls ++ rest) paths false := by
  generalize hcomplete : false = complete at h
  induction h with
  | done => cases hcomplete
  | stop => exact .stop
  | fresh _ ih => exact .fresh (ih hcomplete)
  | halt hm => exact .halt hm
  | text hread _ ih => exact .text hread (ih hcomplete)
  | within hread hparse hinner _ => exact .within hread hparse hinner
  | document hread hparse hinner _ _ ih => exact .document hread hparse hinner (ih hcomplete)

/-- If all of `calls` are replaced, `calls'` are next, in the same scope. -/
theorem append (h : Opens w scope calls paths true) (h' : Opens w scope calls' paths' complete) :
    Opens w scope (calls ++ calls') (paths ++ paths') complete := by
  generalize hcomplete : true = before at h
  induction h with
  | done => exact h'
  | stop | halt | within => cases hcomplete
  | fresh _ ih => exact .fresh (ih h' hcomplete)
  | text hread _ ih => exact .text hread (ih h' hcomplete)
  | document hread hparse hinner _ _ ih =>
    rw [List.cons_append, List.cons_append, List.append_assoc]
    exact .document hread hparse hinner (ih h' hcomplete)

/-- Work may end after any of `calls`. -/
theorem cut (h : Opens w scope calls paths complete) (rest : List (MacroTag × String)) :
    Opens w scope (calls ++ rest) paths false := by
  cases complete with
  | false => exact h.append_right rest
  | true =>
    have hstop : Opens w scope (calls ++ rest) (paths ++ []) false := h.append .stop
    rwa [List.append_nil] at hstop

end Opens

/-- `x.OpensFor w scope calls`: the work `x` in `w` opens the files that the macros `calls` open in
`scope`, those of all of them if it succeeds. -/
def Run.OpensFor {ε α : Type} (w : World) (scope : Scope) (calls : List (MacroTag × String))
    (x : Run ε α) : Prop :=
  ∀ n, ∃ complete, Opens w scope calls (x w n).opened complete ∧
    ∀ a, (x w n).result = .ok a → complete = true

namespace Run.OpensFor

variable {ε α β : Type} {w : World} {scope : Scope} {calls calls' : List (MacroTag × String)}

theorem pure (a : α) : OpensFor w scope [] (Pure.pure a : Run ε α) :=
  fun _ => ⟨true, .done, fun _ _ => rfl⟩

theorem fail (e : ε) : OpensFor w scope calls (Run.fail e : Run ε α) :=
  fun _ => ⟨false, .stop, fun _ h => by simp at h⟩

/-- The rule for two parts: first `calls` are replaced by `x`, then `calls'` by `f a`. -/
theorem bind {x : Run ε α} {f : α → Run ε β} (hx : OpensFor w scope calls x)
    (hf : ∀ a, OpensFor w scope calls' (f a)) : OpensFor w scope (calls ++ calls') (x >>= f) := by
  intro n
  obtain ⟨complete, hopens, hcomplete⟩ := hx n
  cases h : (x w n).result with
  | error e =>
    rw [bind_error f h]
    exact ⟨false, hopens.cut calls', fun _ hok => by simp at hok⟩
  | ok a =>
    -- the second part starts only when all macros of the first one have been replaced
    obtain rfl := hcomplete a h
    obtain ⟨complete', hopens', hcomplete'⟩ := hf a (n + (x w n).drawn)
    rw [opened_bind ⟨h, rfl⟩, bind_ok f h]
    exact ⟨complete', hopens.append hopens', hcomplete'⟩

theorem bind_pure {x : Run ε α} (hx : OpensFor w scope calls x) (g : α → β) :
    OpensFor w scope calls (x >>= fun a => Pure.pure (g a)) := by
  have hbind : OpensFor w scope (calls ++ []) (x >>= fun a => Pure.pure (g a)) :=
    hx.bind fun a => pure (g a)
  rwa [List.append_nil] at hbind

theorem mapM {f : α → Run ε β} {g : α → List (MacroTag × String)} {xs : List α}
    (h : ∀ x ∈ xs, OpensFor w scope (g x) (f x)) :
    OpensFor w scope (xs.flatMap g) (xs.mapM f) := by
  induction xs with
  | nil => exact pure []
  | cons x xs ih =>
    rw [List.mapM_cons, List.flatMap_cons]
    exact (h x (by simp)).bind fun y => (ih fun z hz => h z (by simp [hz])).bind_pure _

theorem note_bind {l : Level} {g : Origin} {s : String} {f : Unit → Run ε α}
    (h : OpensFor w scope calls (f ())) : OpensFor w scope calls (note l g s >>= f) := by
  intro n
  rw [opened_note_bind, result_note_bind]
  exact h n

end Run.OpensFor

/-! ### Documents -/

/-- The document `t` opens what its macros open, one by one, in document order. -/
theorem Tree.load_opensFor {w : World} {scope : Scope} {r : Resolver}
    (hr : ∀ m argument, (r m argument).OpensFor w scope [(m, argument)]) (t : Tree) :
    (t.load (some r)).OpensFor w scope t.calls := by
  induction t using Tree.induct with
  | null | bool | num | str => exact .pure _
  | seq items ih =>
    rw [load_seq, calls_seq]
    exact (Run.OpensFor.mapM ih).bind_pure _
  | map entries _ ih =>
    rw [load_map, calls_map]
    exact (Run.OpensFor.mapM fun e he => (ih e he).bind_pure _).bind_pure _
  | tagged tag payload ih =>
    generalize hrun : (Tree.tagged tag payload).load (some r) = run
    cases taggedLoad hrun with
    | fault => exact .fail _
    | text hnode hc =>
      rw [calls_scalar hnode, hc.resolve_left (by simp)]
      exact .pure _
    | replaced hnode hsome =>
      cases hsome
      rw [calls_scalar hnode]
      exact .note_bind (hr _ _)
    | list hnode =>
      rw [calls_sequence]
      exact ih.bind_pure _

/-! ### Macros -/

section

variable {w : World} {scope : Scope} {m : MacroTag} {argument : String}

theorem includedFile_of_blank (m : MacroTag) (scope : Scope)
    (h : (Text.trim argument).isEmpty = true) :
    includedFile m scope argument = Run.fail (.missingPath m) := by
  rw [includedFile]
  exact if_pos h

theorem includedFile_of_path (m : MacroTag) (scope : Scope)
    (h : (Text.trim argument).isEmpty = false) :
    includedFile m scope argument =
      Run.note .debug .including ("Including " ++ (scope.included argument).quoted) >>= fun _ =>
        (Run.read (scope.included argument)).mapError (.ofFault (scope.included argument)) >>=
          fun text => pure (scope.included argument, text) := by
  rw [includedFile]
  exact if_neg (by simp [h])

/-- A macro `m` that includes a file opens `scope.included argument` first. -/
theorem includedFile_opensFor {f : Path × String → Run DocumentError Tree}
    (hm : m ≠ .generateUuid)
    (hf : ∀ text n, w.read (scope.included argument) = .ok text → ∃ complete,
      Opens w scope [(m, argument)]
        (scope.included argument :: (f (scope.included argument, text) w n).opened) complete ∧
      ∀ t, (f (scope.included argument, text) w n).result = .ok t → complete = true) :
    (includedFile m scope argument >>= f).OpensFor w scope [(m, argument)] := by
  cases hblank : (Text.trim argument).isEmpty with
  | true =>
    rw [includedFile_of_blank m scope hblank]
    exact fun n => ⟨false, .stop, fun _ h => by simp [Run.bind_eq_ok] at h⟩
  | false =>
    rw [includedFile_of_path m scope hblank]
    simp only [bind_assoc, pure_bind]
    refine .note_bind fun n => ?_
    cases hread : w.read (scope.included argument) with
    | error fault =>
      obtain ⟨hopened, hresult⟩ := Run.read_bind_error hread
        (.ofFault (scope.included argument)) fun text => f (scope.included argument, text)
      rw [hopened, hresult]
      exact ⟨false, .halt hm, fun _ h => by cases h⟩
    | ok text =>
      obtain ⟨hopened, hresult⟩ := Run.read_bind_ok hread
        (.ofFault (scope.included argument)) fun text => f (scope.included argument, text)
      rw [hopened, hresult]
      exact hf text n hread

/-- `InsideOpens w inside`: `inside path text` opens what the macros of the document with `text`
open in the scope of the file at `path`; or it opens nothing and fails. -/
def InsideOpens (w : World) (inside : Path → String → Run DocumentError Tree) : Prop :=
  ∀ path text n,
    (∃ raw complete, Markup.parse text = .ok raw ∧
      Opens w (.ofFile path) raw.calls (inside path text w n).opened complete ∧
      ∀ t, (inside path text w n).result = .ok t → complete = true) ∨
    (inside path text w n).opened = [] ∧ ∀ t, (inside path text w n).result ≠ .ok t

/-- The macro `m` opens `scope.included argument`, and then what the document in there opens. -/
theorem includeVia_opensFor {inside : Path → String → Run DocumentError Tree}
    (h : InsideOpens w inside) :
    (includeVia inside scope m argument).OpensFor w scope [(m, argument)] := by
  cases m with
  | generateUuid => exact fun n => ⟨true, .fresh .done, fun _ _ => rfl⟩
  | includeString =>
    refine includedFile_opensFor (by simp) fun text n hread => ?_
    exact ⟨true, .text hread .done, fun _ _ => rfl⟩
  | includeJson =>
    refine includedFile_opensFor (by simp) fun text n hread => ?_
    -- the plain data is taken without a step, so only the document itself counts
    rw [Run.opened_bind_of_silent fun document k => Run.opened_bind_of_silent fun _ _ => rfl]
    have hinside {t : Tree}
        (ht : ((inside (scope.included argument) text >>= fun document =>
          Run.ofExcept document.toData >>= fun data => pure (.str data.compact)) w n).result =
            .ok t) :
        ∃ document, (inside (scope.included argument) text w n).result = .ok document := by
      obtain ⟨document, hdocument, -⟩ := Run.bind_eq_ok.mp ht
      exact ⟨document, hdocument⟩
    obtain ⟨raw, complete, hparse, hopens, hcomplete⟩ | ⟨hnothing, hfails⟩ :=
      h (scope.included argument) text n
    · cases complete with
      | true =>
        have hdocument := Opens.document hread hparse hopens .done
        rw [List.append_nil] at hdocument
        exact ⟨true, hdocument, fun _ _ => rfl⟩
      | false =>
        refine ⟨false, .within hread hparse hopens, fun t ht => ?_⟩
        obtain ⟨document, hdocument⟩ := hinside ht
        exact hcomplete document hdocument
    · rw [hnothing]
      refine ⟨false, .halt (by simp), fun t ht => ?_⟩
      obtain ⟨document, hdocument⟩ := hinside ht
      exact absurd hdocument (hfails document)

theorem loadWith_of_parse {text : String} {raw : Tree} (h : Markup.parse text = .ok raw)
    (resolve : Option Resolver) : loadWith resolve text = raw.load resolve := by
  rw [loadWith, h]
  rfl

theorem loadWith_of_fault {text : String} {fault : Markup.Fault}
    (h : Markup.parse text = .error fault) (resolve : Option Resolver) :
    loadWith resolve text = Run.fail (.parse fault) := by
  rw [loadWith, h]
  rfl

/-- However many documents may follow in a row, the macro `m` opens files in `scope`, and each of
the documents opens files in the scope of its own file. -/
theorem resolveMacro_opensFor (w : World) (depth : Nat) (scope : Scope) (m : MacroTag)
    (argument : String) :
    (resolveMacro depth scope m argument).OpensFor w scope [(m, argument)] := by
  -- an included document has the scope of its own file, so the scope is generalized
  induction depth generalizing scope m argument with
  | zero =>
    rw [resolveMacro_eq_via]
    exact includeVia_opensFor fun _ _ _ => .inr ⟨rfl, fun _ h => by cases h⟩
  | succ depth ih =>
    rw [resolveMacro_eq_via]
    refine includeVia_opensFor fun path text n => ?_
    rw [includedDocument]
    cases hparse : Markup.parse text with
    | error fault =>
      rw [loadWith_of_fault hparse]
      exact .inr ⟨rfl, fun _ h => by cases h⟩
    | ok raw =>
      rw [loadWith_of_parse hparse]
      obtain ⟨complete, hopens⟩ := Tree.load_opensFor (ih (.ofFile path)) raw n
      exact .inl ⟨raw, complete, rfl, hopens⟩

/-- A scope and an argument count only for the path `scope.included argument`. -/
theorem resolveMacro_eq_of_included {scope' : Scope} {argument' : String}
    (hm : m ≠ .generateUuid) (hblank : (Text.trim argument).isEmpty = false)
    (hblank' : (Text.trim argument').isEmpty = false)
    (hpath : scope.included argument = scope'.included argument') (depth : Nat) :
    resolveMacro depth scope m argument = resolveMacro depth scope' m argument' := by
  have hfile : includedFile m scope argument = includedFile m scope' argument' := by
    rw [includedFile_of_path m scope hblank, includedFile_of_path m scope' hblank', hpath]
  rw [resolveMacro_eq_via, resolveMacro_eq_via]
  cases m with
  | generateUuid => exact absurd rfl hm
  | includeString | includeJson => rw [includeVia, includeVia, hfile]

end

/-! ### Texts and files -/

theorem loadText_opensFor {text : String} {raw : Tree} (h : Markup.parse text = .ok raw)
    (scope : Scope) (w : World) : (loadText true scope text).OpensFor w scope raw.calls := by
  intro n
  rw [loadText_run, loadWith_of_parse h]
  exact Tree.load_opensFor (resolveMacro_opensFor w w.depth scope) raw n

/-- The file at `path` is opened, and then what its text opens in the scope of the file. -/
theorem loadFile_opened {w : World} {path : Path} {text : String} (h : w.read path = .ok text)
    (macros : Bool) (n : Nat) :
    (loadFile macros path w n).opened =
        path :: (loadText macros (.ofFile path) text w n).opened ∧
      ∀ t, (loadFile macros path w n).result = .ok t →
        ∃ t', (loadText macros (.ofFile path) text w n).result = .ok t' := by
  rw [loadFile, Run.opened_note_bind, Run.result_note_bind]
  obtain ⟨hopened, hresult⟩ := Run.read_bind_ok (n := n) h (.ofFault path) fun text =>
    loadText macros (.ofFile path) text >>= fun document =>
      Run.note .info .loading ("Loaded template " ++ path.text) >>= fun _ => pure document
  refine ⟨hopened.trans (congrArg _ (Run.opened_bind_of_silent fun _ _ => rfl)), fun t ht => ?_⟩
  obtain ⟨document, hdocument, -⟩ := Run.bind_eq_ok.mp (hresult.symm.trans ht)
  exact ⟨document, hdocument⟩

/-- **A macro reads the path that its argument means in the scope of its own file.**  If two
arguments are not blank and `scope.included argument` is the same path as
`scope'.included argument'`, a macro `m` that reads a file is the same work in both scopes.  The
files that loading a text opens in `scope`, or loading the file at `path` in the scope of that file,
are those that `Opens` tells for the macros of the document `raw`: each one is found from the
directory of the file in which its macro stands, down any chain of files and back up again. -/
theorem includes_start_from_own_file (w : World) (n : Nat) :
    (∀ depth scope scope' m argument argument', m ≠ .generateUuid →
      (Text.trim argument).isEmpty = false → (Text.trim argument').isEmpty = false →
      scope.included argument = scope'.included argument' →
      resolveMacro depth scope m argument = resolveMacro depth scope' m argument') ∧
    (∀ scope text raw, Markup.parse text = .ok raw → ∃ complete,
      Opens w scope raw.calls (loadText true scope text w n).opened complete ∧
      ∀ t, (loadText true scope text w n).result = .ok t → complete = true) ∧
    ∀ path text raw, w.read path = .ok text → Markup.parse text = .ok raw → ∃ paths complete,
      (loadFile true path w n).opened = path :: paths ∧
      Opens w (.ofFile path) raw.calls paths complete ∧
      ∀ t, (loadFile true path w n).result = .ok t → complete = true := by
  refine ⟨fun depth scope scope' m argument argument' hm hblank hblank' hpath =>
    resolveMacro_eq_of_included hm hblank hblank' hpath depth,
    fun scope text raw hparse => loadText_opensFor hparse scope w n, ?_⟩
  intro path text raw hread hparse
  obtain ⟨complete, hopens, hcomplete⟩ := loadText_opensFor hparse (.ofFile path) w n
  obtain ⟨hopened, hresult⟩ := loadFile_opened hread true n
  refine ⟨_, complete, hopened, hopens, fun t ht => ?_⟩
  obtain ⟨document, hdocument⟩ := hresult t ht
  exact hcomplete document hdocument

/-- Three files in a row, each in a directory inside that of the one before, and a file of the same
name beside each of them. -/
def chainFiles : World :=
  .ofTexts ⟨"/d"⟩
    [(⟨"/d/r"⟩, "[!IncludeJsonStringFromYamlFile a/b, !IncludeString n]"),
      (⟨"/d/a/b"⟩, "[!IncludeJsonStringFromYamlFile c/d, !IncludeString n]"),
      (⟨"/d/a/c/d"⟩, "!IncludeString n"),
      (⟨"/d/n"⟩, ""), (⟨"/d/a/n"⟩, ""), (⟨"/d/a/c/n"⟩, "")] 3

/-- In `chainFiles` the argument `n` means `./a/c/n` in `./a/c/d`, as `a/c/n` does in `r`; and
behind the documents that `r` includes the argument `n` means `./a/n` in `./a/b` and `./n` in `r`
again. -/
theorem includes_start_from_own_file_chain :
    resolveMacro 3 (.ofFile ⟨"r"⟩) .includeString " a/c/n" =
        resolveMacro 3 (.ofFile ⟨"./a/c/d"⟩) .includeString "n" ∧
      Opens chainFiles (.ofFile ⟨"./a/c/d"⟩) [(.includeString, "n")] [⟨"./a/c/n"⟩] true ∧
      Opens chainFiles (.ofFile ⟨"r"⟩) [(.includeJson, "a/b"), (.includeString, "n")]
        [⟨"./a/b"⟩, ⟨"./a/c/d"⟩, ⟨"./a/c/n"⟩, ⟨"./a/n"⟩, ⟨"./n"⟩] true := by
  obtain ⟨hsame, htext, hfile⟩ := includes_start_from_own_file chainFiles 0
  refine ⟨hsame 3 _ _ _ _ _ (by decide) (by decide) (by decide) (by decide +kernel), ?_, ?_⟩
  · have hparse : Markup.parse "!IncludeString n" =
        .ok (.tagged "IncludeString" (.str "n")) := by decide +kernel
    have hresult : (loadText true (.ofFile ⟨"./a/c/d"⟩) "!IncludeString n" chainFiles 0).result =
        .ok (.str "") := by decide +kernel
    obtain ⟨complete, hopens, hcomplete⟩ := htext (.ofFile ⟨"./a/c/d"⟩) _ _ hparse
    obtain rfl := hcomplete _ hresult
    have hopened : (loadText true (.ofFile ⟨"./a/c/d"⟩) "!IncludeString n" chainFiles 0).opened =
        [⟨"./a/c/n"⟩] := by decide +kernel
    rwa [hopened] at hopens
  · have hread : chainFiles.read ⟨"r"⟩ =
        .ok "[!IncludeJsonStringFromYamlFile a/b, !IncludeString n]" := by decide +kernel
    have hparse : Markup.parse "[!IncludeJsonStringFromYamlFile a/b, !IncludeString n]" =
        .ok (.seq [.tagged "IncludeJsonStringFromYamlFile" (.str "a/b"),
          .tagged "IncludeString" (.str "n")]) := by decide +kernel
    have hresult : (loadFile true ⟨"r"⟩ chainFiles 0).result =
        .ok (.seq [.str "[\"\\\"\\\"\",\"\"]", .str ""]) := by decide +kernel
    obtain ⟨paths, complete, hopened, hopens, hcomplete⟩ := hfile ⟨"r"⟩ _ _ hread hparse
    obtain rfl := hcomplete _ hresult
    have hpaths : (loadFile true ⟨"r"⟩ chainFiles 0).opened =
        [⟨"r"⟩, ⟨"./a/b"⟩, ⟨"./a/c/d"⟩, ⟨"./a/c/n"⟩, ⟨"./a/n"⟩, ⟨"./n"⟩] := by decide +kernel
    obtain ⟨-, rfl⟩ := List.cons.inj (hpaths.symm.trans hopened)
    exact hopens

end NestedStacks
