/-
Loading finds the first fault of a document, and only faults.

A tagged value is faulty if no tag of the catalog is spelled as it is, if it stands on a payload
that its tag does not accept, or if it is a macro that cannot be replaced.  The loader goes through
a document once, outside in; `load_error_iff_first_fault` says that it fails exactly over the first
faulty value in document order.

* `Tag.Spelled`, `PayloadKind.accepts` — the spellings and the payloads of a tag;
* `Tree.TagFault` — the faults of one tagged value;
* `Tree.load_eq_error_iff` — the failures of loading, for any way of replacing macros;
* `Resolver.Steady`, `resolveMacro_steady` — macros fail alike whatever was drawn before.
-/
import NestedStacks.Proofs.Comparing.Loading
import NestedStacks.Proofs.Document.Nodes
import NestedStacks.Proofs.Tagging.PlainData

namespace NestedStacks

/-! ### Spellings and payloads -/

/-- Whether a tag of the sort `kind` accepts payloads of a shape. -/
def PayloadKind.accepts (kind : PayloadKind) : Shape → Bool
  | .null | .scalar => kind != .sequence
  | .sequence => kind != .scalar
  | .mapping | .tagged => false

namespace Tag

/-- The names of a tag in documents: a macro has `m.shortName`, too. -/
def names : Tag → List String
  | .intrinsic i => [i.yamlName]
  | .macroTag m => [m.yamlName, m.shortName]

/-- `c.Spelled spelling`: `spelling` is one of the names of `c` behind any number of exclamation
marks. -/
def Spelled (c : Tag) (spelling : String) : Prop :=
  ∃ name ∈ c.names, ∃ k, spelling.toList = List.replicate k '!' ++ name.toList

theorem ofName?_of_mem {c : Tag} {name : String} (h : name ∈ c.names) :
    ofName? name = some c ∧ name.toList.dropWhile (· == '!') = name.toList := by
  -- no tag of the catalog has a name of another one, or a name with a mark in front
  have hall : ∀ name ∈ c.names,
      ofName? name = some c ∧ name.toList.dropWhile (· == '!') = name.toList := by
    cases c with
    | intrinsic i => cases i <;> decide +kernel
    | macroTag m => cases m <;> decide +kernel
  exact hall name h

theorem mem_names_of_ofName? {c : Tag} {name : String} (h : ofName? name = some c) :
    name ∈ c.names := by
  unfold ofName? at h
  split at h
  · next i hi =>
    cases h
    have hname : i.yamlName = name := by simpa using List.find?_some hi
    simp [names, hname]
  · obtain ⟨m, hm, rfl⟩ := Option.map_eq_some_iff.mp h
    have hname : m.yamlName = name ∨ m.shortName = name := by simpa using List.find?_some hm
    rcases hname with hname | hname <;> simp [names, hname]

/-- A `spelling` is found in the catalog as the tag `c` if it is one of the spellings of `c`. -/
theorem ofYaml?_eq_some {c : Tag} {spelling : String} :
    ofYaml? spelling = some c ↔ c.Spelled spelling := by
  constructor
  · intro h
    refine ⟨_, mem_names_of_ofName? h, (spelling.toList.takeWhile (· == '!')).length, ?_⟩
    rw [String.toList_ofList]
    have hmarks : spelling.toList.takeWhile (· == '!') =
        List.replicate (spelling.toList.takeWhile (· == '!')).length '!' := by
      refine List.eq_replicate_iff.mpr ⟨rfl, fun mark hmark => ?_⟩
      simpa using List.all_eq_true.mp List.all_takeWhile mark hmark
    rw [← hmarks, List.takeWhile_append_dropWhile]
  · rintro ⟨name, hname, k, hspelling⟩
    obtain ⟨hc, hdrop⟩ := ofName?_of_mem hname
    rw [ofYaml?, hspelling, List.dropWhile_append_of_pos (by simp), hdrop, String.ofList_toList, hc]

/-- A `spelling` is not found in the catalog if it is that of no tag. -/
theorem ofYaml?_eq_none {spelling : String} :
    ofYaml? spelling = none ↔ ∀ c : Tag, ¬c.Spelled spelling := by
  simp only [← ofYaml?_eq_some]
  exact Option.eq_none_iff_forall_ne_some

end Tag

/-! ### Faults -/

/-- `TagFault w resolve tag payload e`: what is wrong with `.tagged tag payload`.  The tag is none
of the catalog, the tag does not accept `payload`, or the value is a macro and replacing it by
`resolve` in `w` fails with `e`, whatever was drawn before. -/
inductive Tree.TagFault (w : World) (resolve : Option Resolver) (tag : String) (payload : Tree) :
    DocumentError → Prop
  | unknown (h : ∀ c : Tag, ¬c.Spelled tag) : TagFault w resolve tag payload (.unknownTag tag)
  | shape {c : Tag} (hc : c.Spelled tag) (h : c.kind.accepts payload.shape = false) :
      TagFault w resolve tag payload (.shape c payload.shape)
  | replacing {m : MacroTag} {argument : String} {r : Resolver} {n : Nat} {e : DocumentError}
      (hm : (Tag.macroTag m).Spelled tag)
      (hargument : TaggedNode.scalarText? payload = some argument)
      (hr : resolve = some r) (h : (r m argument w n).result = .error e) :
      TagFault w resolve tag payload e

namespace TaggedNode

theorem payload?_eq_none {kind : PayloadKind} {raw : Tree} :
    payload? kind raw = none ↔ kind.accepts raw.shape = false := by
  cases kind <;> cases raw <;>
    simp [payload?, scalarText?, Tree.shape, PayloadKind.accepts]

/-- A `tag` on `raw` is no node exactly if the tag is unknown or does not accept `raw`. -/
theorem ofTagged_eq_error_iff {tag : String} {raw : Tree} {e : DocumentError} :
    ofTagged tag raw = .error e ↔ (∀ c : Tag, ¬c.Spelled tag) ∧ e = .unknownTag tag ∨
      ∃ c : Tag, c.Spelled tag ∧ c.kind.accepts raw.shape = false ∧ e = .shape c raw.shape := by
  rw [← Tag.ofYaml?_eq_none]
  simp only [← Tag.ofYaml?_eq_some, ← payload?_eq_none]
  unfold ofTagged construct
  cases Tag.ofYaml? tag with
  | none => simp [eq_comm]
  | some c => cases h : payload? c.kind raw <;> simp [h, eq_comm]

end TaggedNode

namespace Tree

variable {w : World} {resolve : Option Resolver} {tag : String} {payload t : Tree}
  {e : DocumentError}

/-- The faults of a `tag` on a `payload`: it is no node, or it is a macro that `resolve` fails to
replace. -/
theorem tagFault_iff : TagFault w resolve tag payload e ↔
    TaggedNode.ofTagged tag payload = .error e ∨
      ∃ m argument r n, TaggedNode.ofTagged tag payload = .ok ⟨.macroTag m, .scalar argument⟩ ∧
        resolve = some r ∧ (r m argument w n).result = .error e := by
  rw [TaggedNode.ofTagged_eq_error_iff]
  constructor
  · rintro (h | ⟨hc, h⟩ | @⟨m, argument, r, n, _, hm, hargument, hr, h⟩)
    · exact .inl (.inl ⟨h, rfl⟩)
    · exact .inl (.inr ⟨_, hc, h, rfl⟩)
    · refine .inr ⟨m, argument, r, n, ?_, hr, h⟩
      have hc := Tag.ofYaml?_eq_some.mpr hm
      exact TaggedNode.ofTagged_eq_scalar.mpr ⟨hc, by simp [Tag.kind], hargument⟩
  · rintro ((⟨h, rfl⟩ | ⟨c, hc, h, rfl⟩) | ⟨m, argument, r, n, hnode, hr, h⟩)
    · exact .unknown h
    · exact .shape hc h
    · obtain ⟨hm, -, hargument⟩ := TaggedNode.ofTagged_eq_scalar.mp hnode
      exact .replacing (Tag.ofYaml?_eq_some.mp hm) hargument hr h

/-- A `node` has no fault of its own, unless it is a macro that `resolve` is to replace. -/
theorem tagFault_of_node {node : TaggedNode} (h : TaggedNode.ofTagged tag payload = .ok node) :
    TagFault w resolve tag payload e ↔ ∃ m argument r n, node = ⟨.macroTag m, .scalar argument⟩ ∧
      resolve = some r ∧ (r m argument w n).result = .error e := by
  simp [tagFault_iff, h]

end Tree

/-! ### Failures of loading -/

/-- If `f x` fails with `e` exactly if `P x e`, then the work on `xs` fails over the first such
`x`. -/
theorem Run.mapM_eq_error_iff {ε α β : Type} {w : World} {f : α → Run ε β} {P : α → ε → Prop}
    {xs : List α} (h : ∀ x ∈ xs, ∀ n e, (f x w n).result = .error e ↔ P x e) {n : Nat} {e : ε} :
    (xs.mapM f w n).result = .error e ↔ FirstOf P xs e := by
  induction xs generalizing n with
  | nil => simp
  | cons x xs ih =>
    have hx := h x (by simp)
    have hxs := @ih fun y hy => h y (by simp [hy])
    rw [List.mapM_cons, bind_eq_error_iff, FirstOf.cons, hx]
    refine or_congr_right ?_
    simp only [bind_pure_eq_error, hxs, exists_and_right]
    -- the first element succeeds exactly if nothing is wrong with it
    refine and_congr_left fun _ => ?_
    constructor
    · rintro ⟨a, ha⟩ e' he'
      rw [← hx n, ha] at he'
      cases he'
    · intro hnone
      cases hr : (f x w n).result with
      | ok a => exact ⟨a, rfl⟩
      | error e' => exact absurd ((hx n e').mp hr) (hnone e')

/-- `r.Steady w`: whether `r m argument` in `w` gives a value or an error, and which error, does not
depend on the number of identifiers drawn before, for any macro `m` and `argument`. -/
def Resolver.Steady (w : World) (r : Resolver) : Prop :=
  ∀ m argument, (r m argument).SameFaults w (fun _ _ => True) (r m argument)

namespace Tree

variable {w : World} {resolve : Option Resolver}

/-- Loading `t` fails over the first faulty value in `t.nodes`, if macros are steady. -/
theorem load_eq_error_iff (hsteady : ∀ r, resolve = some r → r.Steady w) {t : Tree} {n : Nat}
    {e : DocumentError} : (t.load resolve w n).result = .error e ↔
      FirstOf (fun node e => TagFault w resolve node.1 node.2 e) t.nodes e := by
  -- the draws are generalized: a part may be loaded after any number of them
  induction t using Tree.induct generalizing n e with
  | null | bool | num | str => simp [nodes]
  | seq items ih =>
    rw [load_seq, Run.bind_pure_eq_error, nodes_seq, FirstOf.flatMap]
    exact Run.mapM_eq_error_iff fun u hu _ _ => ih u hu
  | map entries _ ih =>
    rw [load_map, Run.bind_pure_eq_error, nodes_map, FirstOf.flatMap]
    refine Run.mapM_eq_error_iff fun entry hentry _ _ => ?_
    rw [Run.bind_pure_eq_error, ih entry hentry]
  | tagged tag payload ih =>
    rw [nodes, FirstOf.cons]
    generalize hrun : (Tree.tagged tag payload).load resolve = run
    cases taggedLoad hrun with
    | fault hnode => simp [tagFault_iff, hnode, eq_comm]
    | @text _ c s hnode hc =>
      have hfine (e) : ¬TagFault w resolve tag payload e := by
        rw [tagFault_of_node hnode]
        rintro ⟨m, argument, r, k, hm, rfl, -⟩
        cases hm
        simp [Tag.macroTag?] at hc
      rw [nodes_of_scalarText? (TaggedNode.ofTagged_eq_scalar.mp hnode).2.2]
      simp [hfine]
    | @replaced _ m r s hnode hr =>
      have hfault (e) : TagFault w resolve tag payload e ↔ ∃ k, (r m s w k).result = .error e := by
        rw [tagFault_of_node hnode]
        simp [hr]
      rw [nodes_of_scalarText? (TaggedNode.ofTagged_eq_scalar.mp hnode).2.2, Run.result_note_bind]
      simp only [FirstOf.nil, and_false, or_false, hfault]
      constructor
      · intro h
        exact ⟨n, h⟩
      · rintro ⟨k, h⟩
        exact (hsteady r hr m s).error h n
    | @list c items hnode =>
      have hfine (e) : ¬TagFault w resolve tag (.seq items) e := by
        rw [tagFault_of_node hnode]
        rintro ⟨m, argument, r, k, hm, -⟩
        cases hm
      rw [Run.bind_pure_eq_error, ih]
      simp [hfine]

/-- Loading `t` fails if there is a faulty value at any place of `t`. -/
theorem exists_load_eq_error (hsteady : ∀ r, resolve = some r → r.Steady w) {t : Tree} {n : Nat} :
    (∃ e, (t.load resolve w n).result = .error e) ↔
      ∃ place tag payload e, t.at? place = some (.tagged tag payload) ∧
        TagFault w resolve tag payload e := by
  simp only [load_eq_error_iff hsteady, FirstOf.exists_iff, Prod.exists, mem_nodes_iff]
  constructor
  · rintro ⟨tag, payload, ⟨place, hat⟩, e, h⟩
    exact ⟨place, tag, payload, e, hat, h⟩
  · rintro ⟨place, tag, payload, e, hat, h⟩
    exact ⟨tag, payload, ⟨place, hat⟩, e, h⟩

/-- Without macros a `tag` has a fault if no tag of that spelling accepts the `payload`. -/
theorem exists_tagFault_none {tag : String} {payload : Tree} :
    (∃ e, TagFault w none tag payload e) ↔
      ∀ c : Tag, c.Spelled tag → c.kind.accepts payload.shape = false := by
  constructor
  · rintro ⟨_, h | ⟨hc, h⟩ | ⟨_, _, hr, _⟩⟩ c' hc'
    · exact absurd hc' (h c')
    · obtain rfl := Option.some.inj
        ((Tag.ofYaml?_eq_some.mpr hc).symm.trans (Tag.ofYaml?_eq_some.mpr hc'))
      exact h
    · cases hr
  · intro h
    by_cases hknown : ∃ c : Tag, c.Spelled tag
    · obtain ⟨c, hc⟩ := hknown
      exact ⟨_, .shape hc (h c hc)⟩
    · exact ⟨_, .unknown (not_exists.mp hknown)⟩

end Tree

/-! ### Macros -/

/-- If the macros of `r` fail alike whatever was drawn, so does loading a `text`, and so do the
plain data of what is loaded. -/
theorem loadWith_sameFaults {r : Resolver} {w : World}
    (hsteady : r.Steady w)
    (hgiven : ∀ m argument n t, (r m argument w n).result = .ok t → ∃ s, t = .str s)
    (text : String) : (loadWith (some r) text).SameFaults w
      (fun t t' => ∀ e, t.toData = .error e ↔ t'.toData = .error e) (loadWith (some r) text) := by
  have hparse : (Run.ofExcept ((Markup.parse text).mapError .parse)).SameFaults w Eq
      (Run.ofExcept ((Markup.parse text).mapError DocumentError.parse)) :=
    .ofExcept (.same fun _ _ => rfl)
  refine hparse.bind fun _ raw _ _ _ hraw => .of_uncounted fun n n' => ?_
  subst hraw
  have hfails {n : Nat} {e : DocumentError} : (raw.load (some r) w n).result = .error e ↔
      FirstOf (fun node e => Tree.TagFault w (some r) node.1 node.2 e) raw.nodes e :=
    Tree.load_eq_error_iff fun _ hr => Option.some.inj hr ▸ hsteady
  have hsame {n : Nat} {t : Tree} (h : (raw.load (some r) w n).result = .ok t) :
      raw.SameData (some r = none) t :=
    Tree.sameData_of_load (fun _ hr => Option.some.inj hr ▸ hgiven) h
  refine .of_errors (fun e => hfails.trans hfails.symm) fun t t' ht ht' e => ?_
  -- two loads may give other identifiers, but both have the fault of the document itself
  exact (hsame ht).error_iff.symm.trans (hsame ht').error_iff

theorem includeVia_sameFaults {inside : Path → String → Run DocumentError Tree} {w : World}
    (h : ∀ path text, (inside path text).SameFaults w
      (fun t t' => ∀ e, t.toData = .error e ↔ t'.toData = .error e) (inside path text))
    {scope : Scope} {m : MacroTag} {argument : String} :
    (includeVia inside scope m argument).SameFaults w (fun _ _ => True)
      (includeVia inside scope m argument) := by
  refine includeVia_related (fun _ _ => rfl) (fun _ _ _ => trivial)
    (fun _ => ⟨rfl, fun _ _ => rfl⟩) fun _ _ text _ => ?_
  exact (h _ text).imp fun _ _ _ _ _ hsame => .of_errors hsame fun _ _ _ _ => False.elim

/-- The macros of files are steady, for any `depth` and `scope`. -/
theorem resolveMacro_steady (w : World) (depth : Nat) (scope : Scope) :
    Resolver.Steady w (resolveMacro depth scope) := by
  intro m argument
  induction depth generalizing scope m argument with
  | zero =>
    rw [resolveMacro_eq_via]
    exact includeVia_sameFaults fun path text => .fail rfl
  | succ depth ih =>
    rw [resolveMacro_eq_via]
    refine includeVia_sameFaults fun path text => loadWith_sameFaults (ih (.ofFile path)) ?_ text
    exact fun _ _ _ _ => resolveMacro_eq_ok

/-- **Loading fails exactly over the first faulty value in document order, with the error of its
fault.**  Loading `t` in `scope`, with macros replaced or not, fails with `e` if and only if `e` is
the `TagFault` of the first value in `t.nodes` that has one.  So it fails if and only if a faulty
value stands at some `place` of `t`.  And without macros it fails if and only if a value stands on a
payload that no tag of its spelling accepts. -/
theorem load_error_iff_first_fault (macros : Bool) (depth : Nat) (scope : Scope) (t : Tree)
    (w : World) (n : Nat) :
    (∀ e, (t.load (resolver? macros depth scope) w n).result = .error e ↔
      FirstOf (fun node e => Tree.TagFault w (resolver? macros depth scope) node.1 node.2 e)
        t.nodes e) ∧
    ((∃ e, (t.load (resolver? macros depth scope) w n).result = .error e) ↔
      ∃ place tag payload e, t.at? place = some (.tagged tag payload) ∧
        Tree.TagFault w (resolver? macros depth scope) tag payload e) ∧
    ((∃ e, (t.load none w n).result = .error e) ↔
      ∃ place tag payload, t.at? place = some (.tagged tag payload) ∧
        ∀ c : Tag, c.Spelled tag → c.kind.accepts payload.shape = false) := by
  have hsteady : ∀ r, resolver? macros depth scope = some r → r.Steady w := by
    intro r hr
    obtain ⟨-, rfl⟩ := Tree.resolver?_eq_some.mp hr
    exact resolveMacro_steady w depth scope
  refine ⟨fun e => Tree.load_eq_error_iff hsteady, Tree.exists_load_eq_error hsteady, ?_⟩
  rw [Tree.exists_load_eq_error fun _ hr => by cases hr]
  simp only [exists_and_left, Tree.exists_tagFault_none]

end NestedStacks
