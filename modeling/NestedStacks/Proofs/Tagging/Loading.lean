/-
Loading puts the tags of a document in order, and once is enough.

What loading leaves is in order (`load_taggedIn`), without macros when macros are replaced; and a
document in order is left as it is, without a single step (`Tree.TaggedIn.load_eq`).

* `loadText_yields`, `loadFile_yields` — loading is reading, parsing and checking;
* `Tree.Normal`, `loadText_normal`, `loadFile_normal` — the documents that loading leaves, with or
  without macros.
-/
import NestedStacks.Load.Loader
import NestedStacks.Proofs.Tagging.WellTagged

namespace NestedStacks

namespace Tree

variable {resolve : Option Resolver} {allowed : Tag → Prop}

/-! ### What loading does to each form -/

@[simp] theorem load_null : Tree.null.load resolve = pure .null := rfl

@[simp] theorem load_bool (b : Bool) : (Tree.bool b).load resolve = pure (.bool b) := rfl

@[simp] theorem load_num (x : Number) : (Tree.num x).load resolve = pure (.num x) := rfl

@[simp] theorem load_str (s : String) : (Tree.str s).load resolve = pure (.str s) := rfl

theorem loadItems_eq_mapM (items : List Tree) :
    loadItems resolve items = items.mapM (load resolve) := by
  induction items with
  | nil => rfl
  | cons t rest ih =>
    rw [List.mapM_cons, ← ih]
    rfl

theorem load_seq (items : List Tree) :
    (Tree.seq items).load resolve = do return .seq (← items.mapM (load resolve)) := by
  rw [← loadItems_eq_mapM]
  rfl

theorem loadEntries_eq_mapM (entries : Entries) :
    loadEntries resolve entries = entries.mapM fun e => do return (e.1, ← load resolve e.2) := by
  induction entries with
  | nil => rfl
  | cons e rest ih =>
    rw [List.mapM_cons, ← ih, bind_assoc]
    simp only [pure_bind]
    rfl

theorem load_map (entries : Entries) :
    (Tree.map entries).load resolve = do
      return .map (← entries.mapM fun e => do return (e.1, ← load resolve e.2)) := by
  rw [← loadEntries_eq_mapM]
  rfl

/-- A `tag` on the text `s` is loaded without a step, unless it is a macro that is to be
replaced. -/
theorem load_text {tag : String} {payload : Tree} {c : Tag} {s : String}
    (h : TaggedNode.ofTagged tag payload = .ok ⟨c, .scalar s⟩)
    (hc : resolve = none ∨ c.macroTag? = none) :
    (Tree.tagged tag payload).load resolve = pure (.tagged c.spelling (.str s)) := by
  rw [load, h]
  rcases hc with rfl | hc
  · cases c <;> rfl
  · cases c with
    | intrinsic i => rfl
    | macroTag m => cases hc

theorem load_list {tag : String} {items : List Tree} {c : Tag}
    (h : TaggedNode.ofTagged tag (.seq items) = .ok ⟨c, .sequence items⟩) :
    (Tree.tagged tag (.seq items)).load resolve =
      (Tree.seq items).load resolve >>= fun u => pure (.tagged c.spelling u) := by
  simp only [load, h]
  rfl

/-- A macro `m` is replaced by `r m argument`. -/
theorem load_replaced {tag : String} {payload : Tree} {m : MacroTag} {argument : String}
    (h : TaggedNode.ofTagged tag payload = .ok ⟨.macroTag m, .scalar argument⟩) (r : Resolver) :
    (Tree.tagged tag payload).load (some r) =
      Run.note .debug .loading ("Resolving " ++ (Tag.macroTag m).spelling ++ " " ++ argument) >>=
        fun _ => r m argument := by
  rw [load, h]
  rfl

/-- `TaggedLoad resolve tag payload x`: the work `x` is what loading does with
`.tagged tag payload`.  It finds fault with the tag or the payload, leaves a tag on a text, replaces
a macro by `resolve`, or goes on with the items of a function. -/
inductive TaggedLoad (resolve : Option Resolver) (tag : String) :
    Tree → Run DocumentError Tree → Prop
  | fault {payload : Tree} {e : DocumentError} (h : TaggedNode.ofTagged tag payload = .error e) :
      TaggedLoad resolve tag payload (Run.fail e)
  | text {payload : Tree} {c : Tag} {s : String}
      (h : TaggedNode.ofTagged tag payload = .ok ⟨c, .scalar s⟩)
      (hc : resolve = none ∨ c.macroTag? = none) :
      TaggedLoad resolve tag payload (pure (.tagged c.spelling (.str s)))
  | replaced {payload : Tree} {m : MacroTag} {r : Resolver} {s : String}
      (h : TaggedNode.ofTagged tag payload = .ok ⟨.macroTag m, .scalar s⟩) (hr : resolve = some r) :
      TaggedLoad resolve tag payload
        (Run.note .debug .loading ("Resolving " ++ (Tag.macroTag m).spelling ++ " " ++ s) >>=
          fun _ => r m s)
  | list {c : Tag} {items : List Tree}
      (h : TaggedNode.ofTagged tag (.seq items) = .ok ⟨c, .sequence items⟩) :
      TaggedLoad resolve tag (.seq items)
        ((Tree.seq items).load resolve >>= fun u => pure (.tagged c.spelling u))

theorem taggedLoad {tag : String} {payload : Tree} {run : Run DocumentError Tree}
    (h : (Tree.tagged tag payload).load resolve = run) : TaggedLoad resolve tag payload run := by
  subst h
  cases hnode : TaggedNode.ofTagged tag payload with
  | error e =>
    rw [load, hnode]
    exact .fault hnode
  | ok node =>
    obtain ⟨c, -, ⟨-, s, -, rfl⟩ | ⟨-, items, rfl, rfl⟩⟩ := TaggedNode.ofTagged_eq_ok.mp hnode
    · cases c with
      | intrinsic i =>
        rw [load_text hnode (.inr rfl)]
        exact .text hnode (.inr rfl)
      | macroTag m =>
        cases resolve with
        | none =>
          rw [load_text hnode (.inl rfl)]
          exact .text hnode (.inl rfl)
        | some r =>
          rw [load_replaced hnode]
          exact .replaced hnode rfl
    · rw [load_list hnode]
      exact .list hnode

/-! ### Loading puts tags in order -/

theorem load_seq_eq_ok {items : List Tree} {t : Tree} {w : World} {n : Nat}
    (h : ((Tree.seq items).load resolve w n).result = .ok t) :
    ∃ items', t = .seq items' ∧
      List.Forall₂ (fun u u' => ∃ k, (u.load resolve w k).result = .ok u') items items' := by
  rw [load_seq] at h
  obtain ⟨items', hitems, h⟩ := Run.bind_eq_ok.mp h
  exact ⟨items', by simpa [eq_comm] using h, Run.mapM_eq_ok hitems⟩

theorem load_map_eq_ok {entries : Entries} {t : Tree} {w : World} {n : Nat}
    (h : ((Tree.map entries).load resolve w n).result = .ok t) :
    ∃ entries', t = .map entries' ∧
      List.Forall₂ (fun e e' => e'.1 = e.1 ∧ ∃ k, (e.2.load resolve w k).result = .ok e'.2)
        entries entries' := by
  rw [load_map] at h
  obtain ⟨entries', hentries, h⟩ := Run.bind_eq_ok.mp h
  refine ⟨entries', by simpa [eq_comm] using h, (Run.mapM_eq_ok hentries).imp ?_⟩
  rintro e e' ⟨k, he⟩
  obtain ⟨v, hv, he⟩ := Run.bind_eq_ok.mp he
  obtain rfl : (e.1, v) = e' := by simpa using he
  exact ⟨rfl, k, hv⟩

/-- Loading leaves a document `t'` in order.  Macros may be left only if there is no resolver, and
what a resolver gives has to be in order itself. -/
theorem load_taggedIn (hleft : ∀ c : Tag, resolve = none ∨ c.macroTag? = none → allowed c)
    (hgiven : ∀ r, resolve = some r → ∀ m argument w n t, (r m argument w n).result = .ok t →
      t.TaggedIn allowed)
    {t t' : Tree} {w : World} {n : Nat} (h : (t.load resolve w n).result = .ok t') :
    t'.TaggedIn allowed := by
  induction t using Tree.induct generalizing t' n with
  | null =>
    obtain rfl : Tree.null = t' := by simpa using h
    exact .null
  | bool b =>
    obtain rfl : Tree.bool b = t' := by simpa using h
    exact .bool b
  | num x =>
    obtain rfl : Tree.num x = t' := by simpa using h
    exact .num x
  | str s =>
    obtain rfl : Tree.str s = t' := by simpa using h
    exact .str s
  | seq items ih =>
    obtain ⟨items', rfl, hitems⟩ := load_seq_eq_ok h
    refine .seq fun u' hu' => ?_
    obtain ⟨u, hu, k, hload⟩ := forall₂_exists_left hitems hu'
    exact ih u hu hload
  | map entries _ ih =>
    obtain ⟨entries', rfl, hentries⟩ := load_map_eq_ok h
    refine .map fun e' he' => ?_
    obtain ⟨e, he, -, k, hload⟩ := forall₂_exists_left hentries he'
    exact ih e he hload
  | tagged tag payload ih =>
    generalize hrun : (Tree.tagged tag payload).load resolve = run at h
    cases taggedLoad hrun with
    | fault => simp at h
    | text hnode hc =>
      obtain rfl := Except.ok.inj h
      exact .text (hleft _ hc) (TaggedNode.ofTagged_eq_scalar.mp hnode).2.1 _
    | replaced _ hr =>
      obtain ⟨_, -, h⟩ := Run.bind_eq_ok.mp h
      exact hgiven _ hr _ _ w _ t' h
    | list hnode =>
      obtain ⟨u, hu, h⟩ := Run.bind_eq_ok.mp h
      obtain ⟨items', rfl, -⟩ := load_seq_eq_ok hu
      obtain rfl := Except.ok.inj h
      have hk := (TaggedNode.ofTagged_eq_sequence.mp hnode).2.1
      obtain ⟨i, rfl⟩ := TaggedNode.exists_intrinsic hk
      exact .list (hleft _ (.inr rfl)) hk (ih hu).mem_items

/-! ### Loading leaves a document in order as it is -/

theorem load_seq_pure {items items' : List Tree}
    (h : items.mapM (load resolve) = pure items') :
    (Tree.seq items).load resolve = pure (.seq items') := by
  rw [load_seq, h, pure_bind]

theorem load_map_pure {entries entries' : Entries}
    (h : (entries.mapM fun e => do return (e.1, ← load resolve e.2)) = pure entries') :
    (Tree.map entries).load resolve = pure (.map entries') := by
  rw [load_map, h, pure_bind]

/-- A document `t` in order is loaded without a step, if no macro that is to be replaced is left in
it. -/
theorem TaggedIn.load_eq (hleft : ∀ c : Tag, allowed c → resolve = none ∨ c.macroTag? = none)
    {t : Tree} (ht : t.TaggedIn allowed) : t.load resolve = pure t := by
  induction ht with
  | null | bool | num | str => rfl
  | seq _ ih => exact load_seq_pure (mapM_eq_self ih)
  | map _ ih => exact load_map_pure (mapM_eq_self fun e he => by rw [ih e he]; simp)
  | text ha hk s => exact load_text (TaggedNode.ofTagged_text hk s) (hleft _ ha)
  | list _ hk _ ih =>
    rw [load_list (TaggedNode.ofTagged_list hk _), load_seq_pure (mapM_eq_self ih)]
    simp

/-- `t.Normal macros`: `t` may be left by loading.  Its tags are in order, and with `macros` there
are no macros among them. -/
def Normal (macros : Bool) (t : Tree) : Prop :=
  t.TaggedIn fun tag => macros = true → tag.macroTag? = none

theorem Normal.wellTagged {macros : Bool} {t : Tree} (h : t.Normal macros) : t.WellTagged :=
  TaggedIn.wellTagged h

theorem resolver?_left {macros : Bool} {depth : Nat} {scope : Scope} {c : Tag} :
    (macros = true → c.macroTag? = none) ↔
      resolver? macros depth scope = none ∨ c.macroTag? = none := by
  cases macros <;> simp [resolver?]

theorem resolver?_eq_some {macros : Bool} {depth : Nat} {scope : Scope} {r : Resolver} :
    resolver? macros depth scope = some r ↔ macros = true ∧ resolveMacro depth scope = r := by
  cases macros <;> simp [resolver?]

theorem Normal.load_eq {macros : Bool} {t : Tree} (ht : t.Normal macros) (depth : Nat)
    (scope : Scope) : t.load (resolver? macros depth scope) = pure t :=
  TaggedIn.load_eq (fun _ => resolver?_left.mp) ht

end Tree

/-! ### Texts and files -/

/-- A macro `m` stands for a text `s`. -/
theorem resolveMacro_eq_ok {depth : Nat} {scope : Scope} {m : MacroTag} {argument : String}
    {w : World} {n : Nat} {t : Tree}
    (h : (resolveMacro depth scope m argument w n).result = .ok t) : ∃ s, t = .str s := by
  cases m with
  | generateUuid =>
    have h : ((Run.draw >>= fun s => pure (.str s) : Run DocumentError Tree) w n).result =
        .ok t := by
      cases depth <;> exact h
    obtain ⟨s, -, h⟩ := Run.bind_eq_ok.mp h
    exact ⟨s, by simpa [eq_comm] using h⟩
  | includeString =>
    have h : ((includedFile .includeString scope argument >>= fun f =>
        pure (.str f.2)) w n).result = .ok t := by
      cases depth <;> exact h
    obtain ⟨f, -, h⟩ := Run.bind_eq_ok.mp h
    exact ⟨f.2, by simpa [eq_comm] using h⟩
  | includeJson =>
    cases depth with
    | zero =>
      have h : ((includedFile .includeJson scope argument >>= fun f =>
          (Run.fail (.endlessInclude f.1) : Run DocumentError Tree)) w n).result = .ok t := h
      obtain ⟨f, -, h⟩ := Run.bind_eq_ok.mp h
      simp at h
    | succ depth =>
      have h : ((includedFile .includeJson scope argument >>= fun f =>
          loadWith (some (resolveMacro depth (.ofFile f.1))) f.2 >>= fun document =>
            Run.ofExcept document.toData >>= fun data =>
              pure (.str data.compact)) w n).result = .ok t := h
      obtain ⟨f, -, h⟩ := Run.bind_eq_ok.mp h
      obtain ⟨document, -, h⟩ := Run.bind_eq_ok.mp h
      obtain ⟨data, -, h⟩ := Run.bind_eq_ok.mp h
      exact ⟨_, by simpa [eq_comm] using h⟩

/-- What the check of `raw` leaves is in order. -/
theorem Tree.normal_of_load {macros : Bool} {depth : Nat} {scope : Scope} {raw t : Tree} {w : World}
    {n : Nat} (h : (raw.load (resolver? macros depth scope) w n).result = .ok t) :
    t.Normal macros := by
  refine Tree.load_taggedIn (fun _ => Tree.resolver?_left.mpr) ?_ h
  intro r hr m argument w n t ht
  obtain ⟨-, rfl⟩ := Tree.resolver?_eq_some.mp hr
  obtain ⟨s, rfl⟩ := resolveMacro_eq_ok ht
  exact .str s

theorem loadText_run (macros : Bool) (scope : Scope) (text : String) (w : World) (n : Nat) :
    loadText macros scope text w n = loadWith (resolver? macros w.depth scope) text w n :=
  Run.depth_bind _ w n

/-- A `text` is loaded by parsing it and checking what was parsed, `raw`. -/
theorem loadText_yields {macros : Bool} {scope : Scope} {text : String} {w : World} {n n' : Nat}
    {t : Tree} :
    (loadText macros scope text).Yields w n t n' ↔
      ∃ raw, Markup.parse text = .ok raw ∧
        (raw.load (resolver? macros w.depth scope)).Yields w n t n' := by
  rw [Run.Yields, loadText_run]
  change (loadWith (resolver? macros w.depth scope) text).Yields w n t n' ↔ _
  simp only [loadWith, Run.yields_bind, Run.yields_ofExcept, Except.mapError_eq_ok]
  constructor
  · rintro ⟨raw, _, ⟨hparse, rfl⟩, hload⟩
    exact ⟨raw, hparse, hload⟩
  · rintro ⟨raw, hparse, hload⟩
    exact ⟨raw, n, ⟨hparse, rfl⟩, hload⟩

theorem loadText_normal {macros : Bool} {scope : Scope} {text : String} {w : World} {n : Nat}
    {t : Tree} (h : (loadText macros scope text w n).result = .ok t) : t.Normal macros := by
  obtain ⟨raw, -, hload⟩ := loadText_yields.mp (Run.yields_of_result h)
  exact Tree.normal_of_load hload.1

/-- The file at `path` is loaded by reading its `text`, parsing it and checking what was parsed,
`raw`. -/
theorem loadFile_yields {macros : Bool} {path : Path} {w : World} {n n' : Nat} {t : Tree} :
    (loadFile macros path).Yields w n t n' ↔
      ∃ text raw, w.read path = .ok text ∧ Markup.parse text = .ok raw ∧
        (raw.load (resolver? macros w.depth (.ofFile path))).Yields w n t n' := by
  simp only [loadFile, Run.yields_bind, Run.yields_note, Run.yields_mapError, Run.yields_read,
    Run.yields_pure, loadText_yields]
  constructor
  · rintro ⟨_, _, rfl, text, _, ⟨hread, rfl⟩, _, _, ⟨raw, hparse, hload⟩, _, _, rfl, rfl, rfl⟩
    exact ⟨text, raw, hread, hparse, hload⟩
  · rintro ⟨text, raw, hread, hparse, hload⟩
    exact ⟨(), _, rfl, text, _, ⟨hread, rfl⟩, t, n', ⟨raw, hparse, hload⟩, (), _, rfl, rfl, rfl⟩

theorem loadFile_normal {macros : Bool} {path : Path} {w : World} {n : Nat} {t : Tree}
    (h : (loadFile macros path w n).result = .ok t) : t.Normal macros := by
  obtain ⟨text, raw, -, -, hload⟩ := loadFile_yields.mp (Run.yields_of_result h)
  exact Tree.normal_of_load hload.1

end NestedStacks
