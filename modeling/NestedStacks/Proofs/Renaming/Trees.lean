/-
Renaming the references of a document, form by form.

The renaming of a sequence is its renaming item by item, apart from the first item of a function
that names something by it; `Tree.retargetList` says so in one definition.

* `Tree.retarget_seq`, `Tree.retarget_map`, `Tree.retarget_tagged_eq_ok` — what each form becomes;
* `Tree.RetargetsItems`, `Tree.retargetList_eq_ok` — what the items of a function become;
* `Tree.TaggedIn.retarget` — renaming never fails on a document in order, and keeps it in order;
* `Tree.KeepsTexts.retargetList` — the items of a function are renamed alike if each of them is;
* `Tree.TaggedIn.retarget_eq` — without a prefix, or without references, nothing changes.
-/
import NestedStacks.Template.Retarget
import NestedStacks.Proofs.Renaming.Names
import NestedStacks.Proofs.Tagging.WellTagged

namespace NestedStacks

/-- `tag.Refers`: what stands under `tag` refers to something: it is `Ref`, `GetAtt` or `Sub`. -/
def Tag.Refers (tag : Tag) : Prop :=
  tag = .intrinsic .ref ∨ tag = .intrinsic .getAtt ∨ tag = .intrinsic .sub

namespace Tree

variable {ctx : Context} {allowed : Tag → Prop}

theorem retargetItems_eq_mapM (items : List Tree) :
    retargetItems ctx items = items.mapM (retarget ctx) := by
  induction items with
  | nil => rfl
  | cons t rest ih =>
    show (t.retarget ctx >>= fun t => retargetItems ctx rest >>= fun ts => pure (t :: ts)) = _
    rw [ih, List.mapM_cons]

/-- The entry `e` with its value renamed under `ctx`. -/
def retargetEntry (ctx : Context) (e : Tree × Tree) : Except DocumentError (Tree × Tree) :=
  (e.2.retarget ctx).bind fun v => .ok (e.1, v)

theorem retargetEntry_eq_ok {e e' : Tree × Tree} :
    retargetEntry ctx e = .ok e' ↔ e'.1 = e.1 ∧ e.2.retarget ctx = .ok e'.2 := by
  obtain ⟨k', v'⟩ := e'
  unfold retargetEntry
  cases e.2.retarget ctx <;> simp [Except.bind, eq_comm]

theorem retargetEntries_eq_mapM (entries : Entries) :
    retargetEntries ctx entries = entries.mapM (retargetEntry ctx) := by
  induction entries with
  | nil => rfl
  | cons e rest ih =>
    show (e.2.retarget ctx >>= fun v =>
      retargetEntries ctx rest >>= fun es => pure ((e.1, v) :: es)) = _
    rw [ih, List.mapM_cons, retargetEntry]
    cases e.2.retarget ctx <;> rfl

/-- The text `s` under `tag` after renaming under `ctx`; macros keep theirs. -/
def retargetText (ctx : Context) (tag : Tag) (s : String) : String :=
  match tag with
  | .intrinsic i => retargetScalar ctx i s
  | .macroTag _ => s

/-- The `items` under `function` after renaming under `ctx`.  Behind the expression of a `Sub` and
in all other functions each item is renamed; the first one of a `GetAtt` may be a name. -/
def retargetList (ctx : Context) (function : Intrinsic) (items : List Tree) :
    Except DocumentError (List Tree) :=
  match function, items with
  | .sub, first :: rest => do
    return retargetSub ctx (subLocals (first :: rest)) first :: (← rest.mapM (retarget ctx))
  | .getAtt, items => do return retargetGetAtt ctx (← items.mapM (retarget ctx))
  | _, items => items.mapM (retarget ctx)

/-- The items of a `Sub`: an expression, and others that are renamed one by one. -/
theorem retargetList_sub_eq_ok {first : Tree} {rest items' : List Tree}
    (h : retargetList ctx .sub (first :: rest) = .ok items') :
    ∃ rest', items' = retargetSub ctx (subLocals (first :: rest)) first :: rest' ∧
      List.Forall₂ (fun u u' => u.retarget ctx = .ok u') rest rest' := by
  obtain ⟨rest', hrest, hitems⟩ := Except.bind_eq_ok.mp h
  obtain rfl := Except.pure_eq_ok.mp hitems
  exact ⟨rest', rfl, Except.mapM_eq_ok.mp hrest⟩

/-- The items of a `GetAtt` that names a resource: others are renamed one by one. -/
theorem retargetList_getAtt_eq_ok {name : String} {rest items' : List Tree}
    (h : retargetList ctx .getAtt (.str name :: rest) = .ok items') :
    ∃ rest', items' = .str (ctx.retarget name) :: rest' ∧
      List.Forall₂ (fun u u' => u.retarget ctx = .ok u') rest rest' := by
  obtain ⟨all, hall, hitems⟩ := Except.bind_eq_ok.mp h
  obtain rfl := Except.pure_eq_ok.mp hitems
  rcases Except.mapM_eq_ok.mp hall with _ | ⟨hfirst, hrest⟩
  obtain rfl : Tree.str name = _ := Except.ok.inj hfirst
  exact ⟨_, rfl, hrest⟩

theorem retargetPayload_seq (function : Intrinsic) (items : List Tree) :
    retargetPayload ctx function (.seq items) =
      (retargetList ctx function items).bind fun items => .ok (.seq items) := by
  cases items with
  | nil => cases function <;> rfl
  | cons first rest =>
    simp only [retargetPayload, retargetItems_eq_mapM]
    cases function <;> simp only [retargetList, List.mapM_cons] <;>
      cases first.retarget ctx <;> cases rest.mapM (retarget ctx) <;> rfl

/-! ### What each form becomes -/

theorem retarget_seq (items : List Tree) :
    (Tree.seq items).retarget ctx = (items.mapM (retarget ctx)).bind fun ts => .ok (.seq ts) := by
  rw [← retargetItems_eq_mapM]
  rfl

theorem retarget_map (entries : Entries) :
    (Tree.map entries).retarget ctx =
      (entries.mapM (retargetEntry ctx)).bind fun es => .ok (.map es) := by
  rw [← retargetEntries_eq_mapM]
  rfl

theorem retarget_tagged (tag : String) (payload : Tree) : (Tree.tagged tag payload).retarget ctx =
    TaggedNode.ofTagged tag payload >>= fun node =>
      match node.tag, node.payload with
      | .macroTag _, _ => pure node.toTree
      | .intrinsic i, .scalar s => pure (.tagged node.tag.spelling (.str (retargetScalar ctx i s)))
      | .intrinsic i, _ =>
        retargetPayload ctx i payload >>= fun t => pure (.tagged node.tag.spelling t) := rfl

theorem retarget_text {tag : String} {payload : Tree} {c : Tag} {s : String}
    (h : TaggedNode.ofTagged tag payload = .ok ⟨c, .scalar s⟩) :
    (Tree.tagged tag payload).retarget ctx =
      .ok (.tagged c.spelling (.str (retargetText ctx c s))) := by
  rw [retarget_tagged, h]
  cases c <;> rfl

theorem retarget_list {tag : String} {i : Intrinsic} {items : List Tree}
    (h : TaggedNode.ofTagged tag (.seq items) = .ok ⟨.intrinsic i, .sequence items⟩) :
    (Tree.tagged tag (.seq items)).retarget ctx =
      (retargetList ctx i items).bind fun ts =>
        .ok (.tagged (Tag.intrinsic i).spelling (.seq ts)) := by
  rw [retarget_tagged, h]
  show (retargetPayload ctx i (.seq items)).bind _ = _
  rw [retargetPayload_seq]
  cases retargetList ctx i items <;> rfl

/-- What a `tag` on a `payload` becomes: the standard spelling of the tag, on the renamed text or
the renamed items. -/
theorem retarget_tagged_eq_ok {tag : String} {payload t : Tree}
    (h : (Tree.tagged tag payload).retarget ctx = .ok t) :
    ∃ c, Tag.ofYaml? tag = some c ∧
      ((∃ s, TaggedNode.scalarText? payload = some s ∧
          t = .tagged c.spelling (.str (retargetText ctx c s))) ∨
        ∃ i items items', c = .intrinsic i ∧ payload = .seq items ∧
          retargetList ctx i items = .ok items' ∧ t = .tagged c.spelling (.seq items')) := by
  have hnode : ∃ node, TaggedNode.ofTagged tag payload = .ok node := by
    rw [retarget_tagged] at h
    obtain ⟨node, hnode, -⟩ := Except.bind_eq_ok.mp h
    exact ⟨node, hnode⟩
  obtain ⟨node, hnode⟩ := hnode
  obtain ⟨c, hc, ⟨hk, s, hs, rfl⟩ | ⟨hk, items, rfl, rfl⟩⟩ := TaggedNode.ofTagged_eq_ok.mp hnode
  · rw [retarget_text hnode] at h
    exact ⟨c, hc, .inl ⟨s, hs, by simpa [eq_comm] using h⟩⟩
  · obtain ⟨i, rfl⟩ := TaggedNode.exists_intrinsic hk
    rw [retarget_list hnode] at h
    obtain ⟨items', hitems, h⟩ := Except.bind_eq_ok.mp h
    exact ⟨_, hc, .inr ⟨i, items, items', rfl, rfl, hitems, by simpa [eq_comm] using h⟩⟩

/-- A `tag` on a scalar of the text `s` becomes the tag on the renamed text. -/
theorem eq_of_retarget_text {tag : String} {payload t : Tree} {c : Tag} {s : String}
    (htag : Tag.ofYaml? tag = some c) (hs : TaggedNode.scalarText? payload = some s)
    (h : (Tree.tagged tag payload).retarget ctx = .ok t) :
    t = .tagged c.spelling (.str (retargetText ctx c s)) := by
  obtain ⟨c', hc, ⟨s', hs', rfl⟩ | ⟨_, _, _, -, rfl, -⟩⟩ := retarget_tagged_eq_ok h
  · obtain rfl := Option.some.inj (htag.symm.trans hc)
    obtain rfl := Option.some.inj (hs.symm.trans hs')
    rfl
  · cases hs

/-- A function `i` on `items` becomes the function on the renamed items. -/
theorem eq_of_retarget_list {tag : String} {items : List Tree} {t : Tree} {i : Intrinsic}
    (htag : Tag.ofYaml? tag = some (.intrinsic i))
    (h : (Tree.tagged tag (.seq items)).retarget ctx = .ok t) :
    ∃ items', retargetList ctx i items = .ok items' ∧
      t = .tagged (Tag.intrinsic i).spelling (.seq items') := by
  obtain ⟨c, hc, ⟨s, hs, -⟩ | ⟨i', items₀, items', rfl, hitems, hlist, rfl⟩⟩ :=
    retarget_tagged_eq_ok h
  · cases hs
  · obtain rfl := Tag.intrinsic.inj (Option.some.inj (htag.symm.trans hc))
    obtain rfl := Tree.seq.inj hitems
    exact ⟨items', hlist, rfl⟩

theorem retarget_seq_of_mapM {items items' : List Tree}
    (h : items.mapM (retarget ctx) = .ok items') :
    (Tree.seq items).retarget ctx = .ok (.seq items') := by
  rw [retarget_seq, h]
  rfl

theorem retarget_map_of_mapM {entries entries' : Entries}
    (h : entries.mapM (retargetEntry ctx) = .ok entries') :
    (Tree.map entries).retarget ctx = .ok (.map entries') := by
  rw [retarget_map, h]
  rfl

theorem retarget_list_of_items {function : Intrinsic} {items items' : List Tree}
    (hk : (Tag.intrinsic function).kind ≠ .scalar)
    (h : retargetList ctx function items = .ok items') :
    (Tree.tagged (Tag.intrinsic function).spelling (.seq items)).retarget ctx =
      .ok (.tagged (Tag.intrinsic function).spelling (.seq items')) := by
  rw [retarget_list (TaggedNode.ofTagged_list hk items), h]
  rfl

theorem retarget_seq_eq_ok {items : List Tree} {t : Tree}
    (h : (Tree.seq items).retarget ctx = .ok t) :
    ∃ items', t = .seq items' ∧
      List.Forall₂ (fun u u' => u.retarget ctx = .ok u') items items' := by
  rw [retarget_seq] at h
  obtain ⟨items', hitems, h⟩ := Except.bind_eq_ok.mp h
  exact ⟨items', by simpa [eq_comm] using h, Except.mapM_eq_ok.mp hitems⟩

theorem retarget_map_eq_ok {entries : Entries} {t : Tree}
    (h : (Tree.map entries).retarget ctx = .ok t) :
    ∃ entries', t = .map entries' ∧
      List.Forall₂ (fun e e' => e'.1 = e.1 ∧ e.2.retarget ctx = .ok e'.2) entries entries' := by
  rw [retarget_map] at h
  obtain ⟨entries', hentries, h⟩ := Except.bind_eq_ok.mp h
  exact ⟨entries', by simpa [eq_comm] using h,
    (Except.mapM_eq_ok.mp hentries).imp fun _ _ => retargetEntry_eq_ok.mp⟩

/-- Only the text `s` itself is renamed to a text `s` without a tag. -/
theorem eq_str_of_retarget {u : Tree} {s : String} (h : u.retarget ctx = .ok (.str s)) :
    u = .str s := by
  cases u with
  | str s' => exact Except.ok.inj h
  | seq items =>
    obtain ⟨_, h, -⟩ := retarget_seq_eq_ok h
    cases h
  | map entries =>
    obtain ⟨_, h, -⟩ := retarget_map_eq_ok h
    cases h
  | tagged tag payload =>
    obtain ⟨_, -, ⟨_, -, h⟩ | ⟨_, _, _, -, -, -, h⟩⟩ := retarget_tagged_eq_ok h <;> cases h
  | _ => cases h

/-! ### What the items of a function become -/

/-- `RetargetsItems ctx function items items'`: renaming under `ctx` makes `items'` of the `items`
under `function`. -/
inductive RetargetsItems (ctx : Context) : Intrinsic → List Tree → List Tree → Prop
  /-- The first item of a `GetAtt` is a name if it is a text. -/
  | name {s : String} {rest rest' : List Tree}
      (hrest : List.Forall₂ (fun u u' => u.retarget ctx = .ok u') rest rest') :
      RetargetsItems ctx .getAtt (.str s :: rest) (.str (ctx.retarget s) :: rest')
  /-- The first item of a `Sub` is renamed as an expression, with the names that the second one
  defines. -/
  | expression {first : Tree} {rest rest' : List Tree}
      (hrest : List.Forall₂ (fun u u' => u.retarget ctx = .ok u') rest rest') :
      RetargetsItems ctx .sub (first :: rest)
        (retargetSub ctx (subLocals (first :: rest)) first :: rest')
  /-- Other items are renamed one by one. -/
  | items {function : Intrinsic} {items items' : List Tree}
      (hname : function = .getAtt → ∀ s rest, items ≠ .str s :: rest)
      (hexpression : function = .sub → items = [])
      (h : List.Forall₂ (fun u u' => u.retarget ctx = .ok u') items items') :
      RetargetsItems ctx function items items'

theorem retargetGetAtt_of_ne {items : List Tree} (h : ∀ s rest, items ≠ .str s :: rest) :
    retargetGetAtt ctx items = items := by
  unfold retargetGetAtt
  split
  · exact absurd rfl (h _ _)
  · rfl

/-- If `items` do not start with a text, the first one of the renamed `items'` is no name to
rename. -/
theorem retargetGetAtt_of_forall₂ {items items' : List Tree}
    (hname : ∀ s rest, items ≠ .str s :: rest)
    (h : List.Forall₂ (fun u u' => u.retarget ctx = .ok u') items items') :
    retargetGetAtt ctx items' = items' := by
  refine retargetGetAtt_of_ne ?_
  rintro s rest rfl
  cases h with
  | cons hfirst => exact hname s _ (by rw [eq_str_of_retarget hfirst])

theorem retargetList_eq_ok {function : Intrinsic} {items items' : List Tree} :
    retargetList ctx function items = .ok items' ↔ RetargetsItems ctx function items items' := by
  constructor
  · intro h
    cases function with
    | getAtt =>
      by_cases hname : ∃ s rest, items = .str s :: rest
      · obtain ⟨s, rest, rfl⟩ := hname
        obtain ⟨rest', rfl, hrest⟩ := retargetList_getAtt_eq_ok h
        exact .name hrest
      · have hname : ∀ s rest, items ≠ .str s :: rest := fun s rest hs => hname ⟨s, rest, hs⟩
        obtain ⟨all, hall, h⟩ := Except.bind_eq_ok.mp h
        have hall := Except.mapM_eq_ok.mp hall
        obtain rfl := Except.pure_eq_ok.mp h
        rw [retargetGetAtt_of_forall₂ hname hall]
        exact .items (fun _ => hname) nofun hall
    | sub =>
      cases items with
      | nil => exact .items nofun (fun _ => rfl) (Except.mapM_eq_ok.mp h)
      | cons first rest =>
        obtain ⟨rest', rfl, hrest⟩ := retargetList_sub_eq_ok h
        exact .expression hrest
    | _ => exact .items nofun nofun (Except.mapM_eq_ok.mp h)
  · intro h
    cases h with
    | @name s _ rest' hrest =>
      have hs : (Tree.str s).retarget ctx = .ok (.str s) := rfl
      exact Except.bind_eq_ok.mpr ⟨_, Except.mapM_eq_ok.mpr (.cons hs hrest), rfl⟩
    | expression hrest => exact Except.bind_eq_ok.mpr ⟨_, Except.mapM_eq_ok.mpr hrest, rfl⟩
    | items hname hexpression h =>
      cases function with
      | getAtt =>
        refine Except.bind_eq_ok.mpr ⟨_, Except.mapM_eq_ok.mpr h, ?_⟩
        rw [retargetGetAtt_of_forall₂ (hname rfl) h]
        rfl
      | sub =>
        obtain rfl := hexpression rfl
        exact Except.mapM_eq_ok.mpr h
      | _ => exact Except.mapM_eq_ok.mpr h

/-! ### Documents in order -/

theorem TaggedIn.retargetSub {t : Tree} (h : t.TaggedIn allowed) (locals : Entries) :
    (retargetSub ctx locals t).TaggedIn allowed := by
  cases t with
  | str s => exact .str _
  | _ => exact h

theorem taggedIn_retargetGetAtt {items : List Tree} (h : ∀ t ∈ items, t.TaggedIn allowed) :
    ∀ t ∈ retargetGetAtt ctx items, t.TaggedIn allowed := by
  unfold retargetGetAtt
  split
  · intro t ht
    rcases List.mem_cons.mp ht with rfl | ht
    · exact .str _
    · exact h t (by simp [ht])
  · exact h

/-- The `items` of a function are renamed without a failure if each of them is. -/
theorem exists_retargetList (function : Intrinsic) {items : List Tree}
    (h : ∀ t ∈ items, t.TaggedIn allowed)
    (hitems : ∀ t ∈ items, ∃ t', t.retarget ctx = .ok t' ∧ t'.TaggedIn allowed) :
    ∃ items', retargetList ctx function items = .ok items' ∧ ∀ t ∈ items', t.TaggedIn allowed := by
  obtain ⟨all, hall, hin⟩ := Except.exists_mapM hitems
  unfold retargetList
  split
  · rename_i first rest
    obtain ⟨rest', hrest, hin'⟩ :=
      Except.exists_mapM fun t (ht : t ∈ rest) => hitems t (List.mem_cons_of_mem _ ht)
    refine ⟨_, Except.bind_eq_ok.mpr ⟨rest', hrest, rfl⟩, ?_⟩
    intro t ht
    rcases List.mem_cons.mp ht with rfl | ht
    · exact (h first (by simp)).retargetSub _
    · exact hin' t ht
  · exact ⟨_, Except.bind_eq_ok.mpr ⟨all, hall, rfl⟩, taggedIn_retargetGetAtt hin⟩
  · exact ⟨all, hall, hin⟩

/-- Renaming never fails on a document `t` in order, and keeps it in order with the same tags. -/
theorem TaggedIn.retarget {t : Tree} (ht : t.TaggedIn allowed) (ctx : Context) :
    ∃ t', t.retarget ctx = .ok t' ∧ t'.TaggedIn allowed := by
  induction ht with
  | null => exact ⟨_, rfl, .null⟩
  | bool b => exact ⟨_, rfl, .bool b⟩
  | num n => exact ⟨_, rfl, .num n⟩
  | str s => exact ⟨_, rfl, .str s⟩
  | seq _ ih =>
    obtain ⟨items, hitems, hin⟩ := Except.exists_mapM ih
    exact ⟨_, retarget_seq_of_mapM hitems, .seq hin⟩
  | @map entries _ ih =>
    have hentry : ∀ e ∈ entries, ∃ e',
        retargetEntry ctx e = .ok e' ∧ e'.2.TaggedIn allowed := by
      intro e he
      obtain ⟨v, hv, hin⟩ := ih e he
      exact ⟨(e.1, v), retargetEntry_eq_ok.mpr ⟨rfl, hv⟩, hin⟩
    obtain ⟨entries', hentries, hin⟩ := Except.exists_mapM hentry
    exact ⟨_, retarget_map_of_mapM hentries, .map hin⟩
  | text ha hk s => exact ⟨_, retarget_text (TaggedNode.ofTagged_text hk s), .text ha hk _⟩
  | list ha hk h ih =>
    obtain ⟨i, rfl⟩ := TaggedNode.exists_intrinsic hk
    obtain ⟨items, hitems, hin⟩ := exists_retargetList i h ih
    exact ⟨_, retarget_list_of_items hk hitems, .list ha hk hin⟩

/-! ### Documents that are renamed alike -/

/-- `KeepsTexts R`: renaming cannot tell documents in the relation `R` apart on its own.  Texts go
with themselves only, and documents that go together define the same names for a `Sub`. -/
structure KeepsTexts (R : Tree → Tree → Prop) : Prop where
  /-- A text goes with itself. -/
  str (s : String) : R (.str s) (.str s)
  /-- Nothing else goes with a text. -/
  eq_str {s : String} {t t' : Tree} (h : R t t') : t = .str s ↔ t' = .str s
  /-- The same keys are there. -/
  hasKey_eq {t t' : Tree} (h : R t t') (key : String) :
    (t.asEntries?.getD []).hasKey key = (t'.asEntries?.getD []).hasKey key

theorem retargetSub_congr {locals locals' : Entries}
    (h : ∀ key, locals.hasKey key = locals'.hasKey key) (t : Tree) :
    retargetSub ctx locals t = retargetSub ctx locals' t := by
  have hplaceholder : retargetPlaceholder locals ctx = retargetPlaceholder locals' ctx := by
    funext name
    simp only [retargetPlaceholder, h]
  have hpiece : retargetPiece locals ctx = retargetPiece locals' ctx := by
    funext p
    cases p with
    | literal c => rfl
    | placeholder name => exact congrFun hplaceholder name
  cases t with
  | str s => rw [retargetSub, retargetSub, retargetExpression, retargetExpression, hpiece]
  | _ => rfl

theorem retargetSub_of_ne {t : Tree} (h : ∀ s, t ≠ .str s) (locals : Entries) :
    retargetSub ctx locals t = t := by
  cases t with
  | str s => exact absurd rfl (h s)
  | _ => rfl

namespace KeepsTexts

variable {R : Tree → Tree → Prop} {items items' : List Tree}

theorem retargetSub (hR : KeepsTexts R) {locals locals' : Entries}
    (hkeys : ∀ key, locals.hasKey key = locals'.hasKey key) {t t' : Tree} (h : R t t') :
    R (retargetSub ctx locals t) (retargetSub ctx locals' t') := by
  rw [retargetSub_congr hkeys]
  by_cases ht : ∃ s, t = .str s
  · obtain ⟨s, rfl⟩ := ht
    obtain rfl := (hR.eq_str h).mp rfl
    exact hR.str _
  · have ht' : ∀ s, t' ≠ .str s := fun s hs => ht ⟨s, (hR.eq_str h).mpr hs⟩
    rw [retargetSub_of_ne (fun s hs => ht ⟨s, hs⟩), retargetSub_of_ne ht']
    exact h

theorem retargetGetAtt (hR : KeepsTexts R) (h : List.Forall₂ R items items') :
    List.Forall₂ R (retargetGetAtt ctx items) (retargetGetAtt ctx items') := by
  rcases h with _ | @⟨t, t', rest, rest', hfirst, hrest⟩
  · exact .nil
  by_cases ht : ∃ s, t = .str s
  · obtain ⟨s, rfl⟩ := ht
    obtain rfl := (hR.eq_str hfirst).mp rfl
    exact .cons (hR.str _) hrest
  · rw [retargetGetAtt_of_ne, retargetGetAtt_of_ne]
    · exact .cons hfirst hrest
    · rintro s _ ⟨⟩
      exact ht ⟨s, (hR.eq_str hfirst).mpr rfl⟩
    · rintro s _ ⟨⟩
      exact ht ⟨s, rfl⟩

theorem hasKey_subLocals (hR : KeepsTexts R) (h : List.Forall₂ R items items') (key : String) :
    (subLocals items).hasKey key = (subLocals items').hasKey key := by
  rcases h with _ | ⟨-, _ | ⟨hsecond, -⟩⟩
  · rfl
  · rfl
  · exact hR.hasKey_eq hsecond key

/-- The `items` and `items'` of a function are renamed alike if each pair of them is. -/
theorem retargetList (hR : KeepsTexts R) (function : Intrinsic)
    (hsame : List.Forall₂ R items items')
    (h : List.Forall₂ (fun t t' => ∃ u u', t.retarget ctx = .ok u ∧ t'.retarget ctx = .ok u' ∧
      R u u') items items') :
    ∃ us us', retargetList ctx function items = .ok us ∧
      retargetList ctx function items' = .ok us' ∧ List.Forall₂ R us us' := by
  obtain ⟨us, us', hus, hus', hall⟩ := Except.exists_mapM_forall₂ h
  cases function with
  | getAtt =>
    exact ⟨_, _, Except.bind_eq_ok.mpr ⟨us, hus, rfl⟩, Except.bind_eq_ok.mpr ⟨us', hus', rfl⟩,
      hR.retargetGetAtt hall⟩
  | sub =>
    have hkeys := hR.hasKey_subLocals hsame
    rcases hsame with _ | ⟨hfirst, hrest⟩
    · exact ⟨_, _, rfl, rfl, .nil⟩
    · cases h with
      | cons _ h =>
        obtain ⟨rs, rs', hrs, hrs', hrest⟩ := Except.exists_mapM_forall₂ h
        exact ⟨_, _, Except.bind_eq_ok.mpr ⟨rs, hrs, rfl⟩, Except.bind_eq_ok.mpr ⟨rs', hrs', rfl⟩,
          .cons (hR.retargetSub hkeys hfirst) hrest⟩
  | _ => exact ⟨us, us', hus, hus', hall⟩

end KeepsTexts

/-! ### Without a prefix or without references -/

theorem retargetSub_eq (h : ctx.namePrefix = "") (locals : Entries) (t : Tree) :
    retargetSub ctx locals t = t := by
  cases t <;> simp [retargetSub, retargetExpression_eq h]

theorem retargetGetAtt_eq (h : ctx.namePrefix = "") (items : List Tree) :
    retargetGetAtt ctx items = items := by
  unfold retargetGetAtt
  split <;> simp [Context.retarget_eq h]

theorem retargetText_eq {tag : Tag} (h : ctx.namePrefix = "" ∨ ¬tag.Refers) (s : String) :
    retargetText ctx tag s = s := by
  cases tag with
  | macroTag m => rfl
  | intrinsic i =>
    rcases h with h | h
    · unfold retargetText retargetScalar
      cases i <;> simp [Context.retargetPath_eq h, retargetExpression_eq h]
    · cases i <;> first | rfl | exact absurd (by simp [Tag.Refers]) h

theorem retargetList_eq {function : Intrinsic}
    (h : ctx.namePrefix = "" ∨ ¬(Tag.intrinsic function).Refers) {items : List Tree}
    (hitems : ∀ t ∈ items, t.retarget ctx = .ok t) :
    retargetList ctx function items = .ok items := by
  unfold retargetList
  split
  · rename_i first rest
    replace h := h.resolve_right fun h => h (.inr (.inr rfl))
    rw [mapM_eq_self fun t (ht : t ∈ rest) => hitems t (List.mem_cons_of_mem _ ht),
      retargetSub_eq h]
    rfl
  · replace h := h.resolve_right fun h => h (.inr (.inl rfl))
    rw [mapM_eq_self hitems, pure_bind, retargetGetAtt_eq h]
    rfl
  · rw [mapM_eq_self hitems]
    rfl

/-- A document `t` in order stays as it is when `ctx.namePrefix` is empty, and also when no tag in
it stands on references. -/
theorem TaggedIn.retarget_eq {t : Tree} (ht : t.TaggedIn allowed)
    (h : ∀ tag, allowed tag → ctx.namePrefix = "" ∨ ¬tag.Refers) : t.retarget ctx = .ok t := by
  induction ht with
  | null | bool | num | str => rfl
  | seq _ ih => exact retarget_seq_of_mapM (mapM_eq_self ih)
  | map _ ih =>
    exact retarget_map_of_mapM (mapM_eq_self fun e he => retargetEntry_eq_ok.mpr ⟨rfl, ih e he⟩)
  | text ha hk s => rw [retarget_text (TaggedNode.ofTagged_text hk s), retargetText_eq (h _ ha)]
  | list ha hk _ ih =>
    obtain ⟨i, rfl⟩ := TaggedNode.exists_intrinsic hk
    exact retarget_list_of_items hk (retargetList_eq (h _ ha) ih)

end Tree

end NestedStacks
