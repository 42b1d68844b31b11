/-
References follow the resources that they name.

Names are changed in one place and references in four: references by `Ref`, by `GetAtt` with a
path or with a list, and placeholders of `Sub`.  Processing a template keeps them together:
`references_follow_names` says that every reference to a resource that stays comes out as a
reference to the name under which the resource stands in the result.

* `FollowsName` — one tagged value refers to the new name wherever another one refers to the old;
* `followsName_of_retarget` — a renamed tagged value does.
-/
import NestedStacks.Proofs.Nesting.Unfolding
import NestedStacks.Proofs.Renaming.Expressions
import NestedStacks.Proofs.Renaming.Places
import NestedStacks.Proofs.Renaming.Resources

namespace NestedStacks

/-- `IsAttribute behind`: what may stand behind the name of a resource in a reference, which is
nothing, or a point and whatever attribute. -/
def IsAttribute (behind : String) : Prop := behind = "" ∨ ∃ a, behind = "." ++ a

/-- `PlaceholdersFollow ctx locals name final expression renamed`: each unescaped placeholder of
`name` in `expression` is one of `final` in `renamed`, with the same attribute, between what its
surroundings are renamed to with `locals` and `ctx`. -/
def PlaceholdersFollow (ctx : Context) (locals : Entries) (name final expression renamed : String) :
    Prop :=
  ∀ before behind after, IsAttribute behind → Piece.IsName (name ++ behind).toList →
    expression.toList = before ++ Piece.text (.placeholder (name ++ behind).toList) ++ after →
    Piece.endsEscaped before = false →
    renamed = retargetExpression locals ctx (String.ofList before) ++
      ("$\x7b" ++ final ++ behind ++ "\x7d") ++ retargetExpression locals ctx (String.ofList after)

/-- `FollowsName ctx name final u u'`: wherever the tagged value `u` refers to `name`, `u'` refers
to `final` with the same attribute. -/
structure FollowsName (ctx : Context) (name final : String) (u u' : Tree) : Prop where
  /-- The payload of `Ref` or `GetAtt` is a path. -/
  path : ∀ i tag behind, i = .ref ∨ i = .getAtt → Tag.ofYaml? tag = some (.intrinsic i) →
    IsAttribute behind → u = .tagged tag (.str (name ++ behind)) →
    u' = .tagged (Tag.intrinsic i).spelling (.str (final ++ behind))
  /-- The first item of `GetAtt` is a name.  Of the others only those change that hold references
  of their own. -/
  items : ∀ tag rest, Tag.ofYaml? tag = some (.intrinsic .getAtt) →
    u = .tagged tag (.seq (.str name :: rest)) →
    ∃ rest', u' = .tagged (Tag.intrinsic .getAtt).spelling (.seq (.str final :: rest')) ∧
      List.Forall₂ (fun v v' => v.TaggedIn (fun tag => ¬tag.Refers) → v' = v) rest rest'
  /-- The payload of `Sub` is an expression. -/
  expression : ∀ tag s, Tag.ofYaml? tag = some (.intrinsic .sub) → u = .tagged tag (.str s) →
    ∃ s', u' = .tagged (Tag.intrinsic .sub).spelling (.str s') ∧
      PlaceholdersFollow ctx [] name final s s'
  /-- The first item of `Sub` is an expression, for which the name is not defined anew. -/
  expressionItem : ∀ tag s rest, Tag.ofYaml? tag = some (.intrinsic .sub) →
    u = .tagged tag (.seq (.str s :: rest)) → (subLocals (.str s :: rest)).hasKey name = false →
    ∃ s' rest', u' = .tagged (Tag.intrinsic .sub).spelling (.seq (.str s' :: rest')) ∧
      PlaceholdersFollow ctx (subLocals (.str s :: rest)) name final s s'

variable {ctx : Context} {name : String}

/-! ### One reference -/

theorem retargetPath_append (hdot : '.' ∉ name.toList) {behind : String}
    (ha : IsAttribute behind) :
    ctx.retargetPath (name ++ behind) = ctx.retarget name ++ behind := by
  rcases ha with rfl | ⟨a, rfl⟩
  · simp [Context.retargetPath_of_not_mem hdot]
  · simpa [String.append_assoc] using Context.retargetPath_attribute hdot a

theorem placeholdersFollow_retarget (hdot : '.' ∉ name.toList) {locals : Entries}
    (hlocal : locals.hasKey name = false) (expression : String) :
    PlaceholdersFollow ctx locals name (ctx.retarget name) expression
      (retargetExpression locals ctx expression) := by
  intro before behind after ha hname hexpr hbefore
  obtain rfl : expression = String.ofList
      (before ++ Piece.text (.placeholder (name ++ behind).toList) ++ after) := by
    rw [← hexpr, String.ofList_toList]
  rw [retargetExpression_append_placeholder locals ctx hbefore hname, String.toList_append,
    retargetPlaceholder_of_cut hdot]
  · simp [hlocal]
  · rcases ha with rfl | ⟨a, rfl⟩
    · exact .inl (by simp)
    · exact .inr ⟨a.toList, by simp⟩

/-- The renamed `u'` refers to `ctx.retarget name` wherever `u` refers to `name`. -/
theorem followsName_of_retarget (hdot : '.' ∉ name.toList) {u u' : Tree}
    (h : u.retarget ctx = .ok u') : FollowsName ctx name (ctx.retarget name) u u' where
  path := by
    rintro i tag behind hi htag ha rfl
    rw [Tree.eq_of_retarget_text htag rfl h, ← retargetPath_append hdot ha]
    rcases hi with rfl | rfl <;> rfl
  items := by
    rintro tag rest htag rfl
    obtain ⟨items', hlist, rfl⟩ := Tree.eq_of_retarget_list htag h
    obtain ⟨rest', rfl, hrest⟩ := Tree.retargetList_getAtt_eq_ok hlist
    refine ⟨rest', rfl, hrest.imp fun v v' hr hplain => ?_⟩
    have hself : v.retarget ctx = .ok v := hplain.retarget_eq fun _ => .inr
    exact Except.ok.inj (hr.symm.trans hself)
  expression := by
    rintro tag s htag rfl
    exact ⟨_, Tree.eq_of_retarget_text htag rfl h, placeholdersFollow_retarget hdot rfl s⟩
  expressionItem := by
    rintro tag s rest htag rfl hlocal
    obtain ⟨items', hlist, rfl⟩ := Tree.eq_of_retarget_list htag h
    obtain ⟨rest', rfl, -⟩ := Tree.retargetList_sub_eq_ok hlist
    exact ⟨_, rest', rfl, placeholdersFollow_retarget hdot hlocal s⟩

/-! ### All references of a template -/

/-- **References follow the resources that they name.**  Let `t` be any template, loaded or not, and
let processing its resources `rs` under `ctx` give `out`.  Then `out` is made of parts, one for each
of `rs`.  Let the resources `name` and `owner` stay, where `name` has no point and is neither bound
by `ctx` nor one of a pseudo parameter.  The part of `name` is that resource under some name
`final`, and the part of `owner` is a resource `r'`; and at each `place` of the properties of
`owner` that renaming reaches, the references to `name` are references to `final` in `r'`, in all
their styles. -/
theorem references_follow_names {w : World} {macros : Bool} {n : Nat} {t : Template}
    {rs out : Resources} (hrs : t.resources = .ok rs)
    (hrun : (t.process macros ctx w n).result = .ok out)
    {i j : Nat} {s r : Resource} {owner : String} (hi : rs[i]? = some (name, s))
    (hj : rs[j]? = some (owner, r)) (hs : s.needsFlattening = false)
    (hr : r.needsFlattening = false) (hdot : '.' ∉ name.toList) (hfree : ctx.isBound name = false)
    (hpseudo : Context.isPseudo name = false) {p : Tree} (hp : r.properties? = some p)
    {place : List Nat} {tag : String} {payload : Tree}
    (hat : p.at? place = some (.tagged tag payload)) (hreached : ¬p.EntersExpression place) :
    ∃ parts final s' owner' r' p' u', out = parts.flatten ∧
      List.Forall₂ (fun entry part =>
        ∃ k, (contribution macros w.depth ctx entry w k).result = .ok part) rs parts ∧
      parts[i]? = some [(final, s')] ∧ parts[j]? = some [(owner', r')] ∧
      r'.properties? = some p' ∧ p'.at? place = some u' ∧
      FollowsName ctx name final (.tagged tag payload) u' := by
  rw [Template.process_run, processResources_eq] at hrun
  obtain ⟨rs', hrs', hrun⟩ := Run.bind_eq_ok.mp hrun
  obtain rfl : rs = rs' := by simpa [hrs] using hrs'
  obtain ⟨parts, hparts, hrun⟩ := Run.bind_eq_ok.mp hrun
  obtain rfl : parts.flatten = out := by simpa using hrun
  have hparts := Run.mapM_eq_ok hparts
  obtain ⟨part, hpart, k, hk⟩ := forall₂_getElem? hparts hi
  obtain ⟨s', -, rfl, -⟩ := (contribution_kept hs).mp (Run.yields_of_result hk)
  obtain ⟨part', hpart', k', hk'⟩ := forall₂_getElem? hparts hj
  obtain ⟨r', hr', rfl, -⟩ := (contribution_kept hr).mp (Run.yields_of_result hk')
  obtain ⟨h, -⟩ | ⟨p₀, p', hp₀, hp', hprops⟩ := Resource.properties?_retarget hr'
  · simp [h] at hp
  obtain rfl : p = p₀ := by simpa [hp] using hp₀
  obtain ⟨u', hu', hrename⟩ := Tree.at?_retarget hp' hat hreached
  refine ⟨parts, _, s', _, r', p', u', rfl, hparts, hpart, hpart', hprops, hu', ?_⟩
  rw [← Context.retarget_of_free hfree hpseudo]
  exact followsName_of_retarget hdot hrename

/-- A bucket. -/
def sampleBucket : Resource := .ofType "AWS::S3::Bucket"

/-- The properties of a role whose policy speaks of the objects in the bucket. -/
def sampleProperties : Tree :=
  .map [(.str "Policy", .tagged "!Join" (.seq [.str ",",
    .seq [.str "a", .tagged "!Sub" (.str "${Bucket.Arn}/*")]]))]

/-- The role. -/
def sampleRole : Resource :=
  ⟨[(.str "Type", .str "AWS::IAM::Role"), (.str "Properties", sampleProperties)]⟩

/-- A template with the bucket and the role. -/
def sampleTemplate : Template := ⟨[(.str "Resources",
  .map [(.str "Bucket", sampleBucket.toTree), (.str "Role", sampleRole.toTree)])]⟩

/-- The naming of the template when a stack stands for it. -/
def sampleNaming : Context := .nested ⟨"/c.yaml"⟩ [(.str "Env", .null)] "Child"

/-- A placeholder inside a list inside another function follows its bucket. -/
theorem references_follow_bucket :
    ∃ parts final s' owner' r' p' u',
      (sampleTemplate.process false sampleNaming World.empty 0).result = .ok (List.flatten parts) ∧
      parts[0]? = some [(final, s')] ∧ parts[1]? = some [(owner', r')] ∧
      Resource.properties? r' = some p' ∧ p'.at? [0, 0, 1, 1] = some u' ∧
      FollowsName sampleNaming "Bucket" final (.tagged "!Sub" (.str "${Bucket.Arn}/*")) u' := by
  have hrs : sampleTemplate.resources = .ok [("Bucket", sampleBucket), ("Role", sampleRole)] := rfl
  obtain ⟨out, hrun⟩ :
      ∃ out, (sampleTemplate.process false sampleNaming World.empty 0).result = .ok out := ⟨_, rfl⟩
  have hat : sampleProperties.at? [0, 0, 1, 1] =
      some (.tagged "!Sub" (.str "${Bucket.Arn}/*")) := rfl
  have hreached : ¬sampleProperties.EntersExpression [0, 0, 1, 1] := by
    rintro ⟨front, tag, first, rest, hat, -, -, hpre⟩
    -- two zeros end the front, and the place has none after its second step
    rcases front with _ | ⟨a, _ | ⟨b, _ | ⟨c, front⟩⟩⟩
    · cases hat
    · simp [List.cons_prefix_cons] at hpre
    · simp [List.cons_prefix_cons] at hpre
    · have hlen := hpre.length_le
      simp only [List.length_append, List.length_cons, List.length_nil] at hlen
      omega
  obtain ⟨parts, final, s', owner', r', p', u', rfl, -, h⟩ :=
    references_follow_names (i := 0) (j := 1) hrs hrun rfl rfl (by decide +kernel)
      (by decide +kernel) (by decide) (by decide) (by decide) rfl hat hreached
  exact ⟨parts, final, s', owner', r', p', u', hrun, h⟩

end NestedStacks
