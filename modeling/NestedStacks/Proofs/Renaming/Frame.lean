/-
What renaming leaves alone.

Renaming changes the texts of references and the names in dependencies.  Everything else of a
resource stays: its keys and their order, the nesting of its properties, the tags in them and the
shapes of what these stand on, the lengths of sequences, and all other scalars.

* `Tree.SameButReferences`, `Tree.SameButNames` — documents that differ at most in the texts of
  references, and those that differ at most in the names in lists;
* `Tree.TaggedIn.sameButReferences` — a renamed document differs at most in references;
* `retarget_changes_references_only` — the main statement.
-/
import NestedStacks.Proofs.Renaming.References

namespace NestedStacks

namespace Tree

/-- `t.SameButReferences t'`: `t` and `t'` differ at most in the texts of references: what `Ref`,
`GetAtt` and `Sub` stand on if it is a text, and the first item under `GetAtt` and `Sub` if it is a
text. -/
inductive SameButReferences : Tree → Tree → Prop
  | refl (t : Tree) : SameButReferences t t
  | seq {items items' : List Tree} (h : List.Forall₂ SameButReferences items items') :
      SameButReferences (.seq items) (.seq items')
  | map {entries entries' : Entries} (hkeys : entries.map (·.1) = entries'.map (·.1))
      (h : List.Forall₂ SameButReferences (entries.map (·.2)) (entries'.map (·.2))) :
      SameButReferences (.map entries) (.map entries')
  | tagged (tag : String) {payload payload' : Tree} (h : SameButReferences payload payload') :
      SameButReferences (.tagged tag payload) (.tagged tag payload')
  | text {tag : Tag} (htag : tag.Refers) (s s' : String) :
      SameButReferences (.tagged tag.spelling (.str s)) (.tagged tag.spelling (.str s'))
  | first {tag : Tag} (htag : tag = .intrinsic .getAtt ∨ tag = .intrinsic .sub) (s s' : String)
      {rest rest' : List Tree} (h : List.Forall₂ SameButReferences rest rest') :
      SameButReferences (.tagged tag.spelling (.seq (.str s :: rest)))
        (.tagged tag.spelling (.seq (.str s' :: rest')))

/-- `t.SameButNames t'`: `t` and `t'` are texts, or differ at most in the texts that stand in lists,
at any depth. -/
inductive SameButNames : Tree → Tree → Prop
  | refl (t : Tree) : SameButNames t t
  | str (s s' : String) : SameButNames (.str s) (.str s')
  | seq {items items' : List Tree} (h : List.Forall₂ SameButNames items items') :
      SameButNames (.seq items) (.seq items')

variable {ctx : Context} {t t' : Tree} {items items' : List Tree} {allowed : Tag → Prop}

/-! ### Documents -/

/-- Renamed `items'` differ from `items` at most in references if each of them does. -/
theorem RetargetsItems.sameButReferences {function : Intrinsic}
    (h : RetargetsItems ctx function items items')
    (hitems : ∀ u ∈ items, ∀ u', u.retarget ctx = .ok u' → u.SameButReferences u') :
    (Tree.tagged (Tag.intrinsic function).spelling (.seq items)).SameButReferences
      (.tagged (Tag.intrinsic function).spelling (.seq items')) := by
  cases h with
  | name hrest =>
    refine .first (.inl rfl) _ _ (forall₂_of_mem hrest fun u hu u' => ?_)
    exact hitems u (List.mem_cons_of_mem _ hu) u'
  | @expression first _ _ hrest =>
    have hrest := forall₂_of_mem hrest fun u hu u' => hitems u (List.mem_cons_of_mem _ hu) u'
    cases first with
    | str s => exact .first (.inr rfl) _ _ hrest
    | _ => exact .tagged _ (.seq (.cons (.refl _) hrest))
  | items _ _ h => exact .tagged _ (.seq (forall₂_of_mem h fun u hu u' => hitems u hu u'))

/-- A document `t` in order differs from what renaming makes of it at most in references. -/
theorem TaggedIn.sameButReferences (ht : t.TaggedIn allowed) (h : t.retarget ctx = .ok t') :
    t.SameButReferences t' := by
  induction ht generalizing t' with
  | null | bool | num | str =>
    simp only [Tree.retarget, Except.pure_eq_ok] at h
    subst h
    exact .refl _
  | seq _ ih =>
    obtain ⟨items', rfl, hitems⟩ := retarget_seq_eq_ok h
    exact .seq (forall₂_of_mem hitems fun u hu u' hr => ih u hu hr)
  | map _ ih =>
    obtain ⟨entries', rfl, hentries⟩ := retarget_map_eq_ok h
    obtain ⟨hkeys, hvalues⟩ := forall₂_fields.mp
      (forall₂_of_mem hentries fun e he e' hr => And.intro hr.1.symm (ih e he hr.2))
    exact .map hkeys hvalues
  | @text tag _ hk s =>
    rw [retarget_text (TaggedNode.ofTagged_text hk s)] at h
    obtain rfl := Except.ok.inj h
    by_cases htag : tag.Refers
    · exact .text htag s _
    · rw [retargetText_eq (.inr htag)]
      exact .refl _
  | list _ hk _ ih =>
    obtain ⟨i, rfl⟩ := TaggedNode.exists_intrinsic hk
    obtain ⟨items', hlist, rfl⟩ := eq_of_retarget_list (Tag.ofYaml?_spelling _) h
    exact (retargetList_eq_ok.mp hlist).sameButReferences fun u hu u' hr => ih u hu hr

/-- In a dependency `t` the prefix of `ctx` is put in front of names only. -/
theorem sameButNames_prefixDependency (t : Tree) (ctx : Context) :
    t.SameButNames (t.prefixDependency ctx) := by
  induction t using Tree.induct with
  | str s => exact .str s _
  | seq items ih =>
    rw [prefixDependency, prefixDependencies_eq_map]
    refine .seq ?_
    rw [List.forall₂_map_right_iff, List.forall₂_same]
    exact ih
  | _ => exact .refl _

end Tree

/-! ### Resources -/

/-- `EntryKept e e'`: the entry `e` of a resource may become `e'` by renaming: it stays, or it is
the properties and differs in references, or it is the dependencies and differs in names. -/
inductive EntryKept : Tree × Tree → Tree × Tree → Prop
  | same (e : Tree × Tree) : EntryKept e e
  | properties {p p' : Tree} (h : p.SameButReferences p') :
      EntryKept (.str "Properties", p) (.str "Properties", p')
  | dependsOn {d d' : Tree} (h : d.SameButNames d') :
      EntryKept (.str "DependsOn", d) (.str "DependsOn", d')

/-- Setting the properties `p` to `p'` leaves the other `entries` as they are, those of dependencies
among them. -/
theorem entriesKept_set_properties {entries : Entries} {p p' : Tree}
    (hp : entries.get? "Properties" = some p) (h : p.SameButReferences p') :
    List.Forall₂ (fun e e' => EntryKept e e' ∧ (e'.1 = .str "DependsOn" → e = e')) entries
      (entries.set "Properties" p') := by
  have hself : List.Forall₂ Eq entries entries := List.forall₂_eq_eq_eq ▸ rfl
  refine Entries.forall₂_set hself hp ?_ ?_
  · rintro e _ rfl
    exact ⟨.same e, fun _ => rfl⟩
  · rintro _ rfl
    exact ⟨.properties h, by simp⟩

/-- If `changed` keeps the dependencies of `r`, then prefixing them changes no more than their
names. -/
theorem entriesKept_prefixDependsOn {r changed : Resource} (ctx : Context)
    (hd : changed.get? "DependsOn" = r.get? "DependsOn")
    (h : List.Forall₂ (fun e e' => EntryKept e e' ∧ (e'.1 = .str "DependsOn" → e = e')) r.body
      changed.body) :
    List.Forall₂ EntryKept r.body (r.prefixDependsOn ctx changed).body := by
  unfold Resource.prefixDependsOn
  split
  · rename_i d hget
    refine Entries.forall₂_set h (hd.trans hget) (fun _ _ he => he.1) fun e he => ?_
    obtain rfl := he.2 rfl
    exact .dependsOn (d.sameButNames_prefixDependency ctx)
  · exact h.imp fun _ _ he => he.1

/-- **Renaming changes nothing but references.**  Let the properties of `r` be well tagged, as they
are in every document that is loaded.  Then `r` can be renamed under any `ctx`.  The bodies of `r`
and of the renamed resource `r'` have the same keys in the same order, and `EntryKept e e'` one by
one: the properties differ at most in the texts of references, the dependencies at most in names,
and all other entries are the same. -/
theorem retarget_changes_references_only {r : Resource}
    (hr : ∀ p, r.properties? = some p → p.WellTagged) (ctx : Context) :
    ∃ r', r.retarget ctx = .ok r' ∧ List.Forall₂ EntryKept r.body r'.body := by
  cases hp : r.properties? with
  | none =>
    refine ⟨_, Resource.retarget_eq_ok.mpr ⟨r, rfl, .inl ⟨hp, rfl⟩⟩, ?_⟩
    refine entriesKept_prefixDependsOn ctx rfl ?_
    exact List.forall₂_same.mpr fun e _ => ⟨.same e, fun _ => rfl⟩
  | some p =>
    obtain ⟨p', hp', -⟩ := (hr p hp).retarget ctx
    refine ⟨_, Resource.retarget_eq_ok.mpr ⟨_, rfl, .inr ⟨p, p', hp, hp', rfl⟩⟩, ?_⟩
    refine entriesKept_prefixDependsOn ctx (Resource.get?_set_of_ne _ _ (by decide)) ?_
    exact entriesKept_set_properties hp ((hr p hp).sameButReferences hp')

/-- The role from before with what it depends on, as a name in a list in a list. -/
def sampleDependent : Resource :=
  sampleRole.set "DependsOn" (.seq [.seq [.str "Bucket"], .null])

/-- Of the role only the expression in the policy and the name of the bucket change. -/
theorem retarget_changes_references_only_role :
    (∀ p, sampleDependent.properties? = some p → p.WellTagged) ∧
      ∃ r', sampleDependent.retarget sampleNaming = .ok r' ∧
        List.Forall₂ EntryKept sampleDependent.body r'.body ∧
        r'.get? "DependsOn" = some (.seq [.seq [.str "ChildBucket"], .null]) := by
  have hexpression : (Tree.tagged "!Sub" (.str "$\x7bBucket.Arn\x7d/*")).WellTagged :=
    @Tree.TaggedIn.text _ (.intrinsic .sub) trivial (by decide) _
  have hp : sampleProperties.WellTagged := by
    have hlist : (Tree.seq [.str "a", .tagged "!Sub" (.str "$\x7bBucket.Arn\x7d/*")]).WellTagged :=
      .seq (List.forall_mem_cons.mpr ⟨.str _, List.forall_mem_singleton.mpr hexpression⟩)
    refine .map (List.forall_mem_singleton.mpr ?_)
    exact @Tree.TaggedIn.list _ (.intrinsic .join) trivial (by decide) _
      (List.forall_mem_cons.mpr ⟨.str _, List.forall_mem_singleton.mpr hlist⟩)
  have hr : ∀ p, sampleDependent.properties? = some p → p.WellTagged := by
    rintro p hprops
    obtain rfl : sampleProperties = p := Option.some.inj hprops
    exact hp
  obtain ⟨r', hr', hkept⟩ := retarget_changes_references_only hr sampleNaming
  refine ⟨hr, r', hr', hkept, ?_⟩
  obtain rfl := Except.ok.inj hr'
  rfl

end NestedStacks
