/-
Reading the resources of a template, and setting them.

Setting resources and reading them again gives each name once, in the place of its first resource
and with its last one: `Template.resources_setResources`.

* `mergeResources` — what resources come to when names are given again;
* `mergeResources_of_nodup`, `nodup_mergeResources` — names that are different stay as they are;
* `Template.taggedIn_resources`, `Template.taggedIn_setResources` — templates in order.
-/
import NestedStacks.Template.Basic
import NestedStacks.Proofs.Tagging.WellTagged

namespace NestedStacks

/-- `putResource name r rs`: `rs` with `r` in the place of the resource `name`, or else at the
end. -/
def putResource (name : String) (r : Resource) : Resources → Resources
  | [] => [(name, r)]
  | e :: rest => if e.1 = name then (name, r) :: rest else e :: putResource name r rest

/-- The resources `rs`, of two with one name the later one in the place of the earlier. -/
def mergeResources (rs : Resources) : Resources :=
  rs.foldl (fun merged e => putResource e.1 e.2 merged) []

/-! ### Merging -/

theorem mem_putResource {name : String} {r : Resource} {rs : Resources} {e : String × Resource}
    (h : e ∈ putResource name r rs) : e = (name, r) ∨ e ∈ rs := by
  induction rs with
  | nil => exact .inl (by simpa [putResource] using h)
  | cons e' rest ih =>
    by_cases hn : e'.1 = name
    · simp only [putResource, hn, if_true, List.mem_cons] at h ⊢
      tauto
    · simp only [putResource, hn, if_false, List.mem_cons] at h ⊢
      rcases h with h | h
      · exact .inr (.inl h)
      · rcases ih h with h | h
        · exact .inl h
        · exact .inr (.inr h)

theorem mem_putResource_self (name : String) (r : Resource) (rs : Resources) :
    (name, r) ∈ putResource name r rs := by
  induction rs with
  | nil => simp [putResource]
  | cons e rest ih =>
    by_cases hn : e.1 = name
    · simp [putResource, hn]
    · simp [putResource, hn, ih]

theorem mem_foldl_putResource {rs merged : Resources} {e : String × Resource}
    (h : e ∈ rs.foldl (fun merged e => putResource e.1 e.2 merged) merged) :
    e ∈ merged ∨ e ∈ rs := by
  induction rs generalizing merged with
  | nil => exact .inl h
  | cons e' rest ih =>
    rcases ih h with h | h
    · rcases mem_putResource h with rfl | h
      · exact .inr (by simp)
      · exact .inl h
    · exact .inr (by simp [h])

theorem mem_of_mem_mergeResources {rs : Resources} {e : String × Resource}
    (h : e ∈ mergeResources rs) : e ∈ rs := by
  rcases mem_foldl_putResource h with h | h
  · simp at h
  · exact h

theorem putResource_of_not_mem {name : String} {r : Resource} {rs : Resources}
    (h : name ∉ rs.map (·.1)) : putResource name r rs = rs ++ [(name, r)] := by
  induction rs with
  | nil => rfl
  | cons e rest ih =>
    simp only [List.map_cons, List.mem_cons, not_or] at h
    simp [putResource, Ne.symm h.1, ih h.2]

/-- The names of `rs` after putting in `r` as `name`. -/
theorem names_putResource (name : String) (r : Resource) (rs : Resources) :
    (putResource name r rs).map (·.1) =
      if name ∈ rs.map (·.1) then rs.map (·.1) else rs.map (·.1) ++ [name] := by
  induction rs with
  | nil => simp [putResource]
  | cons e rest ih =>
    by_cases hn : e.1 = name
    · simp [putResource, hn]
    · simp only [putResource, hn, if_false, List.map_cons, ih, List.mem_cons, Ne.symm hn, false_or]
      split <;> rfl

theorem mem_names_putResource {name other : String} {r : Resource} {rs : Resources} :
    other ∈ (putResource name r rs).map (·.1) ↔ other ∈ rs.map (·.1) ∨ other = name := by
  rw [names_putResource]
  split
  · rename_i hname
    exact ⟨.inl, fun h => h.elim id fun h => h ▸ hname⟩
  · rw [List.mem_append, List.mem_singleton]

/-- Merging loses no `name` in `rs`. -/
theorem mem_names_mergeResources {name : String} {rs : Resources} :
    name ∈ (mergeResources rs).map (·.1) ↔ name ∈ rs.map (·.1) := by
  -- whatever was merged before
  have h : ∀ merged : Resources,
      name ∈ (rs.foldl (fun merged e => putResource e.1 e.2 merged) merged).map (·.1) ↔
        name ∈ merged.map (·.1) ∨ name ∈ rs.map (·.1) := by
    induction rs with
    | nil => simp
    | cons e rest ih =>
      intro merged
      rw [List.foldl_cons, ih, mem_names_putResource, List.map_cons, List.mem_cons, or_assoc]
  rw [mergeResources, h, List.map_nil]
  simp

theorem nodup_putResource {name : String} {r : Resource} {rs : Resources}
    (h : (rs.map (·.1)).Nodup) : ((putResource name r rs).map (·.1)).Nodup := by
  rw [names_putResource]
  split
  · exact h
  · rename_i hn
    exact List.nodup_append.mpr ⟨h, by simp, by
      rintro a ha b hb rfl
      exact hn (by simpa [List.mem_singleton.mp hb] using ha)⟩

/-- After merging `rs` no name is given twice. -/
theorem nodup_mergeResources (rs : Resources) : ((mergeResources rs).map (·.1)).Nodup := by
  -- whatever was merged before, as long as its names are different
  have h : ∀ merged : Resources, (merged.map (·.1)).Nodup →
      ((rs.foldl (fun merged e => putResource e.1 e.2 merged) merged).map (·.1)).Nodup := by
    induction rs with
    | nil => exact fun merged h => h
    | cons e rest ih => exact fun merged h => ih _ (nodup_putResource h)
  exact h [] (by simp)

/-- Resources `rs` with different names are merged to themselves. -/
theorem mergeResources_of_nodup {rs : Resources} (h : (rs.map (·.1)).Nodup) :
    mergeResources rs = rs := by
  -- with what was merged before in front, whose names are other ones
  have happ : ∀ merged : Resources, ((merged ++ rs).map (·.1)).Nodup →
      rs.foldl (fun merged e => putResource e.1 e.2 merged) merged = merged ++ rs := by
    clear h
    induction rs with
    | nil => simp
    | cons e rest ih =>
      intro merged hnodup
      have hnew : e.1 ∉ merged.map (·.1) := by
        simp only [List.map_append, List.map_cons, List.nodup_append, List.mem_cons] at hnodup
        exact fun hmem => hnodup.2.2 _ hmem _ (.inl rfl) rfl
      rw [List.foldl_cons, putResource_of_not_mem hnew, ih] <;> simp_all
  exact happ [] (by simpa using h)

/-! ### Setting and reading -/

/-- The resource in `e` as an entry of a mapping, under its name. -/
def resourceEntry (e : String × Resource) : Tree × Tree := (.str e.1, e.2.toTree)

theorem set_map_resourceEntry (name : String) (r : Resource) (rs : Resources) :
    Entries.set (rs.map resourceEntry) name r.toTree =
      (putResource name r rs).map resourceEntry := by
  induction rs with
  | nil => rfl
  | cons e rest ih =>
    by_cases hn : e.1 = name
    · simp [Entries.set, putResource, resourceEntry, hn]
    · simp [Entries.set, putResource, resourceEntry, hn]
      exact ih

namespace Template

theorem resourceEntries_eq (rs : Resources) :
    resourceEntries rs = (mergeResources rs).map resourceEntry := by
  have h : ∀ merged : Resources,
      rs.foldl (fun entries r => Entries.set entries r.1 r.2.toTree) (merged.map resourceEntry) =
        (rs.foldl (fun merged e => putResource e.1 e.2 merged) merged).map resourceEntry := by
    induction rs with
    | nil => simp
    | cons e rest ih =>
      intro merged
      rw [List.foldl_cons, List.foldl_cons, set_map_resourceEntry, ih]
  exact h []

theorem mapM_resourceOf (rs : Resources) : (rs.map resourceEntry).mapM resourceOf = .ok rs := by
  induction rs with
  | nil => rfl
  | cons e rest ih => rw [List.map_cons, List.mapM_cons, ih]; rfl

/-- Setting resources `rs` and reading them again merges them. -/
theorem resources_setResources (t : Template) (rs : Resources) :
    (t.setResources rs).resources = .ok (mergeResources rs) := by
  rw [resources, get?, setResources, Entries.get?_set_self, resourceEntries_eq]
  exact mapM_resourceOf _

/-- Merged resources make the same entries as `rs`. -/
theorem resourceEntries_mergeResources (rs : Resources) :
    resourceEntries (mergeResources rs) = resourceEntries rs := by
  rw [resourceEntries_eq, resourceEntries_eq, mergeResources_of_nodup (nodup_mergeResources rs)]

/-- Of resources `rs` and `rs'` set one after the other `rs'` are left. -/
theorem setResources_setResources (t : Template) (rs rs' : Resources) :
    (t.setResources rs).setResources rs' = t.setResources rs' :=
  congrArg Template.mk (Entries.set_set _ _ _ _)

/-- Setting the merged `rs` after `rs` changes nothing. -/
theorem setResources_merge (t : Template) (rs : Resources) :
    (t.setResources rs).setResources (mergeResources rs) = t.setResources rs := by
  rw [setResources_setResources, setResources, setResources, resourceEntries_mergeResources]

/-! ### Templates in order -/

variable {allowed : Tag → Prop} {t : Template} {rs : Resources}

theorem resourceOf_eq_ok {entry : Tree × Tree} {e : String × Resource} :
    resourceOf entry = .ok e ↔ keyText entry.1 = .ok e.1 ∧ entry.2 = e.2.toTree := by
  obtain ⟨name, body⟩ := e
  simp only [resourceOf, Except.bind_eq_ok, Except.mapError_eq_ok, Except.pure_eq_ok]
  constructor
  · rintro ⟨_, hname, r, hr, h⟩
    cases h
    unfold Resource.ofTree at hr
    split at hr
    · cases hr
      exact ⟨hname, ‹_›⟩
    · cases hr
  · rintro ⟨hname, hbody⟩
    exact ⟨name, hname, body, by rw [hbody]; rfl, rfl⟩

theorem mem_resources (hrs : t.resources = .ok rs) {e : String × Resource} (he : e ∈ rs) :
    ∃ entries, t.get? "Resources" = some (.map entries) ∧
      ∃ k, keyText k = .ok e.1 ∧ (k, e.2.toTree) ∈ entries := by
  unfold resources at hrs
  split at hrs
  · cases hrs
    simp at he
  · cases hrs
    simp at he
  · rename_i entries hget
    refine ⟨entries, hget, ?_⟩
    obtain ⟨entry, hmem, hof⟩ := forall₂_exists_left (Except.mapM_eq_ok.mp hrs) he
    obtain ⟨hkey, hbody⟩ := resourceOf_eq_ok.mp hof
    exact ⟨entry.1, hkey, hbody ▸ hmem⟩
  · cases hrs

/-- The resources `rs` of a template `t` in order are in order. -/
theorem taggedIn_resources (ht : t.toTree.TaggedIn allowed) (hrs : t.resources = .ok rs) :
    ∀ e ∈ rs, e.2.toTree.TaggedIn allowed := by
  intro e he
  obtain ⟨entries, hget, k, -, hmem⟩ := mem_resources hrs he
  exact (ht.get? hget).mem_entries _ hmem

/-- Setting resources `rs` in order keeps a template `t` in order. -/
theorem taggedIn_setResources (ht : t.toTree.TaggedIn allowed)
    (hrs : ∀ e ∈ rs, e.2.toTree.TaggedIn allowed) :
    (t.setResources rs).toTree.TaggedIn allowed := by
  refine ht.set _ (.map ?_)
  rw [resourceEntries_eq]
  intro e he
  obtain ⟨e, hmem, rfl⟩ := List.mem_map.mp he
  exact hrs e (mem_of_mem_mergeResources hmem)

end Template

end NestedStacks
