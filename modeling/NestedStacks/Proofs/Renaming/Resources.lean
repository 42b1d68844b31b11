/-
Renaming the references of a resource.

Only the properties and the dependencies of a resource change.

* `Resource.retarget_eq_ok` — a resource is renamed in two steps;
* `Resource.get?_retarget`, `Resource.properties?_retarget` — what the keys hold afterwards;
* `Resource.exists_retarget`, `Resource.retarget_eq` — resources in order, and without a prefix.
-/
import NestedStacks.Proofs.Renaming.Trees

namespace NestedStacks

namespace Tree

variable {ctx : Context} {allowed : Tag → Prop}

theorem prefixDependencies_eq_map (names : List Tree) :
    prefixDependencies ctx names = names.map (prefixDependency ctx) := by
  induction names with
  | nil => rfl
  | cons t rest ih => rw [prefixDependencies, List.map_cons, ih]

theorem TaggedIn.prefixDependency {t : Tree} (ht : t.TaggedIn allowed) (ctx : Context) :
    (t.prefixDependency ctx).TaggedIn allowed := by
  induction ht with
  | null => exact .null
  | bool b => exact .bool b
  | num n => exact .num n
  | str s => exact .str _
  | seq _ ih =>
    rw [Tree.prefixDependency, prefixDependencies_eq_map]
    refine .seq fun t ht => ?_
    obtain ⟨u, hu, rfl⟩ := List.mem_map.mp ht
    exact ih u hu
  | map h _ => exact .map h
  | text ha hk s => exact .text ha hk s
  | list ha hk h _ => exact .list ha hk h

theorem prefixDependency_eq (h : ctx.namePrefix = "") (t : Tree) : t.prefixDependency ctx = t := by
  induction t using Tree.induct with
  | null | bool | num | map | tagged => rfl
  | str s => rw [prefixDependency, Context.prefixed_eq h]
  | seq names ih =>
    rw [prefixDependency, prefixDependencies_eq_map, List.map_congr_left ih]
    simp

end Tree

namespace Resource

variable {ctx : Context} {allowed : Tag → Prop} {r r' : Resource}

@[simp] theorem get?_set_self (r : Resource) (key : String) (t : Tree) :
    (r.set key t).get? key = some t := Entries.get?_set_self r.body key t

theorem get?_set_of_ne (r : Resource) {key other : String} (t : Tree) (h : other ≠ key) :
    (r.set key t).get? other = r.get? other := Entries.get?_set_of_ne r.body t h

theorem set_of_get? {key : String} {t : Tree} (h : r.get? key = some t) : r.set key t = r :=
  congrArg Resource.mk (Entries.set_of_get? h)

/-- A resource `r` is renamed in two steps: its properties, if it has any, which gives `changed`,
and then its dependencies. -/
theorem retarget_eq_ok :
    r.retarget ctx = .ok r' ↔
      ∃ changed, r' = prefixDependsOn ctx r changed ∧
        (r.properties? = none ∧ changed = r ∨
          ∃ p p', r.properties? = some p ∧ p.retarget ctx = .ok p' ∧
            changed = r.set "Properties" p') := by
  unfold retarget
  cases hp : r.properties? with
  | none => simp [@eq_comm _ r']
  | some p =>
    simp only [Except.bind_eq_ok, Except.pure_eq_ok]
    constructor
    · rintro ⟨p', hp', rfl⟩
      exact ⟨_, rfl, .inr ⟨p, p', rfl, hp', rfl⟩⟩
    · rintro ⟨_, rfl, ⟨h, -⟩ | ⟨_, p', h, hp', rfl⟩⟩
      · cases h
      · cases h
        exact ⟨p', hp', rfl⟩

theorem get?_prefixDependsOn {key : String} (hkey : key ≠ "DependsOn") (changed : Resource) :
    (prefixDependsOn ctx r changed).get? key = changed.get? key := by
  unfold prefixDependsOn
  split
  · exact get?_set_of_ne _ _ hkey
  · rfl

/-- Every `key` but those of the properties and the dependencies keeps its value. -/
theorem get?_retarget (h : r.retarget ctx = .ok r') {key : String} (hp : key ≠ "Properties")
    (hd : key ≠ "DependsOn") : r'.get? key = r.get? key := by
  obtain ⟨changed, rfl, ⟨-, rfl⟩ | ⟨p, p', -, -, rfl⟩⟩ := retarget_eq_ok.mp h
  · exact get?_prefixDependsOn hd _
  · rw [get?_prefixDependsOn hd, get?_set_of_ne _ _ hp]

/-- The properties of `r'` are those of `r`, renamed under `ctx`. -/
theorem properties?_retarget (h : r.retarget ctx = .ok r') :
    r.properties? = none ∧ r'.properties? = none ∨
      ∃ p p', r.properties? = some p ∧ p.retarget ctx = .ok p' ∧ r'.properties? = some p' := by
  obtain ⟨changed, rfl, ⟨hp, rfl⟩ | ⟨p, p', hp, hp', rfl⟩⟩ := retarget_eq_ok.mp h
  · exact .inl ⟨hp, (get?_prefixDependsOn (by decide) _).trans hp⟩
  · refine .inr ⟨p, p', hp, hp', ?_⟩
    exact (get?_prefixDependsOn (by decide) _).trans (get?_set_self _ _ _)

theorem type?_retarget (h : r.retarget ctx = .ok r') : r'.type? = r.type? := by
  rw [type?, type?, get?_retarget h (by decide) (by decide)]

/-! ### Resources in order -/

theorem taggedIn_prefixDependsOn {changed : Resource} (hr : r.toTree.TaggedIn allowed)
    (hc : changed.toTree.TaggedIn allowed) :
    (prefixDependsOn ctx r changed).toTree.TaggedIn allowed := by
  unfold prefixDependsOn
  split
  · rename_i t ht
    exact hc.set _ ((hr.get? ht).prefixDependency ctx)
  · exact hc

/-- Renaming never fails on a resource `r` in order, and keeps it in order with the same tags. -/
theorem exists_retarget (hr : r.toTree.TaggedIn allowed) (ctx : Context) :
    ∃ r', r.retarget ctx = .ok r' ∧ r'.toTree.TaggedIn allowed := by
  cases hp : r.properties? with
  | none => exact ⟨_, retarget_eq_ok.mpr ⟨r, rfl, .inl ⟨hp, rfl⟩⟩, taggedIn_prefixDependsOn hr hr⟩
  | some p =>
    obtain ⟨p', hp', hin⟩ := (hr.get? hp).retarget ctx
    refine ⟨_, retarget_eq_ok.mpr ⟨_, rfl, .inr ⟨p, p', hp, hp', rfl⟩⟩, ?_⟩
    exact taggedIn_prefixDependsOn hr (hr.set _ hin)

theorem taggedIn_of_retarget (hr : r.toTree.TaggedIn allowed) (h : r.retarget ctx = .ok r') :
    r'.toTree.TaggedIn allowed := by
  obtain ⟨r'', h', hin⟩ := exists_retarget hr ctx
  obtain rfl : r'' = r' := by simpa [h'] using h
  exact hin

/-- A resource `r` in order stays as it is when `ctx.namePrefix` is empty. -/
theorem retarget_eq (hr : r.toTree.TaggedIn allowed) (h : ctx.namePrefix = "") :
    r.retarget ctx = .ok r := by
  have hd : prefixDependsOn ctx r r = r := by
    unfold prefixDependsOn
    split
    · rename_i t ht
      rw [Tree.prefixDependency_eq h, set_of_get? ht]
    · rfl
  refine retarget_eq_ok.mpr ⟨r, hd.symm, ?_⟩
  cases hp : r.properties? with
  | none => exact .inl ⟨rfl, rfl⟩
  | some p =>
    have hp' : p.retarget ctx = .ok p := (hr.get? hp).retarget_eq fun _ _ => .inl h
    exact .inr ⟨p, p, rfl, hp', (set_of_get? hp).symm⟩

end Resource

end NestedStacks
