/-
The tagged values of a document, in document order.

A tag comes before what stands inside its payload, and keys are left out.

* `Tree.nodes` — the list; `Tree.mem_nodes_iff` says that it holds the tagged values at all places;
* `FirstOf` — a property of the first element of a list that has one.
-/
import NestedStacks.Proofs.Document.Parts
import NestedStacks.Tag.Node

namespace NestedStacks

namespace Tree

mutual
/-- `t.nodes` lists each `.tagged tag payload` in `t` outside keys as `(tag, payload)`, in document
order. -/
def nodes : Tree → List (String × Tree)
  | .seq items => nodesOfItems items
  | .map entries => nodesOfEntries entries
  | .tagged tag payload => (tag, payload) :: nodes payload
  | _ => []

/-- The `nodes` of all items, in order. -/
def nodesOfItems : List Tree → List (String × Tree)
  | [] => []
  | t :: rest => nodes t ++ nodesOfItems rest

/-- The `nodes` of the values of all entries, in order. -/
def nodesOfEntries : List (Tree × Tree) → List (String × Tree)
  | [] => []
  | (_, v) :: rest => nodes v ++ nodesOfEntries rest
end

theorem nodes_seq (items : List Tree) : (Tree.seq items).nodes = items.flatMap nodes := by
  rw [nodes]
  induction items with
  | nil => rfl
  | cons t rest ih => rw [nodesOfItems, ih, List.flatMap_cons]

theorem nodes_map (entries : Entries) :
    (Tree.map entries).nodes = entries.flatMap fun e => e.2.nodes := by
  rw [nodes]
  induction entries with
  | nil => rfl
  | cons e rest ih => rw [nodesOfEntries, ih, List.flatMap_cons]

/-- There is no tagged value inside `t` if a tag takes `t` as the text `s`. -/
theorem nodes_of_scalarText? {t : Tree} {s : String} (h : TaggedNode.scalarText? t = some s) :
    t.nodes = [] := by
  cases t <;> first | rfl | cases h

/-- The tree `u` stands at a place of `t` if `u` is `t`, or stands at a place of one of
`t.parts`. -/
theorem exists_at?_iff {t u : Tree} :
    (∃ place, t.at? place = some u) ↔ t = u ∨ ∃ v ∈ t.parts, ∃ place, v.at? place = some u := by
  constructor
  · rintro ⟨_ | ⟨i, place⟩, h⟩
    · exact .inl (by simpa using h)
    · obtain ⟨v, hv, h⟩ := Option.bind_eq_some_iff.mp h
      exact .inr ⟨v, List.mem_of_getElem? hv, place, h⟩
  · rintro (rfl | ⟨v, hv, place, h⟩)
    · exact ⟨[], rfl⟩
    · obtain ⟨i, hi⟩ := List.getElem?_of_mem hv
      exact ⟨i :: place, by rw [at?_cons, hi, Option.bind_some, h]⟩

/-- The pairs in `t.nodes` are those of the tagged values at the places of `t`. -/
theorem mem_nodes_iff {t payload : Tree} {tag : String} :
    (tag, payload) ∈ t.nodes ↔ ∃ place, t.at? place = some (.tagged tag payload) := by
  induction t using Tree.induct with
  | null | bool | num | str =>
    rw [exists_at?_iff]
    simp [nodes, parts]
  | seq items ih =>
    rw [exists_at?_iff, nodes_seq, List.mem_flatMap]
    simp only [reduceCtorEq, false_or]
    exact exists_congr fun u => and_congr_right fun hu => ih u hu
  | map entries _ ih =>
    rw [exists_at?_iff, nodes_map, List.mem_flatMap]
    simp only [reduceCtorEq, false_or, parts, List.mem_map, exists_exists_and_eq_and]
    exact exists_congr fun e => and_congr_right fun he => ih e he
  | tagged tag' payload' ih =>
    rw [exists_at?_iff, nodes, List.mem_cons, ih]
    simp [parts, eq_comm]

end Tree

/-! ### The first element with a property -/

/-- `FirstOf P xs e`: `P x e` holds for the first `x` in `xs` for which `P x` holds of anything. -/
def FirstOf {α β : Type} (P : α → β → Prop) (xs : List α) (e : β) : Prop :=
  ∃ before x after, xs = before ++ x :: after ∧ P x e ∧ ∀ y ∈ before, ∀ e', ¬P y e'

namespace FirstOf

variable {α β γ : Type} {P : α → β → Prop} {x : α} {xs ys : List α} {e : β}

@[simp] theorem nil : ¬FirstOf P [] e := by
  rintro ⟨before, x, after, h, -⟩
  simp at h

theorem cons : FirstOf P (x :: xs) e ↔ P x e ∨ (∀ e', ¬P x e') ∧ FirstOf P xs e := by
  constructor
  · rintro ⟨_ | ⟨y, before⟩, z, after, h, hz, hbefore⟩
    · obtain ⟨rfl, rfl⟩ := List.cons.inj h
      exact .inl hz
    · obtain ⟨rfl, rfl⟩ := List.cons.inj h
      refine .inr ⟨hbefore x (by simp), before, z, after, rfl, hz, fun u hu => ?_⟩
      exact hbefore u (by simp [hu])
  · rintro (hx | ⟨hx, before, z, after, rfl, hz, hbefore⟩)
    · exact ⟨[], x, xs, rfl, hx, by simp⟩
    · refine ⟨x :: before, z, after, rfl, hz, fun u hu => ?_⟩
      rcases List.mem_cons.mp hu with rfl | hu
      · exact hx
      · exact hbefore u hu

/-- There is a first `x` in `xs` with something for which `P x` holds if there is any. -/
theorem exists_iff : (∃ e, FirstOf P xs e) ↔ ∃ x ∈ xs, ∃ e, P x e := by
  induction xs with
  | nil => simp
  | cons x xs ih =>
    simp only [cons, List.exists_mem_cons_iff, ← ih, exists_or, exists_and_left]
    by_cases hx : ∃ e, P x e
    · simp [hx]
    · simp [not_exists.mp hx]

theorem append :
    FirstOf P (xs ++ ys) e ↔ FirstOf P xs e ∨ (∀ e', ¬FirstOf P xs e') ∧ FirstOf P ys e := by
  induction xs with
  | nil => simp
  | cons x xs ih =>
    simp only [List.cons_append, cons, ih, not_or, not_and, forall_and]
    tauto

/-- The first `x` in `zs.flatMap f` is the first one in `f z`, for the first `z` that has one. -/
theorem flatMap {f : γ → List α} {zs : List γ} :
    FirstOf P (zs.flatMap f) e ↔ FirstOf (fun z e => FirstOf P (f z) e) zs e := by
  induction zs with
  | nil => simp
  | cons z zs ih => rw [List.flatMap_cons, append, cons, ih]

end FirstOf

end NestedStacks
