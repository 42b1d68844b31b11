/-
The parts of a document, and places in it.

Keys are labels: they are no parts, and no place lies inside them.

* `Tree.induct` — induction over a document and its parts;
* `Tree.parts`, `Tree.at?` — the trees right inside a tree, and the tree at a place;
* `Entries.mem_set`, `Entries.forall₂_set`, `Entries.set_comm` — what setting keys changes;
* `Entries.Puts`, `Entries.puts_set` — where a key is set.
-/
import NestedStacks.Document.Tree
import Mathlib.Data.List.Forall2

namespace NestedStacks

namespace Tree

/-- Induction over a document `t`: if `motive` holds of a tree as soon as it holds of the keys and
the parts of the tree, it holds of all trees. -/
@[elab_as_elim]
theorem induct {motive : Tree → Prop} (null : motive .null) (bool : ∀ b, motive (.bool b))
    (num : ∀ n, motive (.num n)) (str : ∀ s, motive (.str s))
    (seq : ∀ items, (∀ t ∈ items, motive t) → motive (.seq items))
    (map : ∀ entries : Entries, (∀ e ∈ entries, motive e.1) → (∀ e ∈ entries, motive e.2) →
      motive (.map entries))
    (tagged : ∀ tag payload, motive payload → motive (.tagged tag payload)) (t : Tree) :
    motive t := by
  refine Tree.rec (motive_1 := motive) (motive_2 := fun items => ∀ t ∈ items, motive t)
    (motive_3 := fun entries => ∀ e ∈ entries, motive e.1 ∧ motive e.2)
    (motive_4 := fun e => motive e.1 ∧ motive e.2) null bool num str seq ?_ tagged ?_ ?_ ?_ ?_ ?_ t
  · exact fun entries h => map entries (fun e he => (h e he).1) fun e he => (h e he).2
  · simp
  · intro t rest ht hrest u hu
    rcases List.mem_cons.mp hu with rfl | hu
    · exact ht
    · exact hrest u hu
  · simp
  · intro e rest he hrest e' he'
    rcases List.mem_cons.mp he' with rfl | he'
    · exact he
    · exact hrest e' he'
  · exact fun k v hk hv => ⟨hk, hv⟩

/-- The trees right inside `t`: its items, the values of its entries, or what its tag stands on. -/
def parts : Tree → List Tree
  | .seq items => items
  | .map entries => entries.map (·.2)
  | .tagged _ payload => [payload]
  | _ => []

/-- `t.at? place` is the tree at `place` in `t`, where `place` lists the numbers of parts on the way
there. -/
def at? : Tree → List Nat → Option Tree
  | t, [] => some t
  | t, i :: place => t.parts[i]?.bind fun u => at? u place

@[simp] theorem at?_nil (t : Tree) : t.at? [] = some t := rfl

theorem at?_cons (t : Tree) (i : Nat) (place : List Nat) :
    t.at? (i :: place) = t.parts[i]?.bind fun u => u.at? place := rfl

theorem at?_append (t : Tree) (place behind : List Nat) :
    t.at? (place ++ behind) = (t.at? place).bind fun u => u.at? behind := by
  induction place generalizing t with
  | nil => rfl
  | cons i place ih =>
    rw [List.cons_append, at?_cons, at?_cons]
    cases t.parts[i]? with
    | none => rfl
    | some u => exact ih u

end Tree

/-! ### Setting a key -/

namespace Entries

variable {entries : Entries} {key : String} {t : Tree}

/-- Whether `key` is there depends on the keys alone. -/
theorem hasKey_congr {entries' : Entries} (h : entries.map (·.1) = entries'.map (·.1))
    (key : String) : entries.hasKey key = entries'.hasKey key := by
  have hany := congrArg (List.any · (Tree.isStr key)) h
  simpa [hasKey, List.any_map, Function.comp_def] using hany

/-- An entry `e` after `key` is set to `t` was there before, or is the one that is set. -/
theorem mem_set {e : Tree × Tree} (h : e ∈ entries.set key t) :
    e ∈ entries ∨ e = (.str key, t) := by
  induction entries with
  | nil => exact .inr (by simpa using h)
  | cons entry rest ih =>
    by_cases hk : entry.1.isStr key
    · rw [set, if_pos hk, Tree.eq_of_isStr hk, List.mem_cons] at h
      rcases h with h | h
      · exact .inr h
      · exact .inl (by simp [h])
    · rw [set, if_neg hk, List.mem_cons] at h
      rcases h with rfl | h
      · exact .inl (by simp)
      · rcases ih h with h | h
        · exact .inl (by simp [h])
        · exact .inr h

/-- `Puts key t entries entries'`: `entries'` are `entries` after `key` is set to `t`.  The value is
changed where `key` stands, or `key` is new and put at the end. -/
inductive Puts (key : String) (t : Tree) : Entries → Entries → Prop
  | inPlace {front : Entries} (h : front.hasKey key = false) (behind : Entries) (old : Tree) :
      Puts key t (front ++ (.str key, old) :: behind) (front ++ (.str key, t) :: behind)
  | atEnd {entries : Entries} (h : entries.hasKey key = false) :
      Puts key t entries (entries ++ [(.str key, t)])

theorem puts_set (entries : Entries) (key : String) (t : Tree) :
    Puts key t entries (entries.set key t) := by
  induction entries with
  | nil => exact .atEnd rfl
  | cons entry rest ih =>
    by_cases hk : entry.1.isStr key
    · obtain ⟨k, old⟩ := entry
      obtain rfl : k = .str key := Tree.eq_of_isStr hk
      have hfront : hasKey [] key = false := rfl
      rw [set, if_pos hk]
      exact .inPlace hfront rest old
    · -- an entry with another key goes to those in front
      have hcons : ∀ {front : Entries}, front.hasKey key = false →
          hasKey (entry :: front) key = false := by
        intro front h
        simpa [hasKey, hk] using h
      rw [set, if_neg hk]
      generalize set rest key t = after at ih ⊢
      cases ih with
      | inPlace h behind old => exact .inPlace (hcons h) behind old
      | atEnd h => exact .atEnd (hcons h)

/-- Setting `key` to the value that it has changes nothing. -/
theorem set_of_get? (h : entries.get? key = some t) : entries.set key t = entries := by
  induction entries with
  | nil => simp at h
  | cons entry rest ih =>
    rw [get?_cons] at h
    by_cases hk : entry.1.isStr key
    · obtain rfl : entry.2 = t := by simpa [hk] using h
      simp [set, hk]
    · simp only [hk, Bool.false_eq_true, if_false] at h
      simp [set, hk, ih h]

/-- Setting a `key` that is there keeps the entries together with `xs`, if the new value `t'` goes
wherever the old one `t` does. -/
theorem forall₂_set {α : Type} {R R' : α → Tree × Tree → Prop} {xs : List α} {t' : Tree}
    (h : List.Forall₂ R xs entries) (hget : entries.get? key = some t)
    (hother : ∀ x e, R x e → R' x e) (hset : ∀ x, R x (.str key, t) → R' x (.str key, t')) :
    List.Forall₂ R' xs (entries.set key t') := by
  induction h with
  | nil => simp at hget
  | @cons x e xs entries hx h ih =>
    rw [get?_cons] at hget
    by_cases hk : e.1.isStr key
    · obtain ⟨k, v⟩ := e
      obtain rfl : k = .str key := Tree.eq_of_isStr hk
      obtain rfl : v = t := by simpa using hget
      simp only [set, Tree.isStr_str, beq_self_eq_true, if_true]
      exact .cons (hset x hx) (h.imp hother)
    · simp only [hk, Bool.false_eq_true, if_false] at hget
      simp only [set, hk, Bool.false_eq_true, if_false]
      exact .cons (hother x e hx) (ih hget)

/-- Of two values `t` and `u` set for `key` the second one is left. -/
theorem set_set (entries : Entries) (key : String) (t u : Tree) :
    (entries.set key t).set key u = entries.set key u := by
  induction entries with
  | nil => simp [set]
  | cons entry rest ih =>
    by_cases hk : entry.1.isStr key
    · simp [set, hk]
    · simp [set, hk, ih]

/-- The keys `key` and `other` may be set in any order if `key` is there already: only a new key is
put at the end. -/
theorem set_comm {other : String} (hne : key ≠ other) (h : (entries.get? key).isSome) (t u : Tree) :
    (entries.set other u).set key t = (entries.set key t).set other u := by
  induction entries with
  | nil => simp at h
  | cons entry rest ih =>
    rw [get?_cons] at h
    by_cases hk : entry.1.isStr key
    · have ho : entry.1.isStr other = false := by simpa [Tree.eq_of_isStr hk] using hne
      simp [set, hk, ho]
    · simp only [hk, Bool.false_eq_true, if_false] at h
      by_cases ho : entry.1.isStr other
      · simp [set, hk, ho]
      · simp [set, hk, ho, ih h]

end Entries

end NestedStacks
