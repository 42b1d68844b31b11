/-
Whether two documents are the same can be computed.

`Tree.same` is what two documents mean; here they are compared as they stand, with the order of
entries and the spelling of tags.
-/
import NestedStacks.Template.Basic

namespace NestedStacks

namespace Tree

mutual
/-- `eqb t u`: whether `t` and `u` are equal in every detail. -/
def eqb : Tree → Tree → Bool
  | .null, .null => true
  | .bool a, .bool b => a == b
  | .num a, .num b => a == b
  | .str a, .str b => a == b
  | .seq as, .seq bs => eqbItems as bs
  | .map as, .map bs => eqbEntries as bs
  | .tagged s a, .tagged t b => s == t && eqb a b
  | _, _ => false

/-- `eqb` item by item. -/
def eqbItems : List Tree → List Tree → Bool
  | [], [] => true
  | a :: as, b :: bs => eqb a b && eqbItems as bs
  | _, _ => false

/-- `eqb` on the keys and on the values, entry by entry. -/
def eqbEntries : List (Tree × Tree) → List (Tree × Tree) → Bool
  | [], [] => true
  | (k, a) :: as, (l, b) :: bs => eqb k l && eqb a b && eqbEntries as bs
  | _, _ => false
end

mutual
theorem eqb_iff : ∀ a b : Tree, eqb a b = true ↔ a = b
  | .null, b => by cases b <;> simp [eqb]
  | .bool _, b => by cases b <;> simp [eqb]
  | .num _, b => by cases b <;> simp [eqb]
  | .str _, b => by cases b <;> simp [eqb]
  | .seq as, b => by cases b <;> simp [eqb, eqbItems_iff as]
  | .map as, b => by cases b <;> simp [eqb, eqbEntries_iff as]
  | .tagged _ a, b => by cases b <;> simp [eqb, eqb_iff a]

theorem eqbItems_iff : ∀ as bs : List Tree, eqbItems as bs = true ↔ as = bs
  | [], bs => by cases bs <;> simp [eqbItems]
  | a :: as, bs => by cases bs <;> simp [eqbItems, eqb_iff a, eqbItems_iff as]

theorem eqbEntries_iff : ∀ as bs : List (Tree × Tree), eqbEntries as bs = true ↔ as = bs
  | [], bs => by cases bs <;> simp [eqbEntries]
  | (k, a) :: as, bs => by
    rcases bs with _ | ⟨⟨l, b⟩, bs⟩ <;>
      simp [eqbEntries, eqb_iff k, eqb_iff a, eqbEntries_iff as]
end

instance : DecidableEq Tree := fun a b => decidable_of_iff (eqb a b = true) (eqb_iff a b)

end Tree

deriving instance DecidableEq for Resource, Template

end NestedStacks
