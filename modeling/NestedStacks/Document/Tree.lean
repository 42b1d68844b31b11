/-
The document tree: what a template file holds after reading and before writing.

A tree is a scalar, a sequence, a mapping with its entries in document order, or a tag put on
a tree.  Keys are trees themselves.

* `Tree.asString?`, `Tree.asEntries?` — views that look through tags;
* `Tree.same` — equality of documents, for which the order of entries does not count;
* `Entries.get?`, `Entries.set` — look-up and update by a string key.
-/
import NestedStacks.Document.Number

namespace NestedStacks

/-- A document. -/
inductive Tree where
  | null
  | bool (value : Bool)
  | num (value : Number)
  | str (text : String)
  | seq (items : List Tree)
  | map (entries : List (Tree × Tree))
  | tagged (tag : String) (payload : Tree)
  deriving Inhabited

/-- The entries of a mapping, in document order. -/
abbrev Entries := List (Tree × Tree)

/-- The name of a tag: one exclamation mark at its start is not part of the name, unless it is
all there is. -/
def tagName (tag : String) : String :=
  match tag.toList with
  | '!' :: c :: rest => String.ofList (c :: rest)
  | _ => tag

/-- A tag as messages and answers spell it, with one exclamation mark in front. -/
def tagSpelling (tag : String) : String := "!" ++ tagName tag

namespace Tree

/-- The string of a tree, seen through tags. -/
def asString? : Tree → Option String
  | .str s => some s
  | .tagged _ payload => payload.asString?
  | _ => none

/-- The entries of a tree, seen through tags. -/
def asEntries? : Tree → Option Entries
  | .map entries => some entries
  | .tagged _ payload => payload.asEntries?
  | _ => none

/-- Whether a tree is the string `s` itself. -/
def isStr (s : String) : Tree → Bool
  | .str t => t == s
  | _ => false

@[simp] theorem isStr_str (s t : String) : isStr s (.str t) = (t == s) := rfl

theorem eq_of_isStr {s : String} {t : Tree} (h : t.isStr s = true) : t = .str s := by
  cases t <;> simp_all [isStr]

mutual
/-- Equality of documents: numbers as keys compare, tags by name, and mappings as sets of
entries. -/
def same : Tree → Tree → Bool
  | .null, .null => true
  | .bool a, .bool b => a == b
  | .num a, .num b => a.same b
  | .str a, .str b => a == b
  | .seq a, .seq b => sameItems a b
  | .map a, .map b => a.length == b.length && sameEntries a b
  | .tagged s a, .tagged t b => tagName s == tagName t && same a b
  | _, _ => false

/-- Item by item equality. -/
def sameItems : List Tree → List Tree → Bool
  | [], [] => true
  | a :: as, b :: bs => same a b && sameItems as bs
  | _, _ => false

/-- Whether every entry of the first list has an equal one in the second. -/
def sameEntries : List (Tree × Tree) → List (Tree × Tree) → Bool
  | [], _ => true
  | (key, value) :: rest, entries =>
    (match entries.find? fun entry => same key entry.1 with
      | some entry => same value entry.2
      | none => false) && sameEntries rest entries
end

end Tree

namespace Entries

/-- The value of a string key. -/
def get? (entries : Entries) (key : String) : Option Tree :=
  (entries.find? fun entry => entry.1.isStr key).map (·.2)

/-- Whether a string key is present. -/
def hasKey (entries : Entries) (key : String) : Bool :=
  entries.any fun entry => entry.1.isStr key

/-- Sets the value of a string key, in its old place or else at the end. -/
def set (entries : Entries) (key : String) (value : Tree) : Entries :=
  match entries with
  | [] => [(.str key, value)]
  | entry :: rest =>
    if entry.1.isStr key then (entry.1, value) :: rest else entry :: set rest key value

/-- Sets the value of any key, in its old place or else at the end. -/
def insert (entries : Entries) (key value : Tree) : Entries :=
  match entries with
  | [] => [(key, value)]
  | entry :: rest =>
    if entry.1.same key then (entry.1, value) :: rest else entry :: insert rest key value

/-- Whether an equal key is present. -/
def contains (entries : Entries) (key : Tree) : Bool :=
  entries.any fun entry => entry.1.same key

@[simp] theorem get?_nil (key : String) : get? [] key = none := rfl

@[simp] theorem set_nil (key : String) (value : Tree) : set [] key value = [(.str key, value)] :=
  rfl

theorem get?_cons (entry : Tree × Tree) (rest : Entries) (key : String) :
    get? (entry :: rest) key = if entry.1.isStr key then some entry.2 else get? rest key := by
  by_cases h : entry.1.isStr key <;> simp [get?, h]

@[simp] theorem get?_set_self (entries : Entries) (key : String) (value : Tree) :
    (set entries key value).get? key = some value := by
  induction entries with
  | nil => simp [get?_cons]
  | cons entry rest ih =>
    by_cases h : entry.1.isStr key <;> simp [set, get?_cons, h, ih]

theorem get?_set_of_ne (entries : Entries) {key other : String} (value : Tree)
    (h : other ≠ key) : (set entries key value).get? other = entries.get? other := by
  induction entries with
  | nil => simp [get?_cons, Ne.symm h]
  | cons entry rest ih =>
    by_cases hk : entry.1.isStr key
    · have := Tree.eq_of_isStr hk
      simp [set, get?_cons, this, Ne.symm h]
    · simp [set, get?_cons, hk, ih]

end Entries

end NestedStacks
