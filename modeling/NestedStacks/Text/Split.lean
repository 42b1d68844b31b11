/-
Taking a text apart at a character.

* `cut` — what is in front of the first occurrence and what is behind it;
* `pieces` — everything between the occurrences.
-/

namespace NestedStacks.Text

/-- The characters in front of the first `sep` and, if there is one, those behind it. -/
def cut (sep : Char) : List Char → List Char × Option (List Char)
  | [] => ([], none)
  | c :: r =>
    if c = sep then ([], some r)
    else
      let (front, behind) := cut sep r
      (c :: front, behind)

/-- The characters between the occurrences of `sep`: one more list than there are of them. -/
def pieces (sep : Char) : List Char → List (List Char)
  | [] => [[]]
  | c :: r =>
    if c = sep then [] :: pieces sep r
    else
      match pieces sep r with
      | [] => [[c]]
      | p :: ps => (c :: p) :: ps

/-- Puts the parts of a cut together again. -/
def uncut (sep : Char) : List Char × Option (List Char) → List Char
  | (front, none) => front
  | (front, some behind) => front ++ sep :: behind

theorem uncut_cut (sep : Char) (cs : List Char) : uncut sep (cut sep cs) = cs := by
  induction cs with
  | nil => rfl
  | cons c r ih =>
    by_cases h : c = sep
    · simp [cut, uncut, h]
    · rcases hr : cut sep r with ⟨front, behind⟩
      cases behind <;> simp_all [cut, uncut]

/-- A text without a separator belongs to what is in front of the first one. -/
theorem cut_append_of_not_mem {sep : Char} {front : List Char} (h : sep ∉ front) (cs : List Char) :
    cut sep (front ++ cs) = (front ++ (cut sep cs).1, (cut sep cs).2) := by
  induction front with
  | nil => rfl
  | cons c r ih =>
    simp only [List.mem_cons, not_or] at h
    simp [cut, Ne.symm h.1, ih h.2]

/-- Characters without a separator are one piece. -/
theorem cut_of_not_mem {sep : Char} {cs : List Char} (h : sep ∉ cs) : cut sep cs = (cs, none) := by
  simpa [cut] using cut_append_of_not_mem h []

/-- The first separator is where a text without any is followed by one. -/
theorem cut_append {sep : Char} {front : List Char} (h : sep ∉ front) (behind : List Char) :
    cut sep (front ++ sep :: behind) = (front, some behind) := by
  simpa [cut] using cut_append_of_not_mem h (sep :: behind)

end NestedStacks.Text
