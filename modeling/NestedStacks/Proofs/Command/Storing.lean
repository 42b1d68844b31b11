/-
Storing a text in a file.

Writing a file either fails or changes what stands at one place, and nothing else: the directories
on the way have to be there, so that not even one of them appears.

* `Files.store`, `Files.Storable` — the text at its place, and the places where it can be;
* `Files.entry?_store`, `Files.walk_store` — what stands elsewhere, and where paths lead;
* `Files.stores_of_write` — after a write the path reads as the text, and all else is as before.
-/
import NestedStacks.Run.Files
import NestedStacks.Proofs.Outcomes

namespace NestedStacks.Files

variable {fs fs' : Files} {place other : List String} {text : String} {p : Path}

/-- `fs.store place text`: the files `fs` with `text` in the file at `place`. -/
def store (fs : Files) (place : List String) (text : String) : Files :=
  ⟨(place, .file text.toUTF8) :: fs.entries⟩

/-- `fs.Storable place`: a file may be at `place`.  No directory is there, and something is there
already, or at least at `place.dropLast`. -/
structure Storable (fs : Files) (place : List String) : Prop where
  notDirectory : fs.entry? place ≠ some .directory
  known : fs.entry? place ≠ none ∨ fs.entry? place.dropLast ≠ none

/-- `fs.Stores p text fs'`: `fs'` reads `text` at the absolute path `p`, and has what `fs` has at
all other places. -/
structure Stores (fs : Files) (p : Path) (text : String) (fs' : Files) : Prop where
  read : fs'.read p = .ok text
  others : ∃ place, fs.place p = .ok place ∧
    ∀ other, other ≠ place → fs'.entry? other = fs.entry? other

/-! ### What stands at a place -/

@[simp] theorem entry?_store_self (fs : Files) (place : List String) (text : String) :
    Files.entry? (fs.store place text) place = some (.file text.toUTF8) := by
  simp [store, Files.entry?]

/-- Where something stands, `place` is the root, it is listed, or something is listed inside. -/
theorem exists_inside (h : fs.entry? place ≠ none) :
    place = [] ∨ ∃ e ∈ fs.entries, place <+: e.1 := by
  unfold Files.entry? at h
  split at h
  · rename_i listed e hfind
    obtain rfl : listed = place := by simpa using List.find?_some hfind
    exact .inr ⟨_, List.mem_of_find?_eq_some hfind, List.prefix_rfl⟩
  · split at h
    · rename_i hknown
      simpa using hknown
    · exact absurd rfl h

/-- The directories in front of a `place` that may hold a file are there already. -/
theorem Storable.exists_inside (h : fs.Storable place) (hfront : other <+: place)
    (hne : other ≠ place) : other = [] ∨ ∃ e ∈ fs.entries, other <+: e.1 := by
  have hdirectory : other <+: place.dropLast := by
    obtain ⟨behind, rfl⟩ := hfront
    have hbehind : behind ≠ [] := by
      rintro rfl
      exact hne (by simp)
    rw [List.dropLast_append_of_ne_nil hbehind]
    exact List.prefix_append _ _
  have hlisted : ∀ {q : List String}, other <+: q → fs.entry? q ≠ none →
      other = [] ∨ ∃ e ∈ fs.entries, other <+: e.1 := by
    intro q hq hknown
    rcases Files.exists_inside hknown with rfl | ⟨e, he, hinside⟩
    · exact .inl (List.prefix_nil.mp hq)
    · exact .inr ⟨e, he, hq.trans hinside⟩
  exact h.known.elim (hlisted hfront) (hlisted hdirectory)

/-- A text at `place` changes nothing at `other`. -/
theorem entry?_store (h : fs.Storable place) (hne : other ≠ place) (text : String) :
    Files.entry? (fs.store place text) other = fs.entry? other := by
  have hfind : (fs.store place text).entries.find? (·.1 == other) =
      fs.entries.find? (·.1 == other) := by
    simp [store, Ne.symm hne]
  have hlisted :
      (other.isEmpty || (fs.store place text).entries.any fun e => other.isPrefixOf e.1) =
        (other.isEmpty || fs.entries.any fun e => other.isPrefixOf e.1) := by
    rw [Bool.eq_iff_iff]
    simp only [store, List.any_cons, Bool.or_eq_true, List.isEmpty_iff, List.any_eq_true,
      List.isPrefixOf_iff_prefix]
    constructor
    · rintro (hempty | hfront | hany)
      · exact .inl hempty
      · exact h.exists_inside hfront hne
      · exact .inr hany
    · rintro (hempty | hany)
      · exact .inl hempty
      · exact .inr (.inr hany)
  unfold Files.entry?
  rw [hfind, hlisted]

/-! ### Paths -/

/-- Names that lead to a `place` which may hold a file still lead there when it does. -/
theorem walk_store (h : fs.Storable place) (text : String) {names start : List String}
    (hwalk : fs.walk start names = .ok place) :
    (fs.store place text).walk start names = .ok place := by
  induction names generalizing start with
  | nil => exact hwalk
  | cons name rest ih =>
    cases hstart : fs.entry? start with
    | none => simp [walk, hstart] at hwalk
    | some e =>
      cases e with
      | file content => simp [walk, hstart] at hwalk
      | directory =>
        have hne : start ≠ place := by
          rintro rfl
          exact h.notDirectory hstart
        rw [walk, hstart] at hwalk
        rw [walk, entry?_store h hne, hstart]
        dsimp only at hwalk ⊢
        split_ifs at hwalk ⊢
        · exact ih hwalk
        · exact ih hwalk
        · exact ih hwalk

theorem place_store (h : fs.Storable place) (text : String) (hp : fs.place p = .ok place) :
    (fs.store place text).place p = .ok place := by
  unfold Files.place follow at hp ⊢
  split_ifs at hp ⊢
  exact walk_store h text hp

theorem read_store (h : fs.Storable place) (text : String) (hp : fs.place p = .ok place) :
    (fs.store place text).read p = .ok text := by
  have htext : String.fromUTF8? text.toUTF8 = some text := by
    simp [String.fromUTF8?, text.isValidUTF8, String.fromUTF8]
  simp only [read, place_store h text hp, bind, Except.bind, entry?_store_self, htext]
  rfl

/-! ### Writing -/

/-- Writing `text` at `p` stores it at the place that `p` leads to. -/
theorem write_eq_ok (h : fs.write p text = .ok fs') :
    ∃ place, fs.place p = .ok place ∧ fs.Storable place ∧ fs' = fs.store place text := by
  unfold write at h
  split at h
  · obtain ⟨_, -, h⟩ := Except.bind_eq_ok.mp h
    cases h
  obtain ⟨place, hplace, h⟩ := Except.bind_eq_ok.mp h
  refine ⟨place, hplace, ?_⟩
  split at h
  · cases h
  · rename_i content hentry
    obtain rfl := Except.pure_eq_ok.mp h
    exact ⟨⟨by simp [hentry], .inl (by simp [hentry])⟩, rfl⟩
  · rename_i hentry
    split at h
    · rename_i hdirectory
      obtain rfl := Except.pure_eq_ok.mp h
      exact ⟨⟨by simp [hentry], .inr (by simp [hdirectory])⟩, rfl⟩
    · cases h
    · cases h

/-- **Writing a file changes that file and nothing else.**  If writing `text` at `p` gives `fs'`,
then `fs.Stores p text fs'`. -/
theorem stores_of_write (h : fs.write p text = .ok fs') : fs.Stores p text fs' := by
  obtain ⟨place, hplace, hstorable, rfl⟩ := write_eq_ok h
  refine ⟨read_store hstorable text hplace, place, hplace, fun other hne => ?_⟩
  exact entry?_store hstorable hne text

end NestedStacks.Files
