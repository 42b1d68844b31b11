/-
Where the location of a nested template leads.

A location is looked for beside the template that it stands in, and the path that comes out is in
its normal spelling.  So it is the same however the way to it is spelled, and a location inside the
template that was found means what it would mean from further out: `locations_canonical`.

* `Path.Canonical` — absolute paths all of whose names lead down;
* `Path.hasFileName_location`, `Path.moves_templateName` — locations of templates end in the name of
  a file;
* `Path.locate_canonical`, `Path.locate_directory`, `Path.locate_locate` — what comes out.
-/
import NestedStacks.Proofs.Locating.Moves
import NestedStacks.Proofs.Renaming.Locations

namespace NestedStacks

/-- Characters `cs` without `sep` are one piece. -/
theorem Text.pieces_of_not_mem {sep : Char} {cs : List Char} (h : sep ∉ cs) :
    pieces sep cs = [cs] := by
  have hpieces : pieces sep ([sep].intercalate [cs]) = [cs] :=
    pieces_intercalate (by simpa using h) (by simp)
  simpa using hpieces

/-- The last piece of `cs` goes on with `tail`, if there is no `sep` in it. -/
theorem Text.pieces_append_of_not_mem {sep : Char} {tail : List Char} (h : sep ∉ tail)
    (cs : List Char) :
    ∃ front last, pieces sep cs = front ++ [last] ∧
      pieces sep (cs ++ tail) = front ++ [last ++ tail] := by
  induction cs with
  | nil => exact ⟨[], [], rfl, pieces_of_not_mem h⟩
  | cons c r ih =>
    obtain ⟨front, last, hr, happ⟩ := ih
    by_cases hc : c = sep
    · exact ⟨[] :: front, last, by simp [pieces, hc, hr], by simp [pieces, hc, happ]⟩
    · cases front with
      | nil => exact ⟨[], c :: last, by simp [pieces, hc, hr], by simp [pieces, hc, happ]⟩
      | cons p ps =>
        exact ⟨(c :: p) :: ps, last, by simp [pieces, hc, hr], by simp [pieces, hc, happ]⟩

namespace Path

/-- `p.Canonical`: `p` is absolute, and no name in it is empty, `.` or `..`. -/
structure Canonical (p : Path) : Prop where
  absolute : p.isAbsolute = true
  names : ∀ name ∈ p.names, name ≠ [] ∧ name ≠ ['.'] ∧ name ≠ ['.', '.']

/-! ### Locations of templates -/

/-- A `name` of three characters or more leads down. -/
theorem leads_down {name : List Char} (h : 3 ≤ name.length) :
    isIdle name = false ∧ name ≠ ['.', '.'] := by
  match name, h with
  | _ :: _ :: _ :: _, _ => exact ⟨by simp [isIdle], by simp⟩

theorem length_templateName {name : String} (h : Resource.isTemplateLocation name = true) :
    3 ≤ name.toList.length :=
  Nat.le_trans (by decide) (Resource.isTemplateLocation_iff.mp h).length_le

/-- The `location` of a template ends in the name of a file. -/
theorem hasFileName_location {location : String}
    (h : Resource.isTemplateLocation location = true) : (Path.mk location).HasFileName := by
  obtain ⟨cs, hcs⟩ := Resource.isTemplateLocation_iff.mp h
  -- the slash of an absolute location is not part of its ending
  have hbody : ∃ cs', (Path.mk location).body = cs' ++ '.' :: ['y', 'a', 'm', 'l'] := by
    rw [body, ← hcs]
    split
    · cases cs with
      | nil => simp [isAbsolute, ← hcs] at *
      | cons c cs => exact ⟨cs, rfl⟩
    · exact ⟨cs, rfl⟩
  obtain ⟨cs', hbody⟩ := hbody
  have hslash : '/' ∉ '.' :: ['y', 'a', 'm', 'l'] := by decide
  obtain ⟨front, last, -, hpieces⟩ := Text.pieces_append_of_not_mem hslash cs'
  have hlength : 3 ≤ (last ++ '.' :: ['y', 'a', 'm', 'l']).length := by simp
  obtain ⟨hidle, hup⟩ := leads_down hlength
  refine ⟨front.filter fun name => !isIdle name, last ++ '.' :: ['y', 'a', 'm', 'l'], ?_, hup⟩
  rw [moves, names_eq, hbody, hpieces, List.filter_append,
    List.filter_cons_of_pos (by simp [hidle]), List.filter_nil]

/-- The `name` of a template is one move. -/
theorem moves_templateName {name : String} (h : Resource.isTemplateLocation name = true)
    (hslash : '/' ∉ name.toList) :
    (Path.mk name).moves = [name.toList] ∧ (Path.mk name).isAbsolute = false := by
  have hrelative : (Path.mk name).isAbsolute = false := by
    cases hcs : name.toList with
    | nil => simp [isAbsolute, hcs]
    | cons c cs =>
      have hc : c ≠ '/' := by
        rintro rfl
        simp [hcs] at hslash
      simp [isAbsolute, hcs, hc]
  refine ⟨?_, hrelative⟩
  rw [moves, names_eq, body, hrelative, if_neg Bool.false_ne_true, Text.pieces_of_not_mem hslash,
    List.filter_cons_of_pos (by simp [(leads_down (length_templateName h)).1]), List.filter_nil]

/-- If `front` is empty or ends in a slash, a relative path is joined to it as it is. -/
theorem join_of_slash {front text : String} (hfront : front = "" ∨ ∃ d, front = d ++ "/")
    (h : (Path.mk text).isAbsolute = false) : (Path.mk front).join ⟨text⟩ = ⟨front ++ text⟩ := by
  rw [join, h, if_neg Bool.false_ne_true]
  rcases hfront with rfl | ⟨d, rfl⟩
  · simp
  · simp

/-! ### What comes out -/

/-- Clean `names` are spelled without anything superfluous, unless there are none. -/
theorem canonical_ofNames {names : List (List Char)} (h : Clean names) (hne : names ≠ []) :
    (ofNames true names).Canonical := by
  have habs := (moves_of_clean h).2
  refine ⟨habs, fun name hname => ?_⟩
  have hbody : (ofNames true names).body = List.intercalate ['/'] names := by
    rw [body, habs]
    simp [ofNames]
  rw [names_eq, hbody, Text.pieces_intercalate (fun name hname => (h name hname).2.2) hne] at hname
  obtain ⟨hidle, hup, -⟩ := h name hname
  rw [isIdle, Bool.or_eq_false_iff] at hidle
  exact ⟨by simpa using hidle.1, by simpa using hidle.2, hup⟩

variable {directory master : Path} {location : String}

/-- What is brought to its normal spelling is `location` in the directory `dir` of `master`, and it
starts at the root. -/
theorem locate_eq_normal (hmaster : master.HasFileName)
    (hroot : master.isAbsolute = true ∨ directory.isAbsolute = true) (location : String) :
    ∃ dir, master.parent? = some dir ∧
      (directory.join (dir.join ⟨location⟩)).isAbsolute = true ∧
      locate directory master location = (directory.join (dir.join ⟨location⟩)).normal := by
  obtain ⟨dir, -, hparent, hdir, -⟩ := hmaster.exists_parent
  refine ⟨dir, hparent, ?_, by rw [locate, hparent]⟩
  cases hjoined : (dir.join ⟨location⟩).isAbsolute with
  | true => rw [join_of_isAbsolute _ hjoined, hjoined]
  | false =>
    rw [isAbsolute_join _ hjoined]
    refine hroot.resolve_left fun habs => ?_
    -- beside an absolute path there are only absolute ones
    have hlocation : (Path.mk location).isAbsolute = false := by
      by_contra habsolute
      rw [Bool.not_eq_false] at habsolute
      rw [join_of_isAbsolute _ habsolute, habsolute] at hjoined
      cases hjoined
    rw [isAbsolute_join _ hlocation, hdir, habs] at hjoined
    cases hjoined

/-- The `location` of a template leads to a canonical path. -/
theorem locate_canonical (hmaster : master.HasFileName)
    (hlocation : Resource.isTemplateLocation location = true) :
    (locate directory master location).Canonical := by
  obtain ⟨front, name, hmoves, hup⟩ := hasFileName_location hlocation
  have hidle : isIdle name = false := isIdle_of_mem_moves (p := ⟨location⟩) (by simp [hmoves])
  have hclean := clean_after ⟨location⟩ (clean_trail directory master).tail
  rw [locate_eq hmaster]
  refine canonical_ofNames hclean.reverse ?_
  rw [after, hmoves, List.foldl_append, List.foldl_cons, List.foldl_nil, step_eq_cons hidle hup]
  simp

/-- The working directory matters only where `master` and `location` are both relative. -/
theorem locate_directory (hmaster : master.HasFileName)
    (h : master.isAbsolute = true ∨ (Path.mk location).isAbsolute = true) (directory' : Path) :
    locate directory' master location = locate directory master location := by
  rw [locate_eq hmaster, locate_eq hmaster]
  rcases h with h | h
  · rw [trail, trail, after_of_isAbsolute h, after_of_isAbsolute h (directory.after [])]
  · rw [after_of_isAbsolute h, after_of_isAbsolute h (directory.trail master).tail]

/-- What is `beside` the template at `front ++ name` is found from further out too, as
`front ++ beside`. -/
theorem locate_locate (hmaster : master.HasFileName) {front name beside : String}
    (hfront : front = "" ∨ ∃ d, front = d ++ "/")
    (hname : Resource.isTemplateLocation name = true) (hslash : '/' ∉ name.toList)
    (hbeside : (Path.mk beside).isAbsolute = false) (directory' : Path) :
    locate directory' (locate directory master (front ++ name)) beside =
      locate directory master (front ++ beside) := by
  obtain ⟨hmoves, hrelative⟩ := moves_templateName hname hslash
  -- where the directory in front leads, in reverse
  let steps := (Path.mk front).after (directory.trail master).tail
  obtain ⟨hidle, hup⟩ := leads_down (length_templateName hname)
  have hinner : locate directory master (front ++ name) =
      ofNames true (name.toList :: steps).reverse := by
    rw [locate_eq hmaster, ← join_of_slash hfront hrelative, after_join, after, hmoves, hrelative,
      if_neg Bool.false_ne_true, List.foldl_cons, List.foldl_nil, step_eq_cons hidle hup]
  have hclean : Clean (name.toList :: steps) := by
    intro other hother
    rcases List.mem_cons.mp hother with rfl | hother
    · exact ⟨hidle, hup, hslash⟩
    · exact clean_after _ (clean_trail directory master).tail other hother
  have hfile : (ofNames true (name.toList :: steps).reverse).HasFileName :=
    ⟨steps.reverse, name.toList, by rw [(moves_of_clean hclean.reverse).1, List.reverse_cons], hup⟩
  rw [hinner, locate_eq hfile, trail, after_of_clean hclean.reverse, List.reverse_reverse,
    List.tail_cons, locate_eq hmaster, ← join_of_slash hfront hbeside, after_join]

end Path

/-- **Locations are canonical, and they compose.**  Let `master` be the path of a file, and let it
or `directory` be absolute.  The `location` of another template inside `master` is joined to the
directory `dir` of `master`, and `Path.locate directory master location` is the normal spelling of
that.  It is canonical and its own normal spelling, and it does not depend on `directory` if
`master` or `location` is absolute.  And for two locations `front ++ name` and `front ++ beside`
with one directory `front`, the second one is found from the template that the first one leads to,
as `beside`. -/
theorem locations_canonical {directory master : Path} (hmaster : master.HasFileName)
    (hroot : master.isAbsolute = true ∨ directory.isAbsolute = true) :
    (∀ location, Resource.isTemplateLocation location = true →
      (∃ dir, master.parent? = some dir ∧
          (directory.join (dir.join ⟨location⟩)).isAbsolute = true ∧
          Path.locate directory master location =
            (directory.join (dir.join ⟨location⟩)).normal) ∧
        (Path.locate directory master location).Canonical ∧
        (Path.locate directory master location).normal = Path.locate directory master location ∧
        (master.isAbsolute = true ∨ (Path.mk location).isAbsolute = true →
          ∀ directory', Path.locate directory' master location =
            Path.locate directory master location)) ∧
      ∀ front name beside : String, (front = "" ∨ ∃ d, front = d ++ "/") →
        Resource.isTemplateLocation name = true → '/' ∉ name.toList →
        (Path.mk beside).isAbsolute = false →
        ∀ directory', Path.locate directory' (Path.locate directory master (front ++ name)) beside =
          Path.locate directory master (front ++ beside) := by
  refine ⟨fun location hlocation => ?_, fun front name beside hfront hname hslash hbeside => ?_⟩
  · have hnormal := Path.locate_eq_normal hmaster hroot location
    refine ⟨hnormal, Path.locate_canonical hmaster hlocation, ?_, Path.locate_directory hmaster⟩
    obtain ⟨dir, -, -, hlocate⟩ := hnormal
    rw [hlocate, Path.normal_normal]
  · exact Path.locate_locate hmaster hfront hname hslash hbeside

/-- A location that goes up and down again, and one beside the template that it leads to. -/
theorem locations_canonical_shared :
    (Path.mk "stacks/root.yaml").HasFileName ∧ (Path.mk "/work").isAbsolute = true ∧
      (Path.locate ⟨"/work"⟩ ⟨"stacks/root.yaml"⟩ "../shared/./db.yaml").Canonical ∧
      Path.locate ⟨"/work"⟩ ⟨"stacks/root.yaml"⟩ "../shared/./db.yaml" =
        ⟨"/work/shared/db.yaml"⟩ ∧
      Path.locate ⟨"/"⟩ (Path.locate ⟨"/work"⟩ ⟨"stacks/root.yaml"⟩ "../shared/./db.yaml")
        "../../net//vpc.yaml" = ⟨"/net/vpc.yaml"⟩ := by
  have hmaster : (Path.mk "stacks/root.yaml").HasFileName :=
    ⟨["stacks".toList], "root.yaml".toList, by decide +kernel, by decide⟩
  have hdirectory : (Path.mk "/work").isAbsolute = true := by decide
  obtain ⟨hlocations, hcompose⟩ := locations_canonical hmaster (.inr hdirectory)
  obtain ⟨-, hcanonical, -, -⟩ := hlocations "../shared/./db.yaml" (by decide +kernel)
  have hinner := hcompose "../shared/./" "db.yaml" "../../net//vpc.yaml" (.inr ⟨"../shared/.", rfl⟩)
    (by decide +kernel) (by decide) (by decide) ⟨"/"⟩
  exact ⟨hmaster, hdirectory, hcanonical, by decide +kernel, hinner.trans (by decide +kernel)⟩

end NestedStacks
