/-
What a path means.

A path is its text, and idle names, repeated slashes and a dot in front are only spelling.  What is
left are its moves.  Joining, going up and normal spellings are said here in moves, so that proofs
about files need not look at texts any more.

* `Path.moves` — the names of a path that lead somewhere;
* `Path.moves_join`, `Path.exists_parent`, `Path.moves_ofNames` — the operations on paths in moves;
* `Path.after`, `Path.trail` — where a path leads to, from some steps or from a directory;
* `Path.normal_join`, `Path.normal_normal` — normal spellings are those of trails;
* `Path.HasFileName`, `Path.locate_eq` — paths that can be files, and what is beside them.
-/
import NestedStacks.Path
import Mathlib.Data.List.Basic

namespace NestedStacks

/-! ### Pieces of a text -/

namespace Text

theorem pieces_eq_splitOn (sep : Char) (cs : List Char) : pieces sep cs = cs.splitOn sep := by
  induction cs with
  | nil => rfl
  | cons c r ih =>
    rw [pieces, ih, List.splitOn, List.splitOn, List.splitOnP_cons_eq_if_modifyHead]
    by_cases h : c = sep
    · simp [h]
    · have hsep : (c == sep) = false := by simpa using h
      rw [if_neg h, hsep, if_neg Bool.false_ne_true]
      cases hr : List.splitOnP (· == sep) r with
      | nil => exact absurd hr (List.splitOnP_ne_nil _ _)
      | cons p ps => rfl

theorem pieces_append (sep : Char) (front behind : List Char) :
    pieces sep (front ++ sep :: behind) = pieces sep front ++ pieces sep behind := by
  simp only [pieces_eq_splitOn, List.splitOn]
  exact List.splitOnP_append_cons front behind (by simp)

theorem pieces_intercalate {sep : Char} {names : List (List Char)}
    (h : ∀ name ∈ names, sep ∉ name) (hne : names ≠ []) :
    pieces sep ([sep].intercalate names) = names := by
  rw [pieces_eq_splitOn]
  exact List.splitOn_intercalate sep h hne

theorem not_mem_of_mem_pieces {sep : Char} {cs name : List Char} (h : name ∈ pieces sep cs) :
    sep ∉ name := by
  induction cs generalizing name with
  | nil =>
    obtain rfl : name = [] := by simpa [pieces] using h
    exact List.not_mem_nil
  | cons c r ih =>
    rw [pieces] at h
    by_cases hc : c = sep
    · rw [if_pos hc] at h
      rcases List.mem_cons.mp h with rfl | h
      · exact List.not_mem_nil
      · exact ih h
    · rw [if_neg hc] at h
      cases hr : pieces sep r with
      | nil =>
        rw [hr] at h
        obtain rfl := List.mem_singleton.mp h
        simpa [eq_comm] using hc
      | cons p ps =>
        rw [hr] at h ih
        rcases List.mem_cons.mp h with rfl | h
        · have hp : sep ∉ p := ih (by simp)
          simpa [Ne.symm hc] using hp
        · exact ih (by simp [h])

end Text

namespace Path

/-! ### Moves -/

/-- The names of `p` that lead somewhere. -/
def moves (p : Path) : List (List Char) := p.names.filter fun name => !isIdle name

theorem isIdle_of_mem_moves {p : Path} {name : List Char} (h : name ∈ p.moves) :
    isIdle name = false := by
  simpa using (List.mem_filter.mp h).2

/-- The characters of `p` behind the slash that it starts with, if it starts with one. -/
def body (p : Path) : List Char := if p.isAbsolute then p.text.toList.drop 1 else p.text.toList

theorem names_eq (p : Path) : p.names = Text.pieces '/' p.body := rfl

theorem filter_nil_piece (names : List (List Char)) :
    (names ++ Text.pieces '/' []).filter (fun name => !isIdle name) =
      names.filter fun name => !isIdle name := by
  simp [Text.pieces, isIdle]

theorem join_of_isAbsolute (base : Path) {p : Path} (h : p.isAbsolute = true) :
    base.join p = p := by
  rw [join, if_pos h]

theorem body_append {base : Path} (hne : base.text.toList ≠ []) (s : String) :
    (Path.mk (base.text ++ s)).isAbsolute = base.isAbsolute ∧
      (Path.mk (base.text ++ s)).body = base.body ++ s.toList := by
  obtain ⟨c, cs, hcs⟩ := List.exists_cons_of_ne_nil hne
  have habs : (Path.mk (base.text ++ s)).isAbsolute = base.isAbsolute := by
    simp [isAbsolute, hcs]
  refine ⟨habs, ?_⟩
  rw [body, body, habs]
  split
  · simp [hcs]
  · simp

/-- The characters of `base.join p`: those of `base` and `p`, with a slash in between where there is
none. -/
theorem body_join (base : Path) {p : Path} (h : p.isAbsolute = false) :
    (base.join p).isAbsolute = base.isAbsolute ∧
      ((base.join p).body = base.body ++ p.body ∧
          (base.body = [] ∨ ∃ front, base.body = front ++ ['/']) ∨
        (base.join p).body = base.body ++ '/' :: p.body) := by
  have hp : p.body = p.text.toList := by rw [body, h, if_neg Bool.false_ne_true]
  rw [join, h, if_neg Bool.false_ne_true]
  split
  · rename_i hlast
    have hempty : base.text.toList = [] := List.getLast?_eq_none_iff.mp hlast
    have hrelative : base.isAbsolute = false := by rw [isAbsolute, hempty]; rfl
    have hbody : base.body = [] := by rw [body, hrelative, if_neg Bool.false_ne_true, hempty]
    exact ⟨h.trans hrelative.symm, .inl ⟨by rw [hbody, List.nil_append], .inl hbody⟩⟩
  · rename_i hlast
    obtain ⟨front, hfront⟩ := List.getLast?_eq_some_iff.mp hlast
    have hne : base.text.toList ≠ [] := by simp [hfront]
    obtain ⟨habs, hjoined⟩ := body_append hne p.text
    refine ⟨habs, .inl ⟨by rw [hjoined, hp], ?_⟩⟩
    rw [body, hfront]
    split
    · -- the slash in front may be the one at the end
      cases front with
      | nil => exact .inl rfl
      | cons c front => exact .inr ⟨front, rfl⟩
    · exact .inr ⟨front, rfl⟩
  · rename_i hlast
    have hne : base.text.toList ≠ [] := by
      intro hempty
      rw [hempty] at hlast
      cases hlast
    obtain ⟨habs, hjoined⟩ := body_append hne ("/" ++ p.text)
    rw [String.append_assoc]
    exact ⟨habs, .inr (by rw [hjoined, hp, String.toList_append]; rfl)⟩

theorem isAbsolute_join (base : Path) {p : Path} (h : p.isAbsolute = false) :
    (base.join p).isAbsolute = base.isAbsolute := (body_join base h).1

theorem moves_join (base : Path) {p : Path} (h : p.isAbsolute = false) :
    (base.join p).moves = base.moves ++ p.moves := by
  obtain ⟨-, ⟨hbody, hempty | ⟨front, hfront⟩⟩ | hbody⟩ := body_join base h
  · simp [moves, names_eq, hbody, hempty, Text.pieces, isIdle]
  · have hsplit : front ++ ['/'] ++ p.body = front ++ '/' :: p.body := by simp
    rw [moves, moves, moves, names_eq, names_eq, names_eq, hbody, hfront, hsplit,
      Text.pieces_append, Text.pieces_append, filter_nil_piece, List.filter_append]
  · rw [moves, moves, moves, names_eq, names_eq, names_eq, hbody, Text.pieces_append,
      List.filter_append]

/-! ### Paths of names -/

/-- `Spells absolute names`: a path can be made of `names`.  There is no slash in them, and the
first one is not empty unless the path is absolute. -/
structure Spells (absolute : Bool) (names : List (List Char)) : Prop where
  slash : ∀ name ∈ names, '/' ∉ name
  first : absolute = false → names.head? ≠ some []

theorem isAbsolute_ofNames {absolute : Bool} {names : List (List Char)}
    (h : Spells absolute names) : (ofNames absolute names).isAbsolute = absolute := by
  cases absolute with
  | true => simp [ofNames, isAbsolute]
  | false =>
    have hfirst := h.first rfl
    have hslash := h.slash
    cases names with
    | nil => rfl
    | cons name rest =>
      cases name with
      | nil => exact absurd rfl hfirst
      | cons c cs =>
        have hc : c ≠ '/' := by
          rintro rfl
          exact hslash ('/' :: cs) (by simp) (by simp)
        cases rest <;> simp [ofNames, isAbsolute, List.intercalate, hc]

theorem moves_ofNames {absolute : Bool} {names : List (List Char)} (h : Spells absolute names) :
    (ofNames absolute names).moves = names.filter fun name => !isIdle name := by
  have hbody : (ofNames absolute names).body = List.intercalate ['/'] names := by
    rw [body, isAbsolute_ofNames h]
    cases absolute <;> simp [ofNames]
  rw [moves, names_eq, hbody]
  cases names with
  | nil => rfl
  | cons name rest => rw [Text.pieces_intercalate h.slash (by simp)]

theorem spells_names {p : Path} (hne : p.moves ≠ []) : Spells p.isAbsolute p.names := by
  refine ⟨fun name hname => Text.not_mem_of_mem_pieces hname, fun hrelative hfirst => hne ?_⟩
  -- a relative path that starts with an empty name has no characters
  have hbody : p.body = p.text.toList := by rw [body, hrelative, if_neg Bool.false_ne_true]
  rw [names_eq, hbody] at hfirst
  rw [moves, names_eq, hbody]
  cases hcs : p.text.toList with
  | nil => rfl
  | cons c cs =>
    have hc : c ≠ '/' := by
      rintro rfl
      simp [isAbsolute, hcs] at hrelative
    rw [hcs, Text.pieces, if_neg hc] at hfirst
    split at hfirst <;> simp at hfirst

/-! ### Going up -/

theorem trimNames_suffix (absolute : Bool) (names : List (List Char)) :
    trimNames absolute names <:+ names := by
  fun_induction trimNames absolute names with
  | case1 => exact List.suffix_rfl
  | case2 => exact List.nil_suffix
  | case3 => exact List.suffix_rfl
  | case4 name rest _ _ ih => exact ih.trans (List.suffix_cons _ _)
  | case5 => exact List.suffix_rfl

theorem filter_trimNames (absolute : Bool) (names : List (List Char)) :
    (trimNames absolute names).filter (fun name => !isIdle name) =
      names.filter fun name => !isIdle name := by
  fun_induction trimNames absolute names with
  | case1 => rfl
  | case2 name h =>
    have hidle : isIdle name = true := by
      simp only [Bool.or_eq_true, Bool.and_eq_true] at h
      rcases h with h | ⟨-, h⟩ <;> simp [isIdle, h]
    rw [List.filter_cons_of_neg (by simp [hidle])]
  | case3 => rfl
  | case4 name rest _ hidle ih => rw [ih, List.filter_cons_of_neg (by simp [hidle])]
  | case5 => rfl

/-- What is left of some names starts with a `name` that leads somewhere, or is that `name` only. -/
theorem head_trimNames {absolute : Bool} {names rest : List (List Char)} {name : List Char}
    (h : trimNames absolute names = name :: rest) : isIdle name = false ∨ rest = [] := by
  fun_induction trimNames absolute names with
  | case1 => cases h
  | case2 => cases h
  | case3 => exact .inr (List.cons.inj h).2.symm
  | case4 _ _ _ _ ih => exact ih h
  | case5 _ _ _ hidle =>
    obtain ⟨rfl, -⟩ := List.cons.inj h
    exact .inl (by simpa using hidle)

/-- Some of the `names` in front spell a path as all of them do. -/
theorem Spells.of_prefix {absolute : Bool} {front names : List (List Char)}
    (h : Spells absolute names) (hfront : front <+: names) : Spells absolute front := by
  refine ⟨fun name hname => h.slash name (hfront.subset hname), fun hrelative hfirst => ?_⟩
  refine h.first hrelative ?_
  obtain ⟨behind, rfl⟩ := hfront
  cases front with
  | nil => cases hfirst
  | cons name front => exact hfirst

/-- The parent of `p` makes all moves of `p` but the last one. -/
theorem exists_parent {p : Path} {front : List (List Char)} {name : List Char}
    (h : p.moves = front ++ [name]) :
    ∃ dir, p.parent? = some dir ∧ dir.moves = front ∧ dir.isAbsolute = p.isAbsolute := by
  have hspells : Spells p.isAbsolute p.names := spells_names (by simp [h])
  have hreverse : (trimNames p.isAbsolute p.names.reverse).filter (fun name => !isIdle name) =
      name :: front.reverse := by
    rw [filter_trimNames, List.filter_reverse]
    show p.moves.reverse = _
    rw [h, List.reverse_append]
    rfl
  rw [parent?]
  cases htrim : trimNames p.isAbsolute p.names.reverse with
  | nil =>
    rw [htrim] at hreverse
    cases hreverse
  | cons last rest =>
    rw [htrim] at hreverse
    have hrest : rest.filter (fun name => !isIdle name) = front.reverse := by
      rcases head_trimNames htrim with hlast | rfl
      · rw [List.filter_cons_of_pos (by simp [hlast])] at hreverse
        exact (List.cons.inj hreverse).2
      · -- then there is one name only, and it leads somewhere
        cases hidle : isIdle last with
        | true => simp [hidle] at hreverse
        | false =>
          simp only [hidle, List.filter_cons, Bool.not_false, if_true, List.filter_nil,
            List.cons.injEq] at hreverse
          exact hreverse.2
    have hsuffix : trimNames p.isAbsolute rest <:+ p.names.reverse :=
      (trimNames_suffix _ rest).trans
        ((List.suffix_cons last rest).trans (htrim ▸ trimNames_suffix _ _))
    have hprefix : (trimNames p.isAbsolute rest).reverse <+: p.names := by
      rw [← List.reverse_reverse p.names]
      exact List.reverse_prefix.mpr hsuffix
    have hdir := hspells.of_prefix hprefix
    refine ⟨_, rfl, ?_, isAbsolute_ofNames hdir⟩
    rw [moves_ofNames hdir, List.filter_reverse, filter_trimNames, hrest, List.reverse_reverse]

/-! ### Trails -/

/-- `p.after steps`: the names from where `p` leads up to the root, if it starts at the directory
with the names `steps`. -/
def after (p : Path) (steps : List (List Char)) : List (List Char) :=
  p.moves.foldl step (if p.isAbsolute then [] else steps)

/-- `directory.trail p`: the names from where `p` leads from `directory` up to the root. -/
def trail (directory p : Path) : List (List Char) := p.after (directory.after [])

theorem after_of_isAbsolute {p : Path} (h : p.isAbsolute = true) (steps : List (List Char)) :
    p.after steps = p.after [] := by
  simp [after, h]

/-- The path `base.join p` leads where `p` leads from the end of `base`. -/
theorem after_join (base p : Path) (steps : List (List Char)) :
    (base.join p).after steps = p.after (base.after steps) := by
  cases h : p.isAbsolute with
  | true =>
    rw [join_of_isAbsolute base h, after_of_isAbsolute h, after_of_isAbsolute h (base.after steps)]
  | false =>
    simp only [after, isAbsolute_join base h, moves_join base h, h, List.foldl_append,
      Bool.false_eq_true, if_false]

theorem trail_join (directory base p : Path) :
    directory.trail (base.join p) = p.after (directory.trail base) := after_join _ _ _

theorem foldl_step_filter (names steps : List (List Char)) :
    (names.filter fun name => !isIdle name).foldl step steps = names.foldl step steps := by
  induction names generalizing steps with
  | nil => rfl
  | cons name rest ih =>
    cases h : isIdle name with
    | true =>
      have hstep : step steps name = steps := by rw [step, h, if_pos rfl]
      rw [List.filter_cons_of_neg (by simp [h]), ih, List.foldl_cons, hstep]
    | false => rw [List.filter_cons_of_pos (by simp [h]), List.foldl_cons, List.foldl_cons, ih]

theorem normalNames_eq (p : Path) : p.normalNames = (p.after []).reverse := by
  rw [normalNames, ← foldl_step_filter, after, ite_self]
  rfl

/-- The normal spelling of `p` in `directory` is the one of its trail. -/
theorem normal_join (directory p : Path) :
    (directory.join p).normal = ofNames true (directory.trail p).reverse := by
  rw [normal, normalNames_eq]
  cases h : p.isAbsolute with
  | true =>
    rw [join_of_isAbsolute directory h, trail, after_of_isAbsolute h (directory.after [])]
  | false =>
    simp only [trail, after, moves_join directory h, h, List.foldl_append, ite_self,
      Bool.false_eq_true, if_false]

/-! ### Names without spelling -/

/-- `Clean names`: each of `names` leads down by one step. -/
def Clean (names : List (List Char)) : Prop :=
  ∀ name ∈ names, isIdle name = false ∧ name ≠ ['.', '.'] ∧ '/' ∉ name

theorem clean_nil : Clean [] := fun _ h => absurd h List.not_mem_nil

theorem step_eq_cons {name : List Char} (hidle : isIdle name = false) (hup : name ≠ ['.', '.'])
    (steps : List (List Char)) : step steps name = name :: steps := by
  have hback : (name == ['.', '.']) = false := by simpa using hup
  rw [step, hidle, hback, if_neg Bool.false_ne_true, if_neg Bool.false_ne_true]

theorem step_up (steps : List (List Char)) : step steps ['.', '.'] = steps.drop 1 := rfl

theorem Clean.foldl_step {names steps : List (List Char)} (hsteps : Clean steps)
    (hnames : ∀ name ∈ names, '/' ∉ name) : Clean (names.foldl step steps) := by
  induction names generalizing steps with
  | nil => exact hsteps
  | cons name rest ih =>
    refine ih ?_ fun other hother => hnames other (by simp [hother])
    rw [step]
    split
    · exact hsteps
    · rename_i hidle
      split
      · intro other hother
        exact hsteps other (List.mem_of_mem_drop hother)
      · rename_i hup
        intro other hother
        rcases List.mem_cons.mp hother with rfl | hother
        · exact ⟨by simpa using hidle, by simpa using hup, hnames _ (by simp)⟩
        · exact hsteps other hother

theorem clean_after (p : Path) {steps : List (List Char)} (h : Clean steps) :
    Clean (p.after steps) := by
  have hslash : ∀ name ∈ p.moves, '/' ∉ name := by
    intro name hname
    exact Text.not_mem_of_mem_pieces (List.mem_of_mem_filter hname)
  unfold after
  split
  · exact clean_nil.foldl_step hslash
  · exact h.foldl_step hslash

theorem clean_trail (directory p : Path) : Clean (directory.trail p) :=
  clean_after p (clean_after directory clean_nil)

theorem moves_of_clean {names : List (List Char)} (h : Clean names) :
    (ofNames true names).moves = names ∧ (ofNames true names).isAbsolute = true := by
  have hspells : Spells true names := ⟨fun name hname => (h name hname).2.2, by simp⟩
  refine ⟨?_, isAbsolute_ofNames hspells⟩
  rw [moves_ofNames hspells, List.filter_eq_self]
  intro name hname
  simp [(h name hname).1]

theorem Clean.reverse {names : List (List Char)} (h : Clean names) : Clean names.reverse :=
  fun name hname => h name (List.mem_reverse.mp hname)

theorem Clean.tail {names : List (List Char)} (h : Clean names) : Clean names.tail :=
  fun name hname => h name (List.mem_of_mem_tail hname)

/-- Clean `names` have one spelling: `ofNames true` is injective on them. -/
theorem eq_of_ofNames_eq {names names' : List (List Char)} (h : Clean names) (h' : Clean names')
    (heq : ofNames true names = ofNames true names') : names = names' := by
  rw [← (moves_of_clean h).1, heq, (moves_of_clean h').1]

/-- Following clean `names` leads to where they say. -/
theorem after_of_clean {names : List (List Char)} (h : Clean names) (steps : List (List Char)) :
    (ofNames true names).after steps = names.reverse := by
  have hfold : ∀ steps, names.foldl step steps = names.reverse ++ steps := by
    intro steps
    induction names generalizing steps with
    | nil => rfl
    | cons name rest ih =>
      obtain ⟨hidle, hup, -⟩ := h name (by simp)
      have hrest : Clean rest := fun other hother => h other (by simp [hother])
      rw [List.foldl_cons, step_eq_cons hidle hup, ih hrest]
      simp
  rw [after, (moves_of_clean h).1, (moves_of_clean h).2, if_pos rfl, hfold, List.append_nil]

theorem normalNames_normal (p : Path) : p.normal.normalNames = p.normalNames := by
  have hclean := (clean_after p clean_nil).reverse
  rw [normal, normalNames_eq, normalNames_eq, after_of_clean hclean, List.reverse_reverse]

/-- The normal spelling of `p` is the normal one of itself. -/
theorem normal_normal (p : Path) : p.normal.normal = p.normal := by
  rw [normal, normalNames_normal, normal]

/-! ### Files -/

/-- `p.HasFileName`: the last move of `p` goes down, to the name of a file. -/
def HasFileName (p : Path) : Prop := ∃ front name, p.moves = front ++ [name] ∧ name ≠ ['.', '.']

/-- A file `p` is one step `name` below its parent `dir`. -/
theorem HasFileName.exists_parent {p : Path} (h : p.HasFileName) :
    ∃ dir name, p.parent? = some dir ∧ dir.isAbsolute = p.isAbsolute ∧ dir.moves <+: p.moves ∧
      ∀ directory, trail directory p = name :: trail directory dir := by
  obtain ⟨front, name, hmoves, hup⟩ := h
  obtain ⟨dir, hparent, hdir, habs⟩ := Path.exists_parent hmoves
  have hidle : isIdle name = false := isIdle_of_mem_moves (p := p) (by simp [hmoves])
  refine ⟨dir, name, hparent, habs, ⟨[name], by rw [hdir, hmoves]⟩, fun directory => ?_⟩
  simp only [trail, after, hmoves, hdir, habs, List.foldl_append, List.foldl_cons, List.foldl_nil,
    step_eq_cons hidle hup]

/-- A `location` beside the file `master` leads on from the directory of `master`, however this is
spelled. -/
theorem locate_eq {master : Path} (h : master.HasFileName) (directory : Path) (location : String) :
    locate directory master location =
      ofNames true ((Path.mk location).after (directory.trail master).tail).reverse := by
  obtain ⟨dir, name, hparent, -, -, htrail⟩ := h.exists_parent
  rw [locate, hparent, normal_join, trail_join, htrail]
  rfl

end Path

end NestedStacks
