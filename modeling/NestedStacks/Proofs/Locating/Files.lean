/-
Files that are found under any spelling of their paths.

Where no links lead elsewhere, the normal spelling of an absolute path decides which file it is.  In
such a world reading a path is looking up its place, and the scope of a file is the directory that
the file lies in.

* `World.Lexical`, `World.FilesApart`, `World.RootApart` — what is known of the files;
* `World.place`, `World.trail`, `World.read_eq` — where a path leads;
* `Scope.ofFile_base`, `World.trail_resolve` — scopes;
* `World.not_file_of_ofFile` — the directory that a file lies in is no file;
* `World.ofTexts` — such worlds, given by a list of files.
-/
import NestedStacks.Load.Scope
import NestedStacks.Run.Basic
import NestedStacks.Proofs.Locating.Moves

namespace NestedStacks

/-- `w.Lexical`: the working directory of `w` is absolute, and the file at an absolute path `p` is
found at `p.normal` too. -/
structure World.Lexical (w : World) : Prop where
  absolute : w.workingDirectory.isAbsolute = true
  lookup_normal : ∀ p : Path, p.isAbsolute = true → w.lookup p.normal = w.lookup p

/-- `w.FilesApart`: no file of `w` lies inside another one, that is, the names of no file start with
those of another. -/
def World.FilesApart (w : World) : Prop :=
  ∀ (p q : Path) (text text' : String), w.lookup p.normal = .ok text →
    w.lookup q.normal = .ok text' → p.normalNames <+: q.normalNames → p.normalNames = q.normalNames

/-- `w.RootApart`: the root directory of `w` is no file. -/
def World.RootApart (w : World) : Prop := ∀ text, w.lookup (.ofNames true []) ≠ .ok text

/-- `w.place p`: where `p` leads in `w`, as a normal path. -/
def World.place (w : World) (p : Path) : Path := (w.workingDirectory.join p).normal

/-- `w.trail p`: the names from the place of `p` in `w` up to the root. -/
def World.trail (w : World) (p : Path) : List (List Char) := w.workingDirectory.trail p

namespace Path

theorem moves_of_text_eq_empty {p : Path} (h : p.text = "") : p.moves = [] := by
  obtain ⟨text⟩ := p
  subst h
  rfl

theorem HasFileName.text_ne {p : Path} (h : p.HasFileName) : p.text ≠ "" := by
  obtain ⟨front, name, hmoves, -⟩ := h
  intro htext
  rw [Path.moves_of_text_eq_empty htext] at hmoves
  exact List.append_ne_nil_of_right_ne_nil front (List.cons_ne_nil name []) hmoves.symm

theorem text_join_ne (base : Path) {p : Path} (h : p.text ≠ "") : (base.join p).text ≠ "" := by
  rw [join]
  split
  · exact h
  · split
    · exact h
    · simp [h]
    · simp [h]

end Path

namespace World

variable {w : World} {p q : Path}

theorem place_eq (w : World) (p : Path) : w.place p = .ofNames true (w.trail p).reverse :=
  Path.normal_join _ _

theorem normalNames_join (w : World) (p : Path) :
    (w.workingDirectory.join p).normalNames = (w.trail p).reverse := by
  have hplace := w.place_eq p
  rw [place, Path.normal] at hplace
  refine Path.eq_of_ofNames_eq ?_ (Path.clean_trail _ p).reverse hplace
  rw [Path.normalNames_eq]
  exact (Path.clean_after _ Path.clean_nil).reverse

/-- If `p` in `w` and `p'` in `w'` have one place, the names on the way there are the same. -/
theorem trail_eq_of_place_eq {w' : World} {p' : Path} (h : w.place p = w'.place p') :
    w.trail p = w'.trail p' := by
  rw [place_eq, place_eq] at h
  exact List.reverse_injective (Path.eq_of_ofNames_eq (Path.clean_trail _ p).reverse
    (Path.clean_trail _ p').reverse h)

theorem isAbsolute_join (hw : w.Lexical) (p : Path) :
    (w.workingDirectory.join p).isAbsolute = true := by
  cases h : p.isAbsolute with
  | true => rw [Path.join_of_isAbsolute _ h, h]
  | false => rw [Path.isAbsolute_join _ h, hw.absolute]

/-- Reading `p` is looking up its place. -/
theorem read_eq (hw : w.Lexical) (hp : p.text ≠ "") : w.read p = w.lookup (w.place p) := by
  rw [read, if_neg hp, place, hw.lookup_normal _ (isAbsolute_join hw p)]

theorem text_ne_of_read {text : String} (h : w.read p = .ok text) : p.text ≠ "" := by
  intro hempty
  rw [read, if_pos hempty] at h
  cases h

theorem lookup_of_read (hw : w.Lexical) {text : String} (h : w.read p = .ok text) :
    w.lookup (w.place p) = .ok text := by
  rw [← read_eq hw (text_ne_of_read h), h]

end World

/-! ### Scopes -/

section

variable {w : World} {p : Path} {front : List (List Char)} {name : List Char}

/-- The scope of the file at `p` makes all moves of `p` but the last one, `name`. -/
theorem Scope.ofFile_base (h : p.moves = front ++ [name]) :
    (Scope.ofFile p).base.moves = front ∧ (Scope.ofFile p).base.isAbsolute = p.isAbsolute := by
  obtain ⟨dir, hparent, hdir, habs⟩ := Path.exists_parent h
  rw [Scope.ofFile, hparent]
  by_cases htext : dir.text = ""
  · -- the working directory is spelled with a dot
    have hfront : front = [] := by rw [← hdir, Path.moves_of_text_eq_empty htext]
    have hrelative : p.isAbsolute = false := by rw [← habs, Path.isAbsolute, htext]; rfl
    simp only [htext, if_true, hfront, hrelative]
    exact ⟨rfl, rfl⟩
  · simp only [htext, if_false]
    exact ⟨hdir, habs⟩

namespace World

/-- The path `p` leads by `name` from its scope. -/
theorem trail_eq_step (h : p.moves = front ++ [name]) :
    w.trail p = Path.step (w.trail (Scope.ofFile p).base) name := by
  obtain ⟨hmoves, habs⟩ := Scope.ofFile_base h
  simp only [trail, Path.trail, Path.after, hmoves, habs, h, List.foldl_append, List.foldl_cons,
    List.foldl_nil]

theorem trail_eq_cons (hmoves : p.moves = front ++ [name]) (hup : name ≠ ['.', '.']) :
    w.trail p = name :: w.trail (Scope.ofFile p).base := by
  have hidle : Path.isIdle name = false := Path.isIdle_of_mem_moves (p := p) (by simp [hmoves])
  rw [trail_eq_step hmoves, Path.step_eq_cons hidle hup]

theorem trail_resolve (w : World) (s : Scope) (argument : String) :
    w.trail (s.resolve argument) = (Path.mk argument).after (w.trail s.base) :=
  Path.trail_join _ _ _

/-- Of the places of two files `p` and `q` none is on the way to the other. -/
theorem FilesApart.eq_of_suffix (hapart : w.FilesApart) {q : Path} {text text' : String}
    (hp : w.lookup (w.place p) = .ok text) (hq : w.lookup (w.place q) = .ok text')
    (h : w.trail p <:+ w.trail q) : w.trail p = w.trail q := by
  have hnames := hapart _ _ text text' hp hq
  rw [normalNames_join, normalNames_join] at hnames
  exact List.reverse_injective (hnames (List.reverse_prefix.mpr h))

/-- The directory that the file at `p` lies in is no file. -/
theorem not_file_of_ofFile (hw : w.Lexical) (hapart : w.FilesApart) (hroot : w.RootApart)
    (h : p.moves = front ++ [name]) {text : String} (hread : w.read p = .ok text) (text' : String) :
    w.lookup (w.place (Scope.ofFile p).base) ≠ .ok text' := by
  intro hbase
  have hp := lookup_of_read hw hread
  by_cases hup : name = ['.', '.']
  · -- then the directory lies inside the file, unless there was no way back
    have htrail : w.trail p = (w.trail (Scope.ofFile p).base).drop 1 := by
      rw [trail_eq_step h, hup, Path.step_up]
    cases hsteps : w.trail (Scope.ofFile p).base with
    | nil =>
      rw [hsteps] at htrail
      rw [place_eq, htrail] at hp
      exact hroot text hp
    | cons step rest =>
      rw [hsteps] at htrail
      have hsuffix : w.trail p <:+ w.trail (Scope.ofFile p).base := by
        rw [htrail, hsteps]
        exact List.suffix_cons step rest
      have heq := hapart.eq_of_suffix hp hbase hsuffix
      rw [htrail, hsteps] at heq
      exact List.cons_ne_self step rest heq.symm
  · have htrail := trail_eq_cons (w := w) h hup
    have hsuffix : w.trail (Scope.ofFile p).base <:+ w.trail p := by
      rw [htrail]
      exact List.suffix_cons name _
    have heq := hapart.eq_of_suffix hbase hp hsuffix
    rw [htrail] at heq
    exact List.cons_ne_self name _ heq.symm

/-- If a file at `p` has a name, the root is no file. -/
theorem rootApart_of_read (hw : w.Lexical) (hapart : w.FilesApart) (hp : p.HasFileName)
    {text : String} (hread : w.read p = .ok text) : w.RootApart := by
  intro text' hlookup
  have hslash : w.trail ⟨"/"⟩ = [] := rfl
  have hplace : w.lookup (w.place ⟨"/"⟩) = .ok text' := by
    rw [place_eq, hslash]
    exact hlookup
  have hsuffix : w.trail ⟨"/"⟩ <:+ w.trail p := by
    rw [hslash]
    exact List.nil_suffix
  have heq := hapart.eq_of_suffix hplace (lookup_of_read hw hread) hsuffix
  obtain ⟨front, name, hmoves, hup⟩ := hp
  rw [hslash, trail_eq_cons hmoves hup] at heq
  exact List.cons_ne_nil name _ heq.symm

/-- If a file is read at the path of clean `names`, that path has a name. -/
theorem hasFileName_of_read (hw : w.Lexical) (hroot : w.RootApart) {names : List (List Char)}
    (hclean : Path.Clean names) {text : String} (hread : w.read (.ofNames true names) = .ok text) :
    (Path.ofNames true names).HasFileName := by
  obtain ⟨hmoves, habs⟩ := Path.moves_of_clean hclean
  rcases List.eq_nil_or_concat names with rfl | ⟨front, name, rfl⟩
  · have hlookup := lookup_of_read hw hread
    rw [place_eq, trail, Path.trail, Path.after, hmoves, habs] at hlookup
    exact absurd hlookup (hroot text)
  · rw [List.concat_eq_append] at hmoves hclean ⊢
    have hname := hclean name (by simp)
    exact ⟨front, name, hmoves, hname.2.1⟩

end World

end

/-- The file that `argument` means in `s` lies where `argument` without its last move leads. -/
theorem Scope.ofFile_resolve (w : World) (s : Scope) {argument : String}
    {front : List (List Char)} {name : List Char}
    (h : (Path.mk argument).moves = front ++ [name]) :
    (∃ behind, (s.resolve argument).moves = behind ++ [name]) ∧
      w.trail (Scope.ofFile (s.resolve argument)).base =
        front.foldl Path.step (if (Path.mk argument).isAbsolute then [] else w.trail s.base) := by
  cases habs : (Path.mk argument).isAbsolute with
  | true =>
    rw [resolve, Path.join_of_isAbsolute _ habs]
    obtain ⟨hmoves, hbase⟩ := Scope.ofFile_base h
    refine ⟨⟨front, h⟩, ?_⟩
    rw [World.trail, Path.trail, Path.after, hmoves, hbase, habs, if_pos rfl, if_pos rfl]
  | false =>
    have hjoined : (s.resolve argument).moves = (s.base.moves ++ front) ++ [name] := by
      rw [resolve, Path.moves_join _ habs, h, List.append_assoc]
    obtain ⟨hmoves, hbase⟩ := Scope.ofFile_base hjoined
    refine ⟨⟨_, hjoined⟩, ?_⟩
    have hsame : (s.resolve argument).isAbsolute = s.base.isAbsolute := Path.isAbsolute_join _ habs
    rw [World.trail, Path.trail, Path.after, hmoves, hbase, hsame, List.foldl_append,
      if_neg Bool.false_ne_true]
    rfl

/-! ### Lists of files -/

/-- `World.ofTexts workingDirectory texts depth`: the world of the files `texts`, each at the normal
spelling of its path. -/
def World.ofTexts (workingDirectory : Path) (texts : List (Path × String)) (depth : Nat) :
    World where
  workingDirectory := workingDirectory
  lookup p :=
    match texts.lookup p.normal with
    | some text => .ok text
    | none => .error .missing
  depth := depth
  identifier _ := ""

namespace World

variable {directory : Path} {texts : List (Path × String)} {depth : Nat}

theorem mem_of_lookup_ofTexts {p : Path} {text : String}
    (h : (ofTexts directory texts depth).lookup p = .ok text) : (p.normal, text) ∈ texts := by
  simp only [ofTexts] at h
  split at h
  · rename_i found hfound
    obtain rfl := Except.ok.inj h
    obtain ⟨front, behind, rfl, -⟩ := List.lookup_eq_some_iff.mp hfound
    simp
  · cases h

theorem lexical_ofTexts (h : directory.isAbsolute = true) :
    (ofTexts directory texts depth).Lexical := by
  refine ⟨h, fun p _ => ?_⟩
  simp only [ofTexts, Path.normal_normal]

/-- No file of `texts` lies inside another one if this holds of their paths. -/
theorem filesApart_ofTexts (h : ∀ e ∈ texts, ∀ e' ∈ texts,
    e.1.normalNames <+: e'.1.normalNames → e.1.normalNames = e'.1.normalNames) :
    (ofTexts directory texts depth).FilesApart := by
  intro p q text text' hp hq hprefix
  have hmem := h _ (mem_of_lookup_ofTexts hp) _ (mem_of_lookup_ofTexts hq)
  simp only [Path.normal_normal, Path.normalNames_normal] at hmem
  exact hmem hprefix

end World

end NestedStacks
