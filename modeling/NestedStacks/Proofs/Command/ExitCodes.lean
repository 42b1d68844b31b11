/-
The exit codes of failed runs.

A failed run ends with the exit code of the sort of its error.  The one exception is that failures
of no particular sort count as failures of the settings when the first part of their message speaks
of configuration.  That part names a path, so the exception is met also when no settings file is to
blame and just a path speaks of configuration: `exit_code_of_failed_run`.

* `mentions_iff`, `mentions_append` — a word in a message and in the path at its end;
* `Failure.AboutSettings`, `Failure.AboutWork` — the failures of the two parts of a run;
* `Failure.AboutWork.exitCode_iff` — when a failure has the exit code of its sort;
* `exit_codes_agree` — runs that fail alike, and whose paths do not speak of configuration.
-/
import NestedStacks.Proofs.Command.Endings
import NestedStacks.Proofs.Template.Faults

namespace NestedStacks

/-- An error `e` over the plain data of `t` is not of the sort `io`: a key has no name, or a tag is
not in order. -/
theorem Tree.kind_ne_io_of_toData {t : Tree} {e : DocumentError} (h : t.toData = .error e) :
    e.kind ≠ .io := by
  induction t using Tree.induct with
  | null | bool | num | str => cases h
  | seq items ih =>
    obtain ⟨t, hmem, ht⟩ := toData_seq_eq_error h
    exact ih t hmem ht
  | map entries _ ih =>
    obtain ⟨entry, hmem, hkey | hvalue⟩ := toData_map_eq_error h
    · obtain ⟨found, rfl⟩ := keyText_eq_error hkey
      intro hkind
      cases hkind
    · exact ih entry hmem hvalue
  | tagged tag payload ih =>
    rw [toData_tagged] at h
    rcases Except.bind_eq_error.mp h with h | ⟨node, -, h⟩
    · intro hkind
      rcases TaggedNode.ofTagged_eq_error h with rfl | ⟨t, rfl⟩
      · cases hkind
      · cases hkind
    · split at h
      · exact absurd h Except.pure_ne_error
      · rcases Except.bind_eq_error.mp h with h | ⟨d, -, h⟩
        · exact ih h
        · exact absurd h Except.pure_ne_error

namespace Command

namespace Failure

/-! ### Words in messages -/

theorem holds_iff {word cs : List Char} : holds word cs = true ↔ word <:+: cs := by
  induction cs with
  | nil => simp [holds]
  | cons c cs ih => simp [holds, List.infix_cons_iff, ih]

theorem mentions_iff {word s : String} :
    mentions word s = true ↔ word.toList <:+: s.toList.map Char.toLower := holds_iff

/-- A `word` that is mentioned in `front` is mentioned in `front ++ s`. -/
theorem mentions_of_front {word front : String} (h : mentions word front = true) (s : String) :
    mentions word (front ++ s) = true := by
  rw [mentions_iff] at h ⊢
  rw [String.toList_append, List.map_append]
  exact h.trans (List.prefix_append _ _).isInfix

/-- A word that starts with `c` has no part in a text `front` without `c`. -/
theorem infix_append {c : Char} {word front cs : List Char} (h : c ∉ front) :
    c :: word <:+: front ++ cs ↔ c :: word <:+: cs := by
  induction front with
  | nil => rfl
  | cons d front ih =>
    have hne : c ≠ d := by
      rintro rfl
      exact h List.mem_cons_self
    have hrest : c ∉ front := fun hmem => h (List.mem_cons_of_mem d hmem)
    rw [List.cons_append, List.infix_cons_iff, ih hrest]
    exact or_iff_right fun hfront => hne (List.cons_prefix_cons.mp hfront).1

/-- A message with a path at its end mentions configuration just when the path does, if there is no
`c` in front of the path. -/
theorem mentions_append {front : String} (h : 'c' ∉ front.toList.map Char.toLower) (s : String) :
    mentions "configuration" (front ++ s) = mentions "configuration" s := by
  rw [Bool.eq_iff_iff, mentions_iff, mentions_iff, String.toList_append, List.map_append]
  exact infix_append h

/-! ### The two parts of a run -/

/-- The path in the headline of a failure; only `working e` has none. -/
def path? : Failure → Option Path
  | settingsUnreadable path _ | settingsInvalid path _ | flattening path _ | loading path _
  | writing path _ => some path
  | working _ => none

/-- `f.PathMentions`: the path in the headline of `f` has `configuration` in its text, in upper or
lower case. -/
def PathMentions (f : Failure) : Prop :=
  ∃ path, f.path? = some path ∧ mentions "configuration" path.text = true

/-- `AboutSettings f`: `f` says that the settings at some `path` cannot be read. -/
inductive AboutSettings : Failure → Prop
  | unreadable (path : Path) (fault : FileFault) : AboutSettings (settingsUnreadable path fault)
  | invalid (path : Path) (fault : Markup.Fault) : AboutSettings (settingsInvalid path fault)

/-- `AboutWork i f`: `f` is a failure that `i` can have once it has its settings.  Its headline
names `i.templatePath` or the file in `i.output`, or `f` is `working e`, and `e` is of the sort `io`
only if the result has no text. -/
inductive AboutWork (i : Invocation) : Failure → Prop
  | flattening (e : StackError) : AboutWork i (flattening i.templatePath e)
  | loading (e : StackError) : AboutWork i (loading i.templatePath e)
  | working {e : StackError} (h : e.kind = .io → e = .document .serialize) :
    AboutWork i (working e)
  | writing {output : String} (houtput : i.output = some output) (fault : FileFault) :
    AboutWork i (writing ⟨output⟩ fault)

/-- `f.Misread`: `f` gets the exit code of the settings over a path.  Its sort says no more than
that something went wrong (`none` or `io`), and `f.PathMentions`. -/
def Misread (f : Failure) : Prop := (f.kind? = none ∨ f.kind? = some .io) ∧ f.PathMentions

/-- A failure `f` of reading the settings speaks of configuration, so its exit code is 4. -/
theorem AboutSettings.exitCode_eq {f : Failure} (h : f.AboutSettings) : f.exitCode = 4 := by
  have hmentions : mentions "configuration" f.headline = true := by
    cases h with
    | unreadable path fault => exact mentions_of_front (by decide) path.text
    | invalid path fault => exact mentions_of_front (by decide) path.text
  have hkind : f.kind? = none := by cases h <;> rfl
  rw [f.exitCode_eq, if_pos ⟨.inl hkind, hmentions⟩]

/-- The only paths in the headline of `f` are those of the template and of the file for the
result. -/
theorem AboutWork.path_eq {i : Invocation} {f : Failure} (h : f.AboutWork i) {path : Path}
    (hpath : f.path? = some path) : path = i.templatePath ∨ i.output = some path.text := by
  cases h with
  | flattening | loading => exact .inl (Option.some.inj hpath).symm
  | working => cases hpath
  | @writing output houtput =>
    obtain rfl : ⟨output⟩ = path := Option.some.inj hpath
    exact .inr houtput

/-- If `f` is of no particular sort, its headline speaks of configuration only if its path does. -/
theorem AboutWork.mentions_headline_iff {i : Invocation} {f : Failure} (h : f.AboutWork i)
    (hkind : f.kind? = none ∨ f.kind? = some .io) :
    mentions "configuration" f.headline = true ↔ f.PathMentions := by
  have hpath : ∀ (front : String) (path : Path), 'c' ∉ front.toList.map Char.toLower →
      f.headline = front ++ path.text → f.path? = some path →
        (mentions "configuration" f.headline = true ↔ f.PathMentions) := by
    intro front path hfront hheadline hf
    rw [hheadline, mentions_append hfront]
    refine ⟨fun hmentions => ⟨path, hf, hmentions⟩, ?_⟩
    rintro ⟨path', hf', hmentions⟩
    obtain rfl : path = path' := Option.some.inj (hf.symm.trans hf')
    exact hmentions
  cases h with
  | flattening e => exact hpath "Failed to flatten " _ (by decide) rfl rfl
  | loading e => exact hpath "Failed to load " _ (by decide) rfl rfl
  | writing => exact hpath "Failed to write " _ (by decide) rfl rfl
  | @working e hserialize =>
    -- such an error is about a text that cannot be written, and its wording is known
    obtain rfl : e = .document .serialize := by
      refine hserialize ?_
      rcases hkind with hkind | hkind
      · cases hkind
      · exact Option.some.inj hkind
    refine ⟨fun hmentions => absurd hmentions (by decide), ?_⟩
    rintro ⟨path, hf, -⟩
    cases hf

/-- The exit code of `f` is that of its sort if and only if not `f.Misread`. -/
theorem AboutWork.exitCode_iff {i : Invocation} {f : Failure} (h : f.AboutWork i) :
    f.exitCode = exitCodeOf f.kind? ↔ ¬f.Misread := by
  rw [f.exitCode_eq]
  constructor
  · rintro hcode ⟨hkind, hpath⟩
    rw [if_pos ⟨hkind, (h.mentions_headline_iff hkind).mpr hpath⟩] at hcode
    rcases hkind with hkind | hkind
    · rw [hkind] at hcode
      cases hcode
    · rw [hkind] at hcode
      cases hcode
  · intro hread
    refine if_neg ?_
    rintro ⟨hkind, hmentions⟩
    exact hread ⟨hkind, (h.mentions_headline_iff hkind).mp hmentions⟩

theorem AboutWork.exitCode_of_misread {i : Invocation} {f : Failure} (h : f.AboutWork i)
    (hmisread : f.Misread) : f.exitCode = 4 := by
  obtain ⟨hkind, hpath⟩ := hmisread
  rw [f.exitCode_eq, if_pos ⟨hkind, (h.mentions_headline_iff hkind).mpr hpath⟩]

end Failure

/-! ### Where failures come from -/

section

variable {w : World}

theorem Settings.aboutSettings_ofFile (path : Path) :
    Run.FailsWith w (fun f _ => f.AboutSettings) (Settings.ofFile path) := by
  refine .bind (fun _ _ _ h => h) (.of_ok fun _ => ⟨(), rfl⟩) fun _ _ _ => ?_
  refine .bind (fun _ _ _ h => h) (.mapError fun _ fault _ => .unreadable path fault) ?_
  refine fun _ text _ => .ofExcept fun f h => ?_
  obtain ⟨fault, -, rfl⟩ := Except.mapError_eq_error.mp h
  exact .invalid path fault

theorem Settings.aboutSettings_load (named : Option Path) :
    Run.FailsWith w (fun f _ => f.AboutSettings) (Settings.load named) := by
  cases named with
  | some path => exact Settings.aboutSettings_ofFile path
  | none =>
    have hexists : Run.FailsWith w (fun f _ => f.AboutSettings)
        (fileExists defaultSettingsPath) := by
      refine .bind (fun _ _ _ h => h) (.of_ok fun _ => ⟨_, rfl⟩) fun _ r _ => ?_
      split
      · exact .pure false
      · exact .pure false
      · exact .pure true
    refine .bind (fun _ _ _ h => h) hexists fun _ found _ => ?_
    cases found with
    | true => exact Settings.aboutSettings_ofFile _
    | false => exact .pure _

theorem Invocation.aboutWork_transform (i : Invocation) (s : Settings) :
    Run.FailsWith w (fun f _ => f.AboutWork i) (i.transform s) := by
  unfold Invocation.transform
  cases i.action with
  | flatten => exact .mapError fun _ e _ => .flattening e
  | retain =>
    refine .bind (fun _ _ _ h => h) (.of_ok fun _ => ⟨(), rfl⟩) fun _ _ _ => ?_
    refine .bind (fun _ _ _ h => h) (.mapError fun _ e _ => .loading e) fun _ t _ => .mapError ?_
    -- marking fails only over the resources
    refine .bind (fun _ _ _ h => h) (.ofExcept fun e he => .working ?_) fun _ _ _ =>
      .of_ok fun _ => ⟨_, rfl⟩
    exact fun hkind => absurd hkind (Template.aboutTemplate_resources he).kind_ne_io

theorem Format.aboutWork_render (i : Invocation) (format : Format) (t : Template) {e : StackError}
    (h : format.render t = .error e) : Failure.AboutWork i (.working e) := by
  refine .working fun hkind => ?_
  cases format with
  | yaml =>
    have hyaml : t.yaml = .error e := h
    unfold Template.yaml at hyaml
    split at hyaml <;> cases hyaml
    rfl
  | json =>
    rcases Except.bind_eq_error.mp h with h | ⟨d, -, h⟩
    · obtain ⟨d, hd, rfl⟩ := Except.mapError_eq_error.mp h
      exact absurd hkind (Tree.kind_ne_io_of_toData hd)
    · exact absurd h Except.pure_ne_error

/-- The work of `i` fails with the failure of its settings or, if they are there, with one that is
`AboutWork i`. -/
theorem Invocation.aboutWork_render (i : Invocation) {n : Nat} {f : Failure}
    (h : (i.render w n).result = .error f) :
    (Settings.load (i.config.map Path.mk) w n).result = .error f ∨
      (∃ s, (Settings.load (i.config.map Path.mk) w n).result = .ok s) ∧ f.AboutWork i := by
  rcases Run.bind_eq_error h with ⟨hsettings, -⟩ | ⟨s, hs, hwork, -⟩
  · exact .inl hsettings
  · have hrest : Run.FailsWith w (fun f _ => f.AboutWork i) (i.transform s >>= fun t =>
        Run.ofExcept ((i.format.render t).mapError .working)) := by
      refine .bind (fun _ _ _ h => h) (i.aboutWork_transform s)
        fun _ t _ => .ofExcept fun f hf => ?_
      obtain ⟨e, he, rfl⟩ := Except.mapError_eq_error.mp hf
      exact i.format.aboutWork_render i t he
    exact .inr ⟨⟨s, hs⟩, hrest _ f hwork⟩

end

/-! ### Exit codes -/

section

variable {i i' : Invocation} {fs fs' : Files} {directory directory' : Path}
  {identifier identifier' : Nat → String} {s s' : Settings} {f f' : Failure}

/-- A run that does not end with 0 ends with a complaint about a failure `f`. -/
theorem Invocation.exists_failure (h : (i.runOn fs directory identifier).1.exit ≠ 0) :
    ∃ f, (i.runOn fs directory identifier).1.complaint = some (.failure f) := by
  have hends := i.ends_runOn fs directory identifier
  generalize i.runOn fs directory identifier = run at hends h ⊢
  cases hends with
  | failed | unwritten => exact ⟨_, rfl⟩
  | printed | stored => exact absurd rfl h

/-- The exit code of a run that complains about `f` is that of `f`. -/
theorem Invocation.exit_of_complaint
    (h : (i.runOn fs directory identifier).1.complaint = some (.failure f)) :
    (i.runOn fs directory identifier).1.exit = f.exitCode := by
  have hends := i.ends_runOn fs directory identifier
  generalize i.runOn fs directory identifier = run at hends h ⊢
  cases hends with
  | failed | unwritten =>
    cases h
    rfl
  | printed | stored => cases h

/-- A run of `i` with settings `s` that complains about `f` fails over its work or over the file for
the result. -/
theorem Invocation.aboutWork_of_settings
    (hs : (Settings.load (i.config.map Path.mk) (fs.world directory identifier) 0).result = .ok s)
    (h : (i.runOn fs directory identifier).1.complaint = some (.failure f)) : f.AboutWork i := by
  have hends := i.ends_runOn fs directory identifier
  generalize i.runOn fs directory identifier = run at hends h
  cases hends with
  | failed hresult =>
    cases h
    rcases i.aboutWork_render hresult with hsettings | ⟨-, hwork⟩
    · rw [hs] at hsettings
      cases hsettings
    · exact hwork
  | unwritten _ houtput _ =>
    cases h
    exact .writing houtput _
  | printed | stored => cases h

/-- A run of `i` that cannot read its settings ends with 4. -/
theorem Invocation.exit_of_settings
    (h : (Settings.load (i.config.map Path.mk) (fs.world directory identifier) 0).result =
      .error f) : (i.runOn fs directory identifier).1.exit = 4 := by
  have hresult : (i.render (fs.world directory identifier) 0).result = .error f := by
    unfold Invocation.render
    rw [Run.bind_error _ h]
  have hends := i.ends_runOn fs directory identifier
  generalize i.runOn fs directory identifier = run at hends ⊢
  cases hends with
  | failed hfailed =>
    obtain rfl := Except.error.inj (hresult.symm.trans hfailed)
    exact (Settings.aboutSettings_load _ _ f h).exitCode_eq
  | printed hok | unwritten hok | stored hok =>
    rw [hresult] at hok
    cases hok

/-- Two runs that have their settings and fail with errors `f` and `f'` of one sort end with the
same exit code, if neither is `Misread`. -/
theorem exit_codes_agree
    (hs : (Settings.load (i.config.map Path.mk) (fs.world directory identifier) 0).result = .ok s)
    (hs' : (Settings.load (i'.config.map Path.mk) (fs'.world directory' identifier') 0).result =
      .ok s')
    (hf : (i.runOn fs directory identifier).1.complaint = some (.failure f))
    (hf' : (i'.runOn fs' directory' identifier').1.complaint = some (.failure f'))
    (hkind : f.kind? = f'.kind?) (hread : ¬f.Misread) (hread' : ¬f'.Misread) :
    (i.runOn fs directory identifier).1.exit = (i'.runOn fs' directory' identifier').1.exit := by
  rw [Invocation.exit_of_complaint hf, Invocation.exit_of_complaint hf',
    (Invocation.aboutWork_of_settings hs hf).exitCode_iff.mpr hread, hkind,
    (Invocation.aboutWork_of_settings hs' hf').exitCode_iff.mpr hread']

end

/-- **The exit code of a failed run.**  Let `i` run on the files `fs` in `directory`.  If its
settings cannot be read, it ends with 4.  With settings `s` and an exit code other than 0 it ends
with a failure `f`.  The code is `exitCodeOf f.kind?` if and only if `f` is not `Misread`, and 4 if
it is; and the path in the headline of `f` is that of the template or of the file for the result. -/
theorem exit_code_of_failed_run (i : Invocation) (fs : Files) (directory : Path)
    (identifier : Nat → String) :
    (∀ f, (Settings.load (i.config.map Path.mk) (fs.world directory identifier) 0).result =
        .error f → (i.runOn fs directory identifier).1.exit = 4) ∧
    ∀ s, (Settings.load (i.config.map Path.mk) (fs.world directory identifier) 0).result = .ok s →
      (i.runOn fs directory identifier).1.exit ≠ 0 →
        ∃ f, (i.runOn fs directory identifier).1.complaint = some (.failure f) ∧
          ((i.runOn fs directory identifier).1.exit = exitCodeOf f.kind? ↔ ¬f.Misread) ∧
          (f.Misread → (i.runOn fs directory identifier).1.exit = 4) ∧
          ∀ path, f.path? = some path → path = i.templatePath ∨ i.output = some path.text := by
  refine ⟨fun f => i.exit_of_settings, fun s hs hexit => ?_⟩
  obtain ⟨f, hf⟩ := i.exists_failure hexit
  have hwork : f.AboutWork i := i.aboutWork_of_settings hs hf
  rw [i.exit_of_complaint hf]
  exact ⟨f, hf, hwork.exitCode_iff, hwork.exitCode_of_misread, fun path => hwork.path_eq⟩

/-- A directory `/d` with another one, `name`, in it. -/
def directoryNamed (name : String) : Files := ⟨[(["d"], .directory), (["d", name], .directory)]⟩

/-- Flattening what stands at `path`, to plain data. -/
def flattenAt (path : String) : Invocation where
  action := .flatten
  template := path
  macros := none
  format := .json
  output := none
  verbose := false
  quiet := false
  logJson := false
  config := none

/-- Flattening what stands at `configuration` and at `templates` fails over a directory, both times
with an error of the sort `io`; the first run ends with 4, and the second one with 1. -/
theorem exit_code_depends_on_path :
    (∀ name ∈ ["configuration", "templates"],
      (Settings.load none ((directoryNamed name).world ⟨"/d"⟩ fun _ => "") 0).result = .ok {} ∧
      ((flattenAt name).runOn (directoryNamed name) ⟨"/d"⟩ fun _ => "").1.complaint =
        some (.failure (.flattening ⟨name⟩ (.document (.unreadable ⟨name⟩ .isDirectory)))) ∧
      (Failure.flattening ⟨name⟩ (.document (.unreadable ⟨name⟩ .isDirectory))).kind? = some .io) ∧
    ((flattenAt "configuration").runOn (directoryNamed "configuration") ⟨"/d"⟩ fun _ => "").1.exit =
      4 ∧
    ((flattenAt "templates").runOn (directoryNamed "templates") ⟨"/d"⟩ fun _ => "").1.exit = 1 := by
  decide +kernel

end Command

end NestedStacks
