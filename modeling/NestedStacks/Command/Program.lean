/-
The program: from arguments and files to a result.

The work comes first and ends in the text of the result or in a failure; only then is anything
written.  So a failure leaves standard output and all files as they were.

* `Invocation.render` — the text of the result;
* `Invocation.runOn` — the report and the files afterwards, for files that are a value.
-/
import NestedStacks.Command.Report
import NestedStacks.Command.Settings
import NestedStacks.Template.Flatten

namespace NestedStacks.Command

/-- The settings file that is used when none is named. -/
def defaultSettingsPath : Path := ⟨".stackfold.yaml"⟩

/-- Reads a settings file. -/
def Settings.ofFile (path : Path) : Run Failure Settings := do
  Run.note .debug .settings ("Loading configuration from " ++ path.quoted)
  let text ← (Run.read path).mapError (.settingsUnreadable path)
  Run.ofExcept ((Settings.parse text).mapError (.settingsInvalid path))

/-- Whether something stands at a path. -/
def fileExists (path : Path) : Run Failure Bool := do
  match ← (Run.read path).attempt with
  | .error .missing | .error .notDirectory => return false
  | _ => return true

/-- The settings of the named file, of the usual file if it is there, or the usual ones. -/
def Settings.load (named : Option Path) : Run Failure Settings := do
  match named with
  | some path => Settings.ofFile path
  | none =>
    if ← fileExists defaultSettingsPath then Settings.ofFile defaultSettingsPath else return {}

/-- The text of a template in a format. -/
def Format.render (f : Format) (t : Template) : Except StackError String :=
  match f with
  | .yaml => t.yaml
  | .json => do return (← t.data).pretty

namespace Invocation

/-- The path of the template. -/
def templatePath (i : Invocation) : Path := ⟨i.template⟩

/-- The template that results. -/
def transform (i : Invocation) (s : Settings) : Run Failure Template := do
  let macros := i.macros.getD s.macros
  match i.action with
  | .flatten => (flatten macros i.templatePath).mapError (.flattening i.templatePath)
  | .retain =>
    Run.note .info .retainCommand ("Marking stateful resources in: " ++ i.template)
    let t ← (Template.load macros i.templatePath).mapError (.loading i.templatePath)
    (s.marker.run t).mapError .working

/-- The text of the result. -/
def render (i : Invocation) : Run Failure String := do
  let s ← Settings.load (i.config.map Path.mk)
  let t ← i.transform s
  Run.ofExcept ((i.format.render t).mapError .working)

/-- The filter for notes: the one given by the environment, if it makes sense, or else one for
the level that the arguments ask for. -/
def noteFilter (i : Invocation) (environmentFilter : Option String) : NoteFilter :=
  let level : Level := if i.verbose then .debug else if i.quiet then .error else .info
  (environmentFilter.bind NoteFilter.parse?).getD
    ⟨[⟨"stackfold", level.rank⟩, ⟨"", Level.warn.rank⟩]⟩

/-- The report on some finished work, given how writing the result to a file went. -/
def report (i : Invocation) (o : Outcome Failure String) (written : Except FileFault Unit) :
    Report :=
  match o.result, i.output with
  | .error f, _ => .failed f o.notes
  | .ok text, none => .printed text o.notes
  | .ok _, some output =>
    match written with
    | .ok () => .stored ⟨output⟩ o.notes
    | .error fault => .failed (.writing ⟨output⟩ fault) o.notes

/-- What has to be written: a file with its text. -/
def pending (i : Invocation) (o : Outcome Failure String) : Option (Path × String) :=
  match o.result, i.output with
  | .ok text, some output => some (⟨output⟩, text)
  | _, _ => none

/-- Runs the program on files; the answer holds the files afterwards. -/
def runOn (i : Invocation) (fs : Files) (workingDirectory : Path) (identifier : Nat → String) :
    Report × Files :=
  let o := i.render (fs.world workingDirectory identifier) 0
  match i.pending o with
  | none => (i.report o (.ok ()), fs)
  | some (path, text) =>
    match fs.write (workingDirectory.join path) text with
    | .ok fs' => (i.report o (.ok ()), fs')
    | .error fault => (i.report o (.error fault), fs)

end Invocation

/-- Does what is asked for, on files that are a value. -/
def Request.runOn (r : Request) (fs : Files) (workingDirectory : Path)
    (identifier : Nat → String) : Report × Files :=
  match r with
  | .run i => i.runOn fs workingDirectory identifier
  | .version command => (.version command, fs)
  | .help => (.help, fs)
  | .misuse => (.misused, fs)

end NestedStacks.Command
