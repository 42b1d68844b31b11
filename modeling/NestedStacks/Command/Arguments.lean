/-
The arguments of the program.

Options that concern the whole program may stand in front of the command or behind it; behind
it they have the last word.  Everything is read from left to right, and the first mistake, or
the first request for the version or for help, ends the reading.

* `Request.ofArguments` — what a list of arguments asks for.
-/
import NestedStacks.Text.Split

namespace NestedStacks.Command

/-- What is done with a template. -/
inductive Action where
  | flatten
  | retain
  deriving DecidableEq, Repr

/-- The name of an action as an argument. -/
def Action.name : Action → String
  | .flatten => "flatten"
  | .retain => "retain"

/-- The form in which a template is written. -/
inductive Format where
  | yaml
  | json
  deriving DecidableEq, Repr

/-- What is to be done. -/
structure Invocation where
  action : Action
  template : String
  /-- Whether macros are replaced, if the arguments say so. -/
  macros : Option Bool
  format : Format
  /-- The file for the result. -/
  output : Option String
  verbose : Bool
  quiet : Bool
  logJson : Bool
  /-- The settings file. -/
  config : Option String
  deriving DecidableEq, Repr

/-- What a list of arguments asks for. -/
inductive Request where
  | run (invocation : Invocation)
  | version (command : Option Action)
  | help
  /-- The arguments make no sense. -/
  | misuse
  deriving DecidableEq, Repr

/-- Options without a value. -/
inductive Switch where
  | verbose
  | quiet
  | logJson
  | macros
  | noMacros
  | version
  | help
  deriving DecidableEq, Repr

/-- Options with a value. -/
inductive Setting where
  | config
  | format
  | output
  deriving DecidableEq, Repr

/-- What has been given so far, in front of the command or behind it. -/
structure Given where
  verbose : Bool := false
  quiet : Bool := false
  logJson : Bool := false
  macros : Bool := false
  noMacros : Bool := false
  config : Option String := none
  format : Option Format := none
  output : Option String := none
  template : Option String := none

/-- Why the reading ends early: always a request that is not `Request.run`. -/
abbrev Reading := Except Request

/-- The option with a long name; `command` is the command in front of it. -/
def longOption? (command : Option Action) (name : String) : Option (Switch ⊕ Setting) :=
  match name, command with
  | "verbose", _ => some (.inl .verbose)
  | "quiet", _ => some (.inl .quiet)
  | "log-json", _ => some (.inl .logJson)
  | "version", _ => some (.inl .version)
  | "help", _ => some (.inl .help)
  | "config", _ => some (.inr .config)
  | "macros", some _ => some (.inl .macros)
  | "no-macros", some _ => some (.inl .noMacros)
  | "format", some _ => some (.inr .format)
  | "output", some _ => some (.inr .output)
  | _, _ => none

/-- The option with a short name. -/
def shortOption? (command : Option Action) (name : Char) : Option (Switch ⊕ Setting) :=
  match name, command with
  | 'v', _ => some (.inl .verbose)
  | 'q', _ => some (.inl .quiet)
  | 'V', _ => some (.inl .version)
  | 'h', _ => some (.inl .help)
  | 'o', some _ => some (.inr .output)
  | _, _ => none

namespace Given

/-- Takes an option without a value.  None may be given twice, but of the two about macros the
later one replaces the earlier one. -/
def switch (g : Given) (command : Option Action) : Switch → Reading Given
  | .verbose => if g.verbose then .error .misuse else .ok { g with verbose := true }
  | .quiet => if g.quiet then .error .misuse else .ok { g with quiet := true }
  | .logJson => if g.logJson then .error .misuse else .ok { g with logJson := true }
  | .macros =>
    if g.macros then .error .misuse else .ok { g with macros := true, noMacros := false }
  | .noMacros =>
    if g.noMacros then .error .misuse else .ok { g with macros := false, noMacros := true }
  | .version => .error (.version command)
  | .help => .error .help

/-- Takes an option with its value. -/
def setting (g : Given) (value : String) : Setting → Reading Given
  | .config =>
    if g.config.isSome || value.isEmpty then .error .misuse
    else .ok { g with config := some value }
  | .output =>
    if g.output.isSome || value.isEmpty then .error .misuse
    else .ok { g with output := some value }
  | .format =>
    match g.format, value with
    | none, "yaml" => .ok { g with format := some .yaml }
    | none, "json" => .ok { g with format := some .json }
    | _, _ => .error .misuse

/-- Takes an argument that is no option. -/
def positional (g : Given) (value : String) : Reading Given :=
  if g.template.isSome || value.isEmpty then .error .misuse
  else .ok { g with template := some value }

/-- Takes short options written together.  The rest behind one that needs a value is that
value; without a rest the value is still to come. -/
def cluster (g : Given) (command : Option Action) :
    List Char → Reading (Given × Option Setting)
  | [] => .ok (g, none)
  | c :: rest =>
    match shortOption? command c with
    | some (.inl s) => do cluster (← g.switch command s) command rest
    | some (.inr s) =>
      match rest with
      | [] => .ok (g, some s)
      | '=' :: value => do return (← g.setting (String.ofList value) s, none)
      | value => do return (← g.setting (String.ofList value) s, none)
    | none => .error .misuse

/-- Takes a long option, written without the dashes; its value may be behind an equals sign. -/
def long (g : Given) (command : Option Action) (text : List Char) :
    Reading (Given × Option Setting) :=
  let (name, value) := Text.cut '=' text
  match longOption? command (String.ofList name), value with
  | some (.inl s), none => do return (← g.switch command s, none)
  | some (.inr s), none => .ok (g, some s)
  | some (.inr s), some value => do return (← g.setting (String.ofList value) s, none)
  | _, _ => .error .misuse

end Given

/-- Whether an argument can be the value of the option in front of it. -/
def isValue (argument : String) : Bool :=
  match argument.toList with
  | '-' :: _ :: _ => false
  | _ => true

/-- Reads the arguments behind a command. -/
def readTask (command : Action) : List String → Given → Reading Given
  | [], g => .ok g
  | argument :: rest, g =>
    let afterOption : Given × Option Setting → Reading Given
      | (g, none) => readTask command rest g
      | (g, some s) =>
        match rest with
        | value :: rest =>
          if isValue value then do readTask command rest (← g.setting value s)
          else .error .misuse
        | [] => .error .misuse
    match argument.toList with
    | ['-', '-'] => rest.foldlM Given.positional g
    | '-' :: '-' :: text => do afterOption (← g.long (some command) text)
    | '-' :: c :: text => do afterOption (← g.cluster (some command) (c :: text))
    | _ => do readTask command rest (← g.positional argument)

/-- Puts together what was given in front of a command and behind it. -/
def invocation (environmentConfig : Option String) (command : Action) (before behind : Given) :
    Request :=
  let config := behind.config <|> before.config
  let emptyConfig := environmentConfig == some "" && !(before.config.isSome && behind.config.isSome)
  match behind.template, emptyConfig with
  | some template, false =>
    .run
      { action := command
        template
        macros := if behind.macros then some true else if behind.noMacros then some false else none
        format := behind.format.getD .yaml
        output := behind.output
        verbose := before.verbose || behind.verbose
        quiet := before.quiet || behind.quiet
        logJson := before.logJson || behind.logJson
        config := config <|> environmentConfig }
  | _, _ => .misuse

/-- What a request for help on some subject asks for: there is help on each command and on help
itself. -/
def helpOn : List String → Request
  | [] => .help
  | [subject] =>
    if [Action.flatten.name, Action.retain.name, "help"].contains subject then .help else .misuse
  | _ => .misuse

/-- Reads the arguments in front of a command, and all others. -/
def readProgram (environmentConfig : Option String) : List String → Given → Reading Request
  | [], _ => .error .misuse
  | argument :: rest, g =>
    let afterOption : Given × Option Setting → Reading Request
      | (g, none) => readProgram environmentConfig rest g
      | (g, some s) =>
        match rest with
        | value :: rest =>
          if isValue value then do readProgram environmentConfig rest (← g.setting value s)
          else .error .misuse
        | [] => .error .misuse
    let task (command : Action) : Reading Request := do
      return invocation environmentConfig command g (← readTask command rest {})
    match argument.toList with
    | ['-', '-'] => .error .misuse
    | '-' :: '-' :: text => do afterOption (← g.long none text)
    | '-' :: c :: text => do afterOption (← g.cluster none (c :: text))
    | _ =>
      if argument = Action.flatten.name then task .flatten
      else if argument = Action.retain.name then task .retain
      else if argument = "help" then .error (helpOn rest)
      else .error .misuse

/-- What a list of arguments asks for.  The settings file may also be named by the environment.
-/
def Request.ofArguments (environmentConfig : Option String) (arguments : List String) : Request :=
  match readProgram environmentConfig arguments {} with
  | .ok request => request
  | .error request => request

end NestedStacks.Command
