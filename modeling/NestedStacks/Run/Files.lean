/-
A file system as a value.

Files and directories are known by the names on their way from the root.  A path is walked
name by name: every name but the last has to be a directory, also in front of two dots.

* `Files.read`, `Files.write` — the text of a file, and the files after writing one;
* `FileFault.message` — what the system says about a failure.
-/
import NestedStacks.Path

namespace NestedStacks

/-- Why a file cannot be read or written. -/
inductive FileFault where
  | missing
  | notDirectory
  | isDirectory
  | nameTooLong
  | zeroInName
  | notText
  /-- Anything else, with the number and the wording of the system. -/
  | system (code : Nat) (wording : String)
  deriving DecidableEq, Repr

/-- The failure with a number of the system. -/
def FileFault.ofCode (code : Nat) (wording : String) : FileFault :=
  match code with
  | 2 => .missing
  | 20 => .notDirectory
  | 21 => .isDirectory
  | 36 => .nameTooLong
  | _ => .system code wording

/-- The wording of a failure. -/
def FileFault.message : FileFault → String
  | .missing => "No such file or directory (os error 2)"
  | .notDirectory => "Not a directory (os error 20)"
  | .isDirectory => "Is a directory (os error 21)"
  | .nameTooLong => "File name too long (os error 36)"
  | .zeroInName => "file name contained an unexpected NUL byte"
  | .notText => "stream did not contain valid UTF-8"
  | .system code wording => wording ++ " (os error " ++ toString code ++ ")"

/-- What stands at some place of a file system. -/
inductive FileEntry where
  | file (content : ByteArray)
  | directory
  deriving Inhabited

/-- A file system; of two entries at one place the first counts. -/
structure Files where
  entries : List (List String × FileEntry) := []
  deriving Inhabited

namespace Files

/-- What stands at a place.  A directory may be known just by what is inside. -/
def entry? (fs : Files) (place : List String) : Option FileEntry :=
  match fs.entries.find? (·.1 == place) with
  | some (_, e) => some e
  | none =>
    if place.isEmpty || fs.entries.any (fun e => place.isPrefixOf e.1) then some .directory
    else none

/-- Walks down `names` from `place` and gives back the place where they lead. -/
def walk (fs : Files) (place : List String) : List String → Except FileFault (List String)
  | [] => .ok place
  | name :: rest =>
    match fs.entry? place with
    | none => .error .missing
    | some (.file _) => .error .notDirectory
    | some .directory =>
      if 255 < name.utf8ByteSize then .error .nameTooLong
      else if name == "" || name == "." then walk fs place rest
      else if name == ".." then walk fs place.dropLast rest
      else walk fs (place ++ [name]) rest

/-- The place that some names of an absolute path lead to. -/
def follow (fs : Files) (p : Path) (names : List (List Char)) : Except FileFault (List String) :=
  if p.text.toList.contains '\x00' then .error .zeroInName
  else if 4096 ≤ p.text.utf8ByteSize then .error .nameTooLong
  else fs.walk [] (names.map String.ofList)

/-- The place that an absolute path leads to. -/
def place (fs : Files) (p : Path) : Except FileFault (List String) := fs.follow p p.names

/-- The text of the file at an absolute path. -/
def read (fs : Files) (p : Path) : Except FileFault String := do
  match fs.entry? (← fs.place p) with
  | none => throw FileFault.missing
  | some .directory => throw FileFault.isDirectory
  | some (.file content) =>
    match String.fromUTF8? content with
    | some text => return text
    | none => throw FileFault.notText

/-- The files with a text at an absolute path, in the place of an earlier file there.  The
directory has to exist.  A slash at the end asks for a directory, whatever stands there. -/
def write (fs : Files) (p : Path) (text : String) : Except FileFault Files := do
  if p.text.toList.getLast? == some '/' then
    let front := (p.names.reverse.dropWhile List.isEmpty).tail.reverse
    let _ ← fs.follow p (front ++ [['.']])
    throw FileFault.isDirectory
  let place ← fs.place p
  match fs.entry? place with
  | some .directory => throw FileFault.isDirectory
  | some (.file _) => return ⟨(place, .file text.toUTF8) :: fs.entries⟩
  | none =>
    match fs.entry? place.dropLast with
    | some .directory => return ⟨(place, .file text.toUTF8) :: fs.entries⟩
    | some (.file _) => throw FileFault.notDirectory
    | none => throw FileFault.missing

/-- Puts a file or a directory at an absolute path, whatever stood there. -/
def put (fs : Files) (p : Path) (e : FileEntry) : Files :=
  ⟨(p.normalNames.map String.ofList, e) :: fs.entries⟩

end Files

end NestedStacks
