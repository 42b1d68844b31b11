/-
From tokens to nodes.

Every function reads one construct from the front of the tokens and gives back the rest.

* `Document.ofTokens` — the only document of a text; `none` if there is not even an empty one.
-/
import NestedStacks.Markup.Node

namespace NestedStacks.Markup

/-- The tag handles of a document and what they stand for. -/
abbrev Handles := List (String × List UInt8)

namespace Grammar

/-- Handles that need no directive. -/
def standardHandles : Handles :=
  [("!", [33]), ("!!", "tag:yaml.org,2002:".toUTF8.toList)]

/-- The meaning of a written tag. -/
def resolveTag (handles : Handles) (handle : String) (suffix : List UInt8) :
    Except Fault NodeTag :=
  if handle = "" then .ok (.ofOctets suffix)
  else
    match handles.find? (·.1 == handle) with
    | some (_, expansion) => .ok (.ofOctets (expansion ++ suffix))
    | none => .error .tagHandle

/-- What stands in front of a node: an anchor, a tag, or both in either order.  The answer says
whether there was anything. -/
def properties (handles : Handles) :
    List Token → Except Fault (Properties String × Bool × List Token)
  | .anchor a :: .tag h s :: ts => do
    return (⟨← resolveTag handles h s, some a⟩, true, ts)
  | .tag h s :: .anchor a :: ts => do
    return (⟨← resolveTag handles h s, some a⟩, true, ts)
  | .anchor a :: ts => return (⟨.none, some a⟩, true, ts)
  | .tag h s :: ts => do return (⟨← resolveTag handles h s, none⟩, true, ts)
  | ts => return ({}, false, ts)

/-- Whether no node can start, because the block collection goes on or ends. -/
def blockGap : List Token → Bool
  | .key :: _ => true
  | .value :: _ => true
  | .blockEnd :: _ => true
  | _ => false

/-- Whether no node can start, because the block sequence goes on or ends. -/
def entryGap : List Token → Bool
  | .blockEntry :: _ => true
  | .blockEnd :: _ => true
  | _ => false

/-- Whether no node can start, because the flow collection goes on or ends with `close`. -/
def flowGap (close : Token) : List Token → Bool
  | .flowEntry :: _ => true
  | t :: _ => t == close
  | [] => false

/-- Whether the next token is `t`. -/
def next (t : Token) (ts : List Token) : Bool := ts.head? == some t

mutual
/-- Reads a node.  Block collections only start in block context, and a block sequence without
indentation of its own only as a part of a block mapping. -/
def node (handles : Handles) :
    Nat → Bool → Bool → List Token → Except Fault (Node String × List Token)
  | 0, _, _, _ => .error .unexpectedToken
  | fuel + 1, block, indentless, ts => do
    if let .aliasOf name :: ts := ts then return (.aliasOf name, ts)
    let (props, given, ts) ← properties handles ts
    match ts with
    | .blockEntry :: _ =>
      if indentless then
        let (items, ts) ← indentlessItems handles fuel ts
        return (.seq props items, ts)
      else if given then return (.empty props, ts)
      else throw Fault.unexpectedToken
    | .scalar style text :: ts => return (.scalar props style text, ts)
    | .flowSequenceStart :: ts =>
      let (items, ts) ← flowItems handles fuel true ts
      return (.seq props items, ts)
    | .flowMappingStart :: ts =>
      let (entries, ts) ← flowEntries handles fuel true ts
      return (.map props entries, ts)
    | .blockSequenceStart :: rest =>
      if block then
        let (items, ts) ← blockItems handles fuel rest
        return (.seq props items, ts)
      else if given then return (.empty props, ts)
      else throw Fault.unexpectedToken
    | .blockMappingStart :: rest =>
      if block then
        let (entries, ts) ← blockEntries handles fuel rest
        return (.map props entries, ts)
      else if given then return (.empty props, ts)
      else throw Fault.unexpectedToken
    | ts => if given then return (.empty props, ts) else throw Fault.unexpectedToken

/-- Reads the items of a block sequence and its end. -/
def blockItems (handles : Handles) :
    Nat → List Token → Except Fault (List (Node String) × List Token)
  | fuel + 1, .blockEntry :: ts => do
    let (item, ts) ← if entryGap ts then pure (.empty {}, ts) else node handles fuel true false ts
    let (items, ts) ← blockItems handles fuel ts
    return (item :: items, ts)
  | _, .blockEnd :: ts => return ([], ts)
  | _, _ => .error .unexpectedToken

/-- Reads the items of a block sequence that ends with the mapping around it. -/
def indentlessItems (handles : Handles) :
    Nat → List Token → Except Fault (List (Node String) × List Token)
  | fuel + 1, .blockEntry :: ts => do
    let (item, ts) ←
      if next .blockEntry ts || blockGap ts then pure (.empty {}, ts)
      else node handles fuel true false ts
    let (items, ts) ← indentlessItems handles fuel ts
    return (item :: items, ts)
  | 0, .blockEntry :: _ => .error .unexpectedToken
  | _, ts => return ([], ts)

/-- Reads the entries of a block mapping and its end. -/
def blockEntries (handles : Handles) :
    Nat → List Token → Except Fault (List (Node String × Node String) × List Token)
  | fuel + 1, .key :: ts => do
    let (key, ts) ← if blockGap ts then pure (.empty {}, ts) else node handles fuel true true ts
    let (value, ts) ←
      match ts with
      | .value :: ts =>
        if blockGap ts then pure (.empty {}, ts) else node handles fuel true true ts
      | ts => pure (.empty {}, ts)
    let (entries, ts) ← blockEntries handles fuel ts
    return ((key, value) :: entries, ts)
  | _, .blockEnd :: ts => return ([], ts)
  | _, _ => .error .unexpectedToken

/-- Reads the items of a flow sequence and its end. -/
def flowItems (handles : Handles) :
    Nat → Bool → List Token → Except Fault (List (Node String) × List Token)
  | 0, _, _ => .error .unexpectedToken
  | _, _, .flowSequenceEnd :: ts => return ([], ts)
  | fuel + 1, first, ts => do
    let ts ←
      match first, ts with
      | true, ts => pure ts
      | false, .flowEntry :: ts => pure ts
      | false, _ => throw Fault.unexpectedToken
    match ts with
    | .flowSequenceEnd :: ts => return ([], ts)
    | .key :: ts =>
      let (entry, ts) ← flowPair handles fuel ts
      let (items, ts) ← flowItems handles fuel false ts
      return (.map {} [entry] :: items, ts)
    | ts =>
      let (item, ts) ← node handles fuel false false ts
      let (items, ts) ← flowItems handles fuel false ts
      return (item :: items, ts)

/-- Reads an entry that stands in a flow sequence as a mapping of its own.  Where the key is
missing, the token in its place is lost. -/
def flowPair (handles : Handles) :
    Nat → List Token → Except Fault ((Node String × Node String) × List Token)
  | 0, _ => .error .unexpectedToken
  | fuel + 1, ts => do
    let (key, ts) ←
      if next .value ts || flowGap .flowSequenceEnd ts then pure (.empty {}, ts.drop 1)
      else node handles fuel false false ts
    let (value, ts) ←
      match ts with
      | .value :: ts =>
        if flowGap .flowSequenceEnd ts then pure (.empty {}, ts)
        else node handles fuel false false ts
      | ts => pure (.empty {}, ts)
    return ((key, value), ts)

/-- Reads the entries of a flow mapping and its end. -/
def flowEntries (handles : Handles) :
    Nat → Bool → List Token → Except Fault (List (Node String × Node String) × List Token)
  | 0, _, _ => .error .unexpectedToken
  | _, _, .flowMappingEnd :: ts => return ([], ts)
  | fuel + 1, first, ts => do
    let ts ←
      match first, ts with
      | true, ts => pure ts
      | false, .flowEntry :: ts => pure ts
      | false, _ => throw Fault.unexpectedToken
    match ts with
    | .flowMappingEnd :: ts => return ([], ts)
    | .key :: ts =>
      let (key, ts) ←
        if next .value ts || flowGap .flowMappingEnd ts then pure (.empty {}, ts)
        else node handles fuel false false ts
      let (value, ts) ←
        match ts with
        | .value :: ts =>
          if flowGap .flowMappingEnd ts then pure (.empty {}, ts)
          else node handles fuel false false ts
        | ts => pure (.empty {}, ts)
      let (entries, ts) ← flowEntries handles fuel false ts
      return ((key, value) :: entries, ts)
    | ts =>
      let (key, ts) ← node handles fuel false false ts
      let (entries, ts) ← flowEntries handles fuel false ts
      return ((key, .empty {}) :: entries, ts)
end

/-- Reads the directives in front of a document: one version at most, and each handle once. -/
def directives : List Token → Bool → Handles → Except Fault (Handles × List Token)
  | .versionDirective major minor :: ts, seen, handles =>
    if seen || major != 1 || (minor != 1 && minor != 2) then .error .directiveConflict
    else directives ts true handles
  | .tagDirective handle expansion :: ts, seen, handles =>
    if handles.any (·.1 == handle) then .error .directiveConflict
    else directives ts seen ((handle, expansion) :: handles)
  | ts, _, handles => .ok (handles ++ standardHandles, ts)

/-- Whether a document starts with marks and directives of its own. -/
def startsExplicitly : List Token → Bool
  | .versionDirective _ _ :: _ => true
  | .tagDirective _ _ :: _ => true
  | .documentStart :: _ => true
  | _ => false

/-- Whether a document is empty behind its start. -/
def endsAtOnce : List Token → Bool
  | [] => true
  | .documentEnd :: _ => true
  | ts => startsExplicitly ts

end Grammar

/-- Reads the tokens of a text that holds at most one document. -/
def Document.ofTokens (ts : List Token) : Except Fault (Option (Node String)) := do
  -- two calls in a row take at least one token
  let fuel := 3 * ts.length + 3
  if ts.isEmpty then return none
  let (root, ts) ←
    if Grammar.startsExplicitly ts then do
      let (handles, ts) ← Grammar.directives ts false []
      match ts with
      | .documentStart :: ts =>
        if Grammar.endsAtOnce ts then pure (.empty {}, ts)
        else Grammar.node handles fuel true false ts
      | _ => throw Fault.unexpectedToken
    else Grammar.node Grammar.standardHandles fuel true false ts
  if (ts.dropWhile (· == .documentEnd)).isEmpty then return some root
  else throw Fault.secondDocument

end NestedStacks.Markup
