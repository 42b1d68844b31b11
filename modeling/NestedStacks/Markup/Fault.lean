/-
What can be wrong with the text of a document.
-/

namespace NestedStacks.Markup

/-- The reasons for which a text is no document. -/
inductive Fault where
  /-- A character that no document may hold. -/
  | forbiddenCharacter
  /-- A `%` line that is neither a version nor a tag directive, or is one written wrongly. -/
  | directive
  /-- A directive given twice, or a version that is not supported. -/
  | directiveConflict
  /-- An anchor or an alias without a proper name. -/
  | anchorName
  /-- A tag written wrongly. -/
  | tagSyntax
  /-- A tag with a handle that no directive defines. -/
  | tagHandle
  /-- A quoted scalar that does not end. -/
  | openQuote
  /-- An unknown or broken escape sequence. -/
  | escape
  /-- The first line of a block scalar holds something else than its hints. -/
  | blockHeader
  /-- A tab where indentation is expected. -/
  | tabIndentation
  /-- A key on a line of its own without its colon. -/
  | missingColon
  /-- A block entry, key or value where none may start. -/
  | misplacedIndicator
  /-- A character that starts no token. -/
  | strayCharacter
  /-- A token that does not continue the document. -/
  | unexpectedToken
  /-- An alias without an anchor. -/
  | unknownAlias
  /-- More aliases are followed than the size of the document allows. -/
  | aliasLimit
  /-- Collections inside one another beyond the limit. -/
  | depthLimit
  /-- Two equal keys in one mapping. -/
  | duplicateKey
  /-- A scalar that is not what its tag says. -/
  | scalarTag
  /-- More than one document. -/
  | secondDocument
  /-- A value of another type than a settings file needs. -/
  | settingType
  /-- A key that a settings file does not have, or has twice. -/
  | settingKey
  deriving DecidableEq, Repr

/-- A description for people. -/
def Fault.message : Fault → String
  | .forbiddenCharacter => "control characters are not allowed"
  | .directive => "a directive is written wrongly"
  | .directiveConflict => "a directive is repeated or not supported"
  | .anchorName => "an anchor or alias has no proper name"
  | .tagSyntax => "a tag is written wrongly"
  | .tagHandle => "a tag has an undefined handle"
  | .openQuote => "a quoted scalar does not end"
  | .escape => "an escape sequence is unknown"
  | .blockHeader => "the first line of a block scalar is written wrongly"
  | .tabIndentation => "a tab stands where indentation is expected"
  | .missingColon => "could not find the colon of a key"
  | .misplacedIndicator => "an entry, key or value is not allowed here"
  | .strayCharacter => "a character cannot start any token"
  | .unexpectedToken => "the document does not continue like this"
  | .unknownAlias => "an alias has no anchor"
  | .aliasLimit => "too many aliases are followed"
  | .depthLimit => "the document is nested too deeply"
  | .duplicateKey => "a mapping has two equal keys"
  | .scalarTag => "a scalar is not of the type of its tag"
  | .secondDocument => "there is more than one document"
  | .settingType => "a setting has the wrong type"
  | .settingKey => "a setting is unknown or given twice"

end NestedStacks.Markup
