/-
What can go wrong with documents and templates.

Errors are causes; `message` words them and `kind` sorts them.
-/
import NestedStacks.Markup.Fault
import NestedStacks.Document.Tree
import NestedStacks.Tag.Catalog
import NestedStacks.Run.Files

namespace NestedStacks

/-- The sorts of errors. -/
inductive ErrorKind where
  | shape
  | parse
  | notFound
  | config
  | io
  deriving DecidableEq, Repr

/-- The sorts of values, as messages tell them apart. -/
inductive Shape where
  | null
  | scalar
  | sequence
  | mapping
  | tagged
  deriving DecidableEq, Repr

/-- The name of a sort of values. -/
def Shape.name : Shape → String
  | .null => "null"
  | .scalar => "scalar"
  | .sequence => "sequence"
  | .mapping => "mapping"
  | .tagged => "tagged value"

/-- The sort of a tree. -/
def Tree.shape : Tree → Shape
  | .null => .null
  | .bool _ | .num _ | .str _ => .scalar
  | .seq _ => .sequence
  | .map _ => .mapping
  | .tagged _ _ => .tagged

/-- What can go wrong with a document. -/
inductive DocumentError where
  /-- The payload of a tag has a shape that the tag does not accept. -/
  | shape (tag : Tag) (found : Shape)
  /-- A tag is not in the catalog. -/
  | unknownTag (tag : String)
  /-- A key has no form in plain data. -/
  | invalidKey (found : Shape)
  | notFound (path : Path)
  | unreadable (path : Path) (fault : FileFault)
  /-- A macro that includes a file has no path. -/
  | missingPath (tag : MacroTag)
  | parse (fault : Markup.Fault)
  /-- A document has no text. -/
  | serialize
  /-- Files include one another without an end. -/
  | endlessInclude (path : Path)
  deriving DecidableEq, Repr

namespace DocumentError

/-- The sort of an error. -/
def kind : DocumentError → ErrorKind
  | .shape _ _ => .shape
  | .unknownTag _ | .invalidKey _ | .parse _ => .parse
  | .notFound _ => .notFound
  | .unreadable _ _ | .missingPath _ | .serialize | .endlessInclude _ => .io

/-- The wording of an error. -/
def message : DocumentError → String
  | .shape tag found =>
    "Tag " ++ tag.spelling ++ " expects a " ++ tag.kind.name ++ " payload, found " ++ found.name
  | .unknownTag tag => "Unknown tag: " ++ tagSpelling tag
  | .invalidKey found => "Unsupported mapping key: " ++ found.name
  | .notFound path => "File not found: " ++ path.text
  | .unreadable path fault => "Failed to read " ++ path.text ++ ": " ++ fault.message
  | .missingPath tag => "Macro !" ++ tag.yamlName ++ " failed: missing file path"
  | .parse fault => "YAML parsing error: " ++ fault.message
  | .serialize => "YAML serialization error: a tag stands on a tag"
  | .endlessInclude path => "Files include one another without an end: " ++ path.text

/-- The error of a file that cannot be read. -/
def ofFault (path : Path) : FileFault → DocumentError
  | .missing => .notFound path
  | fault => .unreadable path fault

end DocumentError

/-- The types of resources that can stand for a whole template. -/
inductive StackKind where
  | cloudFormationStack
  | serverlessApplication
  deriving DecidableEq, Repr

/-- The resource type of a kind of stacks. -/
def StackKind.resourceType : StackKind → String
  | .cloudFormationStack => "AWS::CloudFormation::Stack"
  | .serverlessApplication => "AWS::Serverless::Application"

/-- The kind of stacks with a resource type. -/
def StackKind.ofType? (type : String) : Option StackKind :=
  if type = StackKind.cloudFormationStack.resourceType then some .cloudFormationStack
  else if type = StackKind.serverlessApplication.resourceType then some .serverlessApplication
  else none

/-- The ending of the locations that stand for local templates. -/
def templateExtension : String := ".yaml"

/-- What can go wrong with a resource that stands for a template. -/
inductive ConfigFault where
  /-- It is not known where the template is that holds the resource. -/
  | locationRequired (kind : StackKind) (name : String)
  /-- The location has another ending. -/
  | locationEnding (name location : String)
  | parametersNotMapping (kind : StackKind) (name : String)
  deriving DecidableEq, Repr

/-- The wording of a fault. -/
def ConfigFault.message : ConfigFault → String
  | .locationRequired kind name =>
    "master template location is required when flattening nested " ++ kind.resourceType ++ " "
      ++ name
  | .locationEnding name location =>
    "nested template location of " ++ name ++ " should end with " ++ templateExtension ++ ", got "
      ++ Text.quoted location
  | .parametersNotMapping kind name =>
    "Parameters of nested " ++ kind.resourceType ++ " " ++ name ++ " must be a mapping"

/-- Why a document is no template. -/
inductive TemplateFault where
  | rootNotMapping
  | resourcesNotMapping
  | resourceNotMapping (name : String)
  deriving DecidableEq, Repr

/-- The wording of a fault. -/
def TemplateFault.message : TemplateFault → String
  | .rootNotMapping => "template root must be a mapping"
  | .resourcesNotMapping => "Resources must be a mapping"
  | .resourceNotMapping name => "resource " ++ name ++ " must be a mapping"

/-- What can go wrong with templates. -/
inductive StackError where
  | config (fault : ConfigFault)
  | invalidTemplate (fault : TemplateFault)
  /-- A resource is treated as a nested stack, but its type is none. -/
  | unsupportedResource (type : String)
  | document (error : DocumentError)
  /-- Templates are nested in one another without an end. -/
  | endlessNesting (path : Path)
  deriving DecidableEq, Repr

namespace StackError

/-- The sort of an error. -/
def kind : StackError → ErrorKind
  | .config _ | .unsupportedResource _ => .config
  | .invalidTemplate _ => .parse
  | .document e => e.kind
  | .endlessNesting _ => .io

/-- The wording of an error. -/
def message : StackError → String
  | .config fault => "Configuration error: " ++ fault.message
  | .invalidTemplate fault => "Invalid template: " ++ fault.message
  | .unsupportedResource type => "Unsupported nested resource type: " ++ type
  | .document e => e.message
  | .endlessNesting path => "Templates are nested without an end: " ++ path.text

end StackError

end NestedStacks
