import NestedStacks.Main
import NestedStacks.Proofs.Tagging.Loading
import NestedStacks.Proofs.Renaming.Resources
import NestedStacks.Proofs.Renaming.Places
import NestedStacks.Proofs.Renaming.Expressions
import NestedStacks.Proofs.Renaming.References
import NestedStacks.Proofs.Template.Resources
import NestedStacks.Proofs.Editing.TagFaults
import NestedStacks.Proofs.Writing.Reloading
import NestedStacks.Proofs.Nesting.Dependencies
import NestedStacks.Proofs.Nesting.Listing
import NestedStacks.Proofs.Renaming.Attributes
import NestedStacks.Proofs.Editing.Retaining
import NestedStacks.Proofs.Renaming.Bindings
import NestedStacks.Proofs.Nesting.Parameters
import NestedStacks.Proofs.Tagging.Macros
import NestedStacks.Proofs.Nesting.Macros
import NestedStacks.Proofs.Comparing.Runs
import NestedStacks.Proofs.Comparing.Flattening
import NestedStacks.Proofs.Locating.Moves
import NestedStacks.Proofs.Locating.Files
import NestedStacks.Proofs.Locating.Spelling
import NestedStacks.Proofs.Nesting.Termination
import NestedStacks.Proofs.Comparing.Identifiers
import NestedStacks.Proofs.Command.Storing
import NestedStacks.Proofs.Command.Endings
import NestedStacks.Proofs.Command.Output
import NestedStacks.Proofs.Command.ExitCodes
import NestedStacks.Proofs.Renaming.Pieces
import NestedStacks.Proofs.Renaming.Reach
import NestedStacks.Proofs.Renaming.Capture
import NestedStacks.Proofs.Renaming.Frame
import NestedStacks.Proofs.Renaming.Composing
import NestedStacks.Proofs.Nesting.Clashes
import NestedStacks.Proofs.Document.Nodes
import NestedStacks.Proofs.Tagging.PlainData
import NestedStacks.Proofs.Tagging.FirstFault
import NestedStacks.Proofs.Nesting.Includes
import NestedStacks.Proofs.Renaming.Scalars
import NestedStacks.Proofs.Locating.Locations
import NestedStacks.Proofs.Template.Assembling
import NestedStacks.Proofs.Editing.Marking
import NestedStacks.Proofs.Tagging.Representing
import NestedStacks.Proofs.Nesting.StackFaults
import NestedStacks.Proofs.Renaming.Reordering
