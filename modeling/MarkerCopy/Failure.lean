import MarkerCopy.FileSystem.Cause
import MarkerCopy.Marker
import MarkerCopy.Path.Basic

/-! Why a copy is not made, and how that is told. -/

namespace MarkerCopy

inductive FileOperation where
  | canonicalize
  | createDirectory
  | copy
deriving DecidableEq

def FileOperation.phrase : FileOperation → String
  | canonicalize => "resolve"
  | createDirectory => "create directory"
  | copy => "copy to"

inductive Failure where
  | invalidFlag (value : String)
  | invalidArgument (description : String)
  | destinationIsFile (path : Path)
  | markerNotFound (marker : Marker) (path : Path)
  | notUtf8 (path : Path)
  | missingFileName (path : Path)
  | file (operation : FileOperation) (path : Path) (cause : Cause)
deriving DecidableEq

/-- Whether a request was refused, or the file system refused to carry it out. -/
inductive FailureKind where
  | validation
  | inputOutput
deriving DecidableEq

/-- The exit status of a program that fails. -/
def FailureKind.exitCode : FailureKind → Nat
  | validation => 1
  | inputOutput => 2

namespace Failure

def kind : Failure → FailureKind
  | file _ _ _ => .inputOutput
  | _ => .validation

def exitCode (failure : Failure) : Nat :=
  failure.kind.exitCode

def message : Failure → String
  | invalidFlag value => s!"Invalid --extern value '{value}': expected 'yes' or 'no'"
  | invalidArgument description => s!"Invalid argument: {description}"
  | destinationIsFile path => s!"Destination {path.display} is an existing file"
  | markerNotFound marker path => s!"Marker '{marker.text}' not found in {path.display}"
  | notUtf8 path => s!"Path is not valid UTF-8: {path.display}"
  | missingFileName path => s!"Input has no file name: {path.display}"
  | file operation path cause =>
    s!"Failed to {operation.phrase} {path.display}: {cause.message}"

/-- The message for the one who asked for the copy. -/
def userMessage : Failure → String
  | invalidFlag _ => "--extern yes/no"
  | destinationIsFile _ => "Will not copy the directory into a file."
  | markerNotFound marker path =>
    s!"'{marker.text}' does not appear in {path.display}; " ++
      "cannot work out where the relative path starts"
  | failure => failure.message

end Failure

end MarkerCopy
