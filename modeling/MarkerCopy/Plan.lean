import MarkerCopy.Failure
import MarkerCopy.Path.Components

/-! Where a copy goes. The part that is kept of a path is cut from its canonical spelling, while
the name of the new file is the one that was asked for. -/

namespace MarkerCopy

/-- A copy that is asked for: a file, and the directory below which it goes. -/
structure Request where
  infile : Path
  outdir : String
  marker : Marker
  /-- Say what would be done, and do nothing. -/
  dryRun : Bool
deriving DecidableEq

/-- What is wrong with a request before any file is looked at. -/
def Request.fault? (request : Request) : Option String :=
  if request.infile.isEmpty then some "--infile must not be empty"
  else if request.outdir.isEmpty then some "--outdir must not be empty"
  else none

structure Plan where
  source : Path
  canonicalSource : Path
  marker : Marker
  relativeDir : String
  relativeFile : String
  destinationDir : Path
  destinationFile : Path
deriving DecidableEq

/-- The part of a path that is kept. -/
def Marker.relative (marker : Marker) (p : Path) : Except Failure String :=
  match p.text? with
  | none => .error (.notUtf8 p)
  | some text =>
    match marker.cut? text with
    | none => .error (.markerNotFound marker p)
    | some kept => .ok kept

/-- A relative directory in the output directory, with one slash between their texts unless the
output directory ends in one. -/
def outputPath (outdir relativeDir : String) : Path :=
  if outdir.toList.getLast? = some '/' then .ofString (outdir ++ relativeDir)
  else .ofString (outdir ++ "/" ++ relativeDir)

/-- The plan for a request whose input has the canonical spelling `resolved`. -/
def Request.plan (request : Request) (resolved : Except Cause Path) : Except Failure Plan :=
  match request.infile.fileName? with
  | none => .error (.missingFileName request.infile)
  | some name => do
    let canonical ← resolved.mapError (Failure.file .canonicalize request.infile)
    let relativeFile ← request.marker.relative canonical
    let relativeDir ← request.marker.relative (canonical.parent?.getD ⟨[]⟩)
    let destinationDir := outputPath request.outdir relativeDir
    return {
      source := request.infile
      canonicalSource := canonical
      marker := request.marker
      relativeDir
      relativeFile
      destinationDir
      destinationFile := destinationDir.join name }

end MarkerCopy
