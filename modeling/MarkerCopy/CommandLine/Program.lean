import MarkerCopy.CommandLine.Arguments
import MarkerCopy.CommandLine.Console

/-! The whole program, from its arguments to what it shows and what it does on a disk. -/

namespace MarkerCopy

/-- The request that arguments stand for, if it is one that can be made. -/
def Arguments.request (arguments : Arguments) : Except Failure Request :=
  match Marker.ofFlag? arguments.external with
  | none => .error (.invalidFlag arguments.external)
  | some marker =>
    let request : Request := {
      infile := arguments.infile
      outdir := arguments.outdir
      marker
      dryRun := arguments.dryRun }
    match request.fault? with
    | some description => .error (.invalidArgument description)
    | none => .ok request

/-- What is said about a request before it is planned. -/
def Request.notes (request : Request) : List String :=
  [s!"Mirroring {request.infile.display} into {request.outdir} " ++
    s!"(--extern {request.marker.flag}, marker '{request.marker.text}')"]

/-- What is said about a plan before it is carried out. -/
def Plan.notes (plan : Plan) : List String :=
  [s!"Resolved {plan.canonicalSource.display}", s!"Relative directory: '{plan.relativeDir}'"]

namespace Console

/-- Puts diagnostic lines before what a run shows, if they are wanted. -/
def explain (console : Console) (verbose : Bool) (notes : List String)
    (transcript : Transcript) : Transcript :=
  if verbose then
    { transcript with stderr := lines (notes.map console.diagnosticLine) ++ transcript.stderr }
  else transcript

end Console

variable {m : Type → Type} [Monad m]

def Arguments.runOn (arguments : Arguments) (console : Console) (disk : Disk m) :
    m Transcript := do
  match arguments.request with
  | .error failure => return console.failed failure
  | .ok request =>
    match ← (disk.plan request).run with
    | .error failure =>
      return console.explain arguments.verbose request.notes (console.failed failure)
    | .ok plan =>
      let explain := console.explain arguments.verbose (request.notes ++ plan.notes)
      match ← (disk.execute request.dryRun plan).run with
      | .error failure => return explain (console.failed failure)
      | .ok outcome => return explain (console.finished arguments.json arguments.quiet outcome)

/-- The program on a command line, given without the program's own name. -/
def runCommandLine (words : List Path) (console : Console) (disk : Disk m) :
    m (Except UsageError Transcript) :=
  match Arguments.parse words with
  | .error error => return .error error
  | .ok arguments => return .ok (← arguments.runOn console disk)

end MarkerCopy
