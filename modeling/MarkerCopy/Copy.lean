import MarkerCopy.Disk
import MarkerCopy.Plan

/-! How a copy is made: it is planned, the destination is checked, missing directories are made,
and the file is copied. Nothing is written before the check. -/

namespace MarkerCopy

structure Report where
  plan : Plan
  createdDir : Bool
  bytesCopied : Nat
deriving DecidableEq

inductive Outcome where
  /-- The end of a dry run. -/
  | planned (plan : Plan)
  | copied (report : Report)
deriving DecidableEq

namespace Disk

variable {m : Type → Type} [Monad m]

/-- An operation on files as a step of a copy. -/
def attempt {α : Type} (operation : FileOperation) (p : Path) (action : m (Except Cause α)) :
    ExceptT Failure m α :=
  ExceptT.mk do return (← action).mapError (Failure.file operation p)

def plan (disk : Disk m) (request : Request) : ExceptT Failure m Plan :=
  ExceptT.mk do return request.plan (← disk.canonical request.infile)

/-- Refuses a directory in whose place a file is. -/
def checkDestination (disk : Disk m) (dir : Path) : ExceptT Failure m Unit := do
  if (← disk.kind? dir) = some .file then throw (.destinationIsFile dir)

/-- Makes the destination directory if it is missing and copies the file into it. -/
def carryOut (disk : Disk m) (plan : Plan) : ExceptT Failure m Report := do
  disk.checkDestination plan.destinationDir
  let missing := (← disk.kind? plan.destinationDir).isNone
  if missing then
    attempt .createDirectory plan.destinationDir (disk.makeDirectories plan.destinationDir)
  let bytes ← attempt .copy plan.destinationFile (disk.copyFile plan.source plan.destinationFile)
  return { plan, createdDir := missing, bytesCopied := bytes }

/-- Carries out a plan, or only checks its destination in a dry run. -/
def execute (disk : Disk m) (dryRun : Bool) (plan : Plan) : ExceptT Failure m Outcome := do
  if dryRun then
    disk.checkDestination plan.destinationDir
    return .planned plan
  else return .copied (← disk.carryOut plan)

def run (disk : Disk m) (request : Request) : ExceptT Failure m Outcome := do
  disk.execute request.dryRun (← disk.plan request)

/-- A copy in one call. The flag tells whether the file is external. -/
def copyBelow (disk : Disk m) (infile outdir flag : String) : ExceptT Failure m Report := do
  match Marker.ofFlag? flag with
  | none => throw (.invalidFlag flag)
  | some marker =>
    let request := { infile := .ofString infile, outdir, marker, dryRun := false }
    disk.carryOut (← disk.plan request)

end Disk

end MarkerCopy
