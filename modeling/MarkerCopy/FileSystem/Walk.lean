import MarkerCopy.FileSystem.Basic
import MarkerCopy.FileSystem.Cause
import MarkerCopy.FileSystem.WorkingDirectory

/-! How a path leads to a place. A walk takes the segments of a path one by one and goes on along
the target where it meets a link, at most 40 times. What it is for decides about the last name. -/

namespace MarkerCopy

/-- A segment of a path, seen by a walk. -/
inductive Step where
  /-- An empty segment. -/
  | blank
  /-- A single dot. -/
  | here
  /-- A double dot. -/
  | up
  | name (name : Name)
  /-- A name that no entry can have. -/
  | unusable (segment : List UInt8)
deriving DecidableEq

def Step.ofSegment (segment : List UInt8) : Step :=
  if segment = [] then .blank
  else if segment = [Path.dot] then .here
  else if segment = [Path.dot, Path.dot] then .up
  else if h : Name.Valid segment then .name ⟨segment, h⟩
  else .unusable segment

/-- Whether a step stays where it is. -/
def Step.isIdle (step : Step) : Bool :=
  step == .blank || step == .here

def Path.steps (p : Path) : List Step :=
  p.segments.map Step.ofSegment

/-- Where a walk pauses: at its end, or at a link with the steps that are left. -/
inductive Stop (End : Type) where
  | done (result : End)
  | link (dir : Location) (target : Path) (rest : List Step)

/-- The length that every path stays below. -/
def pathLimit : Nat :=
  4096

def linkLimit : Nat :=
  40

/-- Follows the steps from `loc` and no more than `links` links. A walk up to a link is one call of
`advance`. -/
def follow {End : Type} (advance : Location → List Step → Except Errno (Stop End)) (links : Nat)
    (loc : Location) (steps : List Step) : Except Errno End :=
  match advance loc steps with
  | .error errno => .error errno
  | .ok (.done result) => .ok result
  | .ok (.link dir target rest) =>
    match links with
    | 0 => .error .tooManyLinks
    | links + 1 =>
      follow advance links (if target.isAbsolute then [] else dir) (target.steps ++ rest)

inductive Purpose where
  /-- To find what is there. -/
  | find
  /-- To open a file for writing, which may have to be created. -/
  | write
  /-- To make a new entry. -/
  | make
deriving DecidableEq

namespace Purpose

/-- Whether the name before `rest` is the one which the purpose is about. A new entry may be
spelled with slashes at the end. -/
def endsBefore (purpose : Purpose) (rest : List Step) : Bool :=
  rest.isEmpty || purpose == .make && rest.all (· == .blank)

/-- Whether the purpose forbids the slashes after the last name. -/
def refusesSlash (purpose : Purpose) (rest : List Step) : Bool :=
  purpose == .write && !rest.isEmpty && rest.all (· == .blank)

/-- Whether the last name may be free. -/
def allowsVacant (purpose : Purpose) : Bool :=
  purpose == .write || purpose == .make

end Purpose

/-- The end of a walk. -/
inductive Place where
  | occupied (loc : Location)
  | vacant (dir : Location) (name : Name)
  /-- A directory that is in no place any more. -/
  | removed (dir : WorkingDirectory)
deriving DecidableEq

namespace FileSystem

/-- Follows the steps from `loc` up to the first link. Steps lead on from directories only. -/
def advance (fs : FileSystem) (purpose : Purpose) (loc : Location) :
    List Step → Except Errno (Stop Place)
  | [] => .ok (.done (.occupied loc))
  | step :: rest =>
    if ¬ fs.isDirectory loc then .error (if (fs.get? loc).isSome then .notDirectory else .noEntry)
    else
      match step with
      | .blank | .here => fs.advance purpose loc rest
      | .up => fs.advance purpose loc.tail rest
      | .unusable _ => .error (if purpose.refusesSlash rest then .isDirectory else .nameTooLong)
      | .name name =>
        if purpose.refusesSlash rest then .error .isDirectory
        else
          match fs.get? (name :: loc) with
          | none =>
            if purpose.allowsVacant && purpose.endsBefore rest then .ok (.done (.vacant loc name))
            else .error .noEntry
          | some entry =>
            if purpose == .make && purpose.endsBefore rest then
              .ok (.done (.occupied (name :: loc)))
            else
              match entry with
              | .link target => .ok (.link loc target rest)
              | _ => fs.advance purpose (name :: loc) rest

def walk (fs : FileSystem) (purpose : Purpose) (loc : Location) (steps : List Step) :
    Except Errno Place :=
  follow (fs.advance purpose) linkLimit loc steps

/-- Follows the steps from a directory that is `removed` levels below `above`. What was removed
holds no entry, but still leads up. -/
def walkOut (fs : FileSystem) (purpose : Purpose) (above : Location) :
    (removed : Nat) → List Step → Except Errno Place
  | 0, steps => fs.walk purpose above steps
  | removed + 1, [] => .ok (.removed ⟨above, removed + 1⟩)
  | removed + 1, step :: rest =>
    match step with
    | .blank | .here => fs.walkOut purpose above (removed + 1) rest
    | .up => fs.walkOut purpose above removed rest
    | .name _ | .unusable _ =>
      .error (if purpose.refusesSlash rest then .isDirectory else .noEntry)

/-- The place that a path means to a process in the directory `cwd`. -/
def locate (fs : FileSystem) (cwd : WorkingDirectory) (purpose : Purpose) (p : Path) :
    Except Cause Place :=
  if 0 ∈ p.bytes then .error .nulByte
  else if p.isEmpty then .error (.system .noEntry)
  else if pathLimit ≤ p.bytes.length then .error (.system .nameTooLong)
  else
    (if p.isAbsolute then fs.walk purpose [] p.steps
      else fs.walkOut purpose cwd.above cwd.removed p.steps).mapError Cause.system

/-- Where a process is after it went to the directory that a path means. -/
def enter (fs : FileSystem) (cwd : WorkingDirectory) (p : Path) : Except Cause WorkingDirectory :=
  match fs.locate cwd .find p with
  | .error cause => .error cause
  | .ok (.occupied loc) =>
    if fs.isDirectory loc then .ok (.ofLocation loc) else .error (.system .notDirectory)
  | .ok (.vacant _ _) => .error (.system .noEntry)
  | .ok (.removed dir) => .ok dir

end FileSystem

end MarkerCopy
