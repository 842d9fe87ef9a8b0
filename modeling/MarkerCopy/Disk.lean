import MarkerCopy.FileSystem.Canonical
import MarkerCopy.FileSystem.Change
import MarkerCopy.Path.Components

/-! What a copy asks of the place where files are kept. `FileSystem.disk` answers from a file
system that is a value, so that whatever is written over a `Disk` can be reasoned about. -/

namespace MarkerCopy

inductive Kind where
  | file
  | directory
  /-- Neither, such as a device. A `FileSystem` has none (`FileSystem.kind?_ne_other`). -/
  | other
deriving DecidableEq

structure Disk (m : Type → Type) where
  /-- The absolute path, without links and idle segments, of an entry. -/
  canonical : Path → m (Except Cause Path)
  /-- What is there, links followed. All failures look alike. -/
  kind? : Path → m (Option Kind)
  makeDirectory : Path → m (Except Cause Unit)
  /-- Copies a file with its permissions and gives the number of bytes. -/
  copyFile : (source target : Path) → m (Except Cause Nat)

namespace Disk

variable {m : Type → Type} [Monad m]

/-- The failure to make a directory, unless one is there already. -/
def unlessDirectory (disk : Disk m) (p : Path) (cause : Cause) : m (Except Cause Unit) := do
  return if (← disk.kind? p) = some .directory then .ok () else .error cause

/-- Makes a directory. If something above it is missing, that is made by `above` first. -/
def makeBelow (disk : Disk m) (above : Unit → m (Except Cause Unit)) (p : Path) :
    m (Except Cause Unit) := do
  if p.isEmpty then return .ok ()
  match ← disk.makeDirectory p with
  | .ok () => return .ok ()
  | .error (.system .noEntry) =>
    match ← above () with
    | .error cause => return .error cause
    | .ok () =>
      match ← disk.makeDirectory p with
      | .ok () => return .ok ()
      | .error cause => disk.unlessDirectory p cause
  | .error cause => disk.unlessDirectory p cause

/-- Makes the first directory of a list, of which the rest is above it. -/
def makeFirst (disk : Disk m) : List Path → m (Except Cause Unit)
  | [] => return .ok ()
  | p :: above => disk.makeBelow (fun _ => disk.makeFirst above) p

/-- Makes a directory and all that is missing above it. What was made before a failure stays. -/
def makeDirectories (disk : Disk m) (p : Path) : m (Except Cause Unit) :=
  disk.makeBelow (fun _ => disk.makeFirst p.ancestors) p

end Disk

namespace FileSystem

def kind? (fs : FileSystem) (cwd : WorkingDirectory) (p : Path) : Option Kind :=
  match fs.locate cwd .find p with
  | .ok (.occupied loc) =>
    match fs.get? loc with
    | some (.file _ _) => some .file
    | some (.directory _) => some .directory
    | some (.link _) => some .other
    | none => none
  | .ok (.removed _) => some .directory
  | _ => none

/-- The file system as a process in the directory `cwd` sees it. The process may do everything and
is alone with the file system: nothing is refused for want of a permission, and once a file is open,
reading and writing it do not fail. -/
def disk (cwd : WorkingDirectory) : Disk (StateM FileSystem) where
  canonical p := fun fs => (fs.canonical cwd p, fs)
  kind? p := fun fs => (fs.kind? cwd p, fs)
  makeDirectory p := fun fs => fs.makeDirectory cwd p
  copyFile source target := fun fs => fs.copyFile cwd source target

end FileSystem

end MarkerCopy
