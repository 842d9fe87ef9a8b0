import MarkerCopy.FileSystem.Walk

/-! Operations that change a file system. Each gives its result together with the file system
after it, which is the one before it if the operation fails. -/

namespace MarkerCopy.FileSystem

/-- Puts an entry where nothing is. A link that leads nowhere is something. -/
def make (fs : FileSystem) (cwd : WorkingDirectory) (p : Path) (entry : Entry) :
    Except Cause Unit × FileSystem :=
  match fs.locate cwd .make p with
  | .error cause => (.error cause, fs)
  | .ok (.vacant dir name) => (.ok (), fs.put (name :: dir) entry)
  | .ok _ => (.error (.system .alreadyExists), fs)

def makeDirectory (fs : FileSystem) (cwd : WorkingDirectory) (p : Path) :
    Except Cause Unit × FileSystem :=
  fs.make cwd p (.directory .forDirectory)

/-- Makes a link. Its target need not exist. -/
def makeLink (fs : FileSystem) (cwd : WorkingDirectory) (p target : Path) :
    Except Cause Unit × FileSystem :=
  fs.make cwd p (.link target)

/-- The location of the file that writing to a path changes or creates. -/
def writable (fs : FileSystem) (cwd : WorkingDirectory) (p : Path) : Except Cause Location :=
  match fs.locate cwd .write p with
  | .error cause => .error cause
  | .ok (.occupied loc) =>
    if fs.isDirectory loc then .error (.system .isDirectory) else .ok loc
  | .ok (.vacant dir name) => .ok (name :: dir)
  | .ok (.removed _) => .error (.system .isDirectory)

def writeFile (fs : FileSystem) (cwd : WorkingDirectory) (p : Path) (content : ByteArray)
    (permissions : Permissions) : Except Cause Unit × FileSystem :=
  match fs.writable cwd p with
  | .error cause => (.error cause, fs)
  | .ok loc => (.ok (), fs.put loc (.file content permissions))

/-- What can be read at a location; nothing unless a file is there. -/
def content (fs : FileSystem) (loc : Location) : ByteArray :=
  match fs.get? loc with
  | some (.file content _) => content
  | _ => ByteArray.empty

/-- The location of the file that a path means, with its permissions. -/
def readable (fs : FileSystem) (cwd : WorkingDirectory) (p : Path) :
    Except Cause (Location × Permissions) :=
  match fs.locate cwd .find p with
  | .error cause => .error cause
  | .ok (.occupied loc) =>
    match fs.get? loc with
    | some (.file _ permissions) => .ok (loc, permissions)
    | _ => .error .notRegularFile
  | .ok _ => .error .notRegularFile

/-- Copies a file with its permissions and gives the number of bytes. The target is emptied before
the source is read, so a file that is copied onto itself loses its content. -/
def copyFile (fs : FileSystem) (cwd : WorkingDirectory) (source target : Path) :
    Except Cause Nat × FileSystem :=
  match fs.readable cwd source with
  | .error cause => (.error cause, fs)
  | .ok (src, permissions) =>
    match fs.writable cwd target with
    | .error cause => (.error cause, fs)
    | .ok loc =>
      let opened := fs.put loc (.file ByteArray.empty permissions)
      let content := opened.content src
      (.ok content.size, opened.put loc (.file content permissions))

/-- Removes an entry and all that is below it, which may take the working directory with it. A link
is removed, not followed. -/
def removeAll (fs : FileSystem) (cwd : WorkingDirectory) (p : Path) :
    Except Cause Unit × FileSystem × WorkingDirectory :=
  match fs.locate cwd .make p with
  | .error cause => (.error cause, fs, cwd)
  | .ok (.occupied loc) => (.ok (), fs.remove loc, cwd.afterRemoval loc)
  | .ok _ => (.error (.system .noEntry), fs, cwd)

/-- The way up from a working directory never ends in a place where no directory is. -/
theorem isDirectory_above_afterRemoval {fs : FileSystem} {cwd : WorkingDirectory}
    (h : fs.isDirectory cwd.above) (loc : Location) :
    (fs.remove loc).isDirectory (cwd.afterRemoval loc).above := by
  by_cases hn : loc = []
  · simpa [remove, WorkingDirectory.afterRemoval, hn] using h
  · by_cases hs : loc <:+ cwd.above
    · have hdir := isDirectory_of_suffix ((List.tail_suffix loc).trans hs) h
      have hlt : ¬ loc <:+ loc.tail := by
        intro hc
        have hpos := List.length_pos_iff.mpr hn
        have hle := hc.length_le
        rw [List.length_tail] at hle
        omega
      simpa [WorkingDirectory.afterRemoval, hn, hs, isDirectory, get?_remove, hlt] using hdir
    · simpa [WorkingDirectory.afterRemoval, hs, isDirectory, get?_remove hn] using h

end MarkerCopy.FileSystem
