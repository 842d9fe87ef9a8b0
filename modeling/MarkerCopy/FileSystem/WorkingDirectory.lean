import MarkerCopy.FileSystem.Location

/-! Where a process is. Its directory can be removed under it. The process stays there, in a
directory that nothing can be put into, from which the only way is up. A new entry in the old
place is another one. -/

namespace MarkerCopy

/-- A directory that is `removed` levels below the location `above`. None of these levels is left,
so `above` is the directory itself only if there are none. -/
structure WorkingDirectory where
  above : Location
  removed : Nat
deriving DecidableEq

namespace WorkingDirectory

/-- A directory that is still in its place. -/
def ofLocation (loc : Location) : WorkingDirectory :=
  ⟨loc, 0⟩

/-- What becomes of a directory when the entry at `loc` is removed with all that is below it. -/
def afterRemoval (dir : WorkingDirectory) (loc : Location) : WorkingDirectory :=
  if loc ≠ [] ∧ loc <:+ dir.above then
    ⟨loc.tail, dir.removed + (dir.above.length - loc.tail.length)⟩
  else dir

end WorkingDirectory

end MarkerCopy
