import MarkerCopy.FileSystem.Walk

/-! The one absolute path of an entry, with neither links nor idle segments. It is built name by
name, and every name is looked up by what has been built. So that has to fit the limit for paths,
and the path which is given has not. -/

namespace MarkerCopy

/-- Whether the steps after a name hold it to be a directory: they end without another name, or
turn back. -/
def Step.expectDirectory (rest : List Step) : Bool :=
  match rest.dropWhile Step.isIdle with
  | [] => !rest.isEmpty
  | step :: _ => step == .up

namespace Location

/-- Whether the path of a name in a directory is too long to be looked up, possibly with a slash
at its end. -/
def overflows (dir : Location) (name : List UInt8) (slash : Bool) : Bool :=
  pathLimit ≤ (dir.text ++ Path.slash :: name).length + slash.toNat

end Location

namespace FileSystem

/-- Follows the steps from `loc` up to the first link. An entry is asked to be a directory if the
rest expects one, and otherwise not before a name is looked up in it. -/
def advanceCanonically (fs : FileSystem) (loc : Location) :
    List Step → Except Errno (Stop Location)
  | [] => .ok (.done loc)
  | step :: rest =>
    match step with
    | .blank | .here => fs.advanceCanonically loc rest
    | .up => fs.advanceCanonically loc.tail rest
    | .unusable segment =>
      .error (
        if fs.isDirectory loc ∨ loc.overflows segment (Step.expectDirectory rest) then .nameTooLong
        else .notDirectory)
    | .name name =>
      if loc.overflows name.bytes false then .error .nameTooLong
      else
        match fs.get? (name :: loc) with
        | some (.link target) => .ok (.link loc target rest)
        | found =>
          if loc.overflows name.bytes (Step.expectDirectory rest) then .error .nameTooLong
          else if ¬ fs.isDirectory loc then .error .notDirectory
          else
            match found with
            | none => .error .noEntry
            | some entry =>
              if Step.expectDirectory rest ∧ ¬ entry.isDirectory then .error .notDirectory
              else fs.advanceCanonically (name :: loc) rest

/-- The canonical path of the entry that a path means. There is none below a directory that was
removed, not even for a relative path that leads out of it. -/
def canonical (fs : FileSystem) (cwd : WorkingDirectory) (p : Path) : Except Cause Path :=
  if 0 ∈ p.bytes then .error .nulByte
  else if p.isEmpty then .error (.system .noEntry)
  else if ¬ p.isAbsolute ∧ cwd.removed ≠ 0 then .error (.system .noEntry)
  else
    match follow fs.advanceCanonically linkLimit (if p.isAbsolute then [] else cwd.above)
        p.steps with
    | .error errno => .error (.system errno)
    | .ok loc => .ok loc.path

end FileSystem

end MarkerCopy
