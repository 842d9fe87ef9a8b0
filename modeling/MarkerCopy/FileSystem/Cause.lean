import MarkerCopy.FileSystem.Errno

/-! Why an operation on files fails. -/

namespace MarkerCopy

inductive Cause where
  | system (errno : Errno)
  /-- No path with a NUL byte reaches the operating system. -/
  | nulByte
  /-- Only a regular file can be copied. -/
  | notRegularFile
  /-- Anything else, in words. -/
  | other (description : String)
deriving DecidableEq

def Cause.message : Cause → String
  | .system errno => s!"{errno.description} (os error {errno.code})"
  | .nulByte => "file name contained an unexpected NUL byte"
  | .notRegularFile => "the source path is neither a regular file nor a symlink to a regular file"
  | .other description => description

end MarkerCopy
