import MarkerCopy.CommandLine.Program
import MarkerCopy.CommandLine.Usage

/-! The command line on the file system of the machine. Here alone the files are real ones: their
permissions cannot be read, so a new file gets those that the process gives to every new file. -/

namespace MarkerCopy.Machine

def osCode? : IO.Error → Option UInt32
  | .alreadyExists _ code _ | .noFileOrDirectory _ code _ | .invalidArgument _ code _
  | .permissionDenied _ code _ | .resourceExhausted _ code _ | .inappropriateType _ code _
  | .noSuchThing _ code _ | .interrupted _ code _ => some code
  | .otherError code _ | .resourceBusy code _ | .resourceVanished code _
  | .unsupportedOperation code _ | .hardwareFault code _ | .unsatisfiedConstraints code _
  | .illegalOperation code _ | .protocolError code _ | .timeExpired code _ => some code
  | .unexpectedEof | .userError _ => none

def causeOf (error : IO.Error) : Cause :=
  match osCode? error with
  | some code => .system ⟨code.toNat⟩
  | none => .other error.toString

/-- Runs an action on the text of a path. -/
def onText {α : Type} (p : Path) (action : String → IO α) : IO (Except Cause α) :=
  if 0 ∈ p.bytes then return .error .nulByte
  else
    match p.text? with
    | none => return .error (.other "path is not valid UTF-8")
    | some text => do
      try return .ok (← action text)
      catch error => return .error (causeOf error)

def kindOf (text : String) : IO Kind := do
  let metadata ← (← IO.FS.realPath ⟨text⟩).metadata
  match metadata.type with
  | .file => return .file
  | .dir => return .directory
  | _ => return .other

/-- Copies the bytes of one open file to another. -/
def copyBytes (source target : String) : IO Nat := do
  let input ← IO.FS.Handle.mk ⟨source⟩ .read
  let output ← IO.FS.Handle.mk ⟨target⟩ .write
  let bytes ← input.readBinToEnd
  output.write bytes
  output.flush
  return bytes.size

def copyFile (source target : Path) : IO (Except Cause Nat) := do
  match ← onText source kindOf with
  | .error cause => return .error cause
  | .ok .file =>
    match source.text?, target.text? with
    | some text, some _ => onText target (copyBytes text)
    | _, _ => return .error (.other "path is not valid UTF-8")
  | .ok _ => return .error .notRegularFile

/-- The files of the machine, as this process sees them. -/
def disk : Disk IO where
  canonical p := onText p fun text => return .ofString (← IO.FS.realPath ⟨text⟩).toString
  kind? p := return (← onText p kindOf).toOption
  makeDirectory p := onText p fun text => IO.FS.createDir ⟨text⟩
  copyFile := copyFile

def isColored (stream : IO.FS.Stream) : IO Bool := do
  let noColor := (← IO.getEnv "NO_COLOR").isSome
  return Console.shouldUseColor (← stream.isTty) noColor

end MarkerCopy.Machine

open MarkerCopy in
def main (words : List String) : IO UInt32 := do
  let stdout ← IO.getStdout
  let stderr ← IO.getStderr
  let console : Console := ⟨← Machine.isColored stdout, ← Machine.isColored stderr⟩
  match ← runCommandLine (words.map Path.ofString) console Machine.disk with
  | .error error =>
    let stream := if error.exitCode = 0 then stdout else stderr
    stream.putStr error.text
    return error.exitCode.toUInt32
  | .ok transcript =>
    stdout.putStr transcript.stdout
    stderr.putStr transcript.stderr
    return transcript.exitCode.toUInt32
