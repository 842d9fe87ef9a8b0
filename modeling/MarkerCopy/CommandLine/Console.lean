import MarkerCopy.Report

/-! What the program writes to its two streams. Each line begins with a sign, which is coloured on
a terminal. -/

namespace MarkerCopy

/-- Which streams are coloured. -/
structure Console where
  stdout : Bool
  stderr : Bool
deriving DecidableEq

/-- All that a run of the program shows. -/
structure Transcript where
  exitCode : Nat
  stdout : String
  stderr : String
deriving DecidableEq

/-- The signs before the lines. -/
inductive Sign where
  | success
  | warning
  | diagnostic
  | failure

namespace Sign

def text : Sign → String
  | success => "✓"
  | warning => "⚠"
  | diagnostic => "·"
  | failure => "✗"

/-- The terminal's code for green, yellow, dim and red. -/
def colorCode : Sign → Nat
  | success => 32
  | warning => 33
  | diagnostic => 2
  | failure => 31

def line (sign : Sign) (colored : Bool) (message : String) : String :=
  if colored then s!"\x1b[{sign.colorCode}m{sign.text}\x1b[0m {message}"
  else s!"{sign.text} {message}"

end Sign

namespace Console

/-- A terminal is coloured unless the user wants none. -/
def shouldUseColor (isTerminal noColor : Bool) : Bool :=
  isTerminal && !noColor

def successLine (console : Console) (message : String) : String :=
  Sign.success.line console.stdout message

def warningLine (console : Console) (message : String) : String :=
  Sign.warning.line console.stderr message

def diagnosticLine (console : Console) (message : String) : String :=
  Sign.diagnostic.line console.stderr message

def errorLine (console : Console) (message : String) : String :=
  Sign.failure.line console.stderr message

/-- Lines of a stream. -/
def lines (messages : List String) : String :=
  messages.foldr (fun message rest => message ++ "\n" ++ rest) ""

end Console

/-- What may help the user, one paragraph each. -/
def Failure.hints (failure : Failure) : List String :=
  tip ++ if failure.kind = .validation then ["Try 'pathmirror --help' for usage information."] else []
where
  tip : List String :=
    match failure with
    | .markerNotFound _ _ =>
      ["Tip: Use --extern yes for files under cpwn_extern/ and --extern no for files under src/"]
    | .destinationIsFile path => [s!"Tip: Remove {path.display} or choose another --outdir"]
    | _ => []

namespace Console

/-- The end of a run that fails. -/
def failed (console : Console) (failure : Failure) : Transcript where
  exitCode := failure.exitCode
  stdout := ""
  stderr := lines (console.errorLine failure.userMessage :: failure.hints.map ("\n" ++ ·))

/-- The end of a run that succeeds, or that is asked for JSON and cannot give it. -/
def finished (console : Console) (json quiet : Bool) (outcome : Outcome) : Transcript :=
  if json then
    match outcome.json? with
    | some text => ⟨0, lines [text], ""⟩
    | none => ⟨FailureKind.inputOutput.exitCode, "", lines [console.errorLine notJsonMessage]⟩
  else if quiet then ⟨0, "", ""⟩
  else ⟨0, lines [console.successLine outcome.line], lines (warnings outcome)⟩
where
  warnings : Outcome → List String
    | .planned _ => [console.warningLine "Dry run: nothing was written"]
    | .copied _ => []

end Console

end MarkerCopy
