import MarkerCopy.CommandLine.Program
import MarkerCopy.Proofs.Execution

/-! A run of the program is a run of the request that its arguments stand for. What it shows is
told by the end of that run. The diagnostics before it are added to the error stream only. -/

namespace MarkerCopy

open FileSystem

/-- The run of the request that arguments stand for. -/
def Arguments.run {m : Type → Type} [Monad m] (arguments : Arguments) (disk : Disk m) :
    ExceptT Failure m Outcome :=
  match arguments.request with
  | .error failure => throw failure
  | .ok request => disk.run request

/-- The diagnostics for arguments, as far as the copy comes. -/
def Arguments.notes (arguments : Arguments) (resolve : Path → Except Cause Path) : List String :=
  match arguments.request with
  | .error _ => []
  | .ok request =>
    match request.plan (resolve request.infile) with
    | .error _ => request.notes
    | .ok plan => request.notes ++ plan.notes

/-- What is shown of the end of a run. -/
def Console.ended (console : Console) (json quiet : Bool) : Except Failure Outcome → Transcript
  | .error failure => console.failed failure
  | .ok outcome => console.finished json quiet outcome

namespace Console

variable (console : Console) (verbose : Bool) (notes : List String) (transcript : Transcript)

theorem explain_nil : console.explain verbose [] transcript = transcript := by
  cases verbose with
  | false => rfl
  | true => simp [explain, lines]

@[simp] theorem exitCode_explain :
    (console.explain verbose notes transcript).exitCode = transcript.exitCode := by
  cases verbose <;> rfl

@[simp] theorem stdout_explain :
    (console.explain verbose notes transcript).stdout = transcript.stdout := by
  cases verbose <;> rfl

theorem exitCode_failed (failure : Failure) :
    (console.failed failure).exitCode = failure.exitCode := rfl

theorem exitCode_finished (json quiet : Bool) (outcome : Outcome) :
    (console.finished json quiet outcome).exitCode =
      if json ∧ outcome.json? = none then FailureKind.inputOutput.exitCode else 0 := by
  unfold finished
  cases json with
  | false => cases quiet <;> rfl
  | true => cases outcome.json? <;> rfl

end Console

namespace Arguments

variable {arguments : Arguments} {cwd : WorkingDirectory} {fs : FileSystem}

theorem run_of_error {failure : Failure} (h : arguments.request = .error failure) :
    (arguments.run (disk cwd)).run fs = (.error failure, fs) := by
  unfold run
  rw [h]
  rfl

theorem run_of_ok {request : Request} (h : arguments.request = .ok request) :
    arguments.run (disk cwd) = (disk cwd).run request := by
  unfold run
  rw [h]

end Arguments

/-- The program does what a run of the request does. Its end is all that is shown, apart from the
diagnostics. -/
theorem run_runOn (arguments : Arguments) (console : Console) (cwd : WorkingDirectory)
    (fs : FileSystem) :
    (arguments.runOn console (disk cwd)).run fs =
      (console.explain arguments.verbose (arguments.notes (fs.canonical cwd))
        (console.ended arguments.json arguments.quiet ((arguments.run (disk cwd)).run fs).1),
        ((arguments.run (disk cwd)).run fs).2) := by
  unfold Arguments.runOn Arguments.notes
  cases hr : arguments.request with
  | error failure =>
    rw [Arguments.run_of_error hr, Console.explain_nil]
    rfl
  | ok request =>
    have hplan : StateT.run ((disk cwd).plan request).run fs =
        (request.plan (fs.canonical cwd request.infile), fs) := run_plan cwd request fs
    dsimp only
    rw [Arguments.run_of_ok hr, run_bind, hplan]
    cases hp : request.plan (fs.canonical cwd request.infile) with
    | error failure =>
      rw [run_request_of_error hp]
      rfl
    | ok plan =>
      have hend : StateT.run ((disk cwd).execute request.dryRun plan).run fs =
          ((disk cwd).run request).run fs := (run_request_of_ok hp).symm
      dsimp only
      rw [run_bind, hend]
      cases (((disk cwd).run request).run fs).1 with
      | error failure => rfl
      | ok outcome => rfl

theorem run_runCommandLine_of_error {words : List Path} {error : UsageError}
    (h : Arguments.parse words = .error error) (console : Console) (cwd : WorkingDirectory)
    (fs : FileSystem) :
    (runCommandLine words console (disk cwd)).run fs = (.error error, fs) := by
  unfold runCommandLine
  rw [h]
  rfl

theorem run_runCommandLine_of_ok {words : List Path} {arguments : Arguments}
    (h : Arguments.parse words = .ok arguments) (console : Console) (cwd : WorkingDirectory)
    (fs : FileSystem) :
    (runCommandLine words console (disk cwd)).run fs =
      (.ok ((arguments.runOn console (disk cwd)).run fs).1,
        ((arguments.runOn console (disk cwd)).run fs).2) := by
  unfold runCommandLine
  rw [h]
  rfl

end MarkerCopy
