import MarkerCopy.Proofs.Program

/-! What goes to which stream. A run that fails says so on the error stream and leaves the other one
empty. A run that succeeds gives its answer there and nothing else. -/

namespace MarkerCopy

open FileSystem

theorem Failure.exitCode_ne_zero (failure : Failure) : failure.exitCode ≠ 0 := by
  unfold exitCode
  cases failure.kind <;> decide

namespace Console

variable {console : Console} {json quiet : Bool} {result : Except Failure Outcome}

theorem successLine_plain (message : String) :
    successLine ⟨false, false⟩ message = "✓ " ++ message := rfl

theorem errorLine_plain (message : String) :
    errorLine ⟨false, false⟩ message = "✗ " ++ message := rfl

theorem diagnosticLine_plain : diagnosticLine ⟨false, false⟩ = ("· " ++ ·) := by
  funext message
  rfl

theorem lines_nil : lines [] = "" := rfl

theorem lines_cons (message : String) (messages : List String) :
    lines (message :: messages) = message ++ "\n" ++ lines messages := rfl

theorem lines_singleton (message : String) : lines [message] = message ++ "\n" := by
  simp [lines]

theorem ended_of_exitCode_ne_zero (h : (console.ended json quiet result).exitCode ≠ 0) :
    (console.ended json quiet result).stdout = "" ∧
    ∃ message rest,
      (console.ended json quiet result).stderr = console.errorLine message ++ "\n" ++ rest ∧
      ((∃ failure, result = .error failure ∧ message = failure.userMessage) ∨
        ∃ outcome, result = .ok outcome ∧ json ∧ outcome.json? = none ∧
          message = notJsonMessage) := by
  cases result with
  | error failure =>
    exact ⟨rfl, failure.userMessage, _, lines_cons _ _, .inl ⟨failure, rfl, rfl⟩⟩
  | ok outcome =>
    rw [ended, exitCode_finished] at h
    obtain ⟨hjson, htext⟩ : json ∧ outcome.json? = none := by
      by_contra hc
      exact h (if_neg hc)
    have hend : console.ended json quiet (.ok outcome) =
        ⟨FailureKind.inputOutput.exitCode, "", lines [console.errorLine notJsonMessage]⟩ := by
      simp [ended, finished, hjson, htext]
    rw [hend]
    exact ⟨rfl, notJsonMessage, _, lines_cons _ _, .inr ⟨outcome, rfl, hjson, htext, rfl⟩⟩

theorem ended_of_exitCode_eq_zero (h : (console.ended json quiet result).exitCode = 0) :
    ∃ outcome, result = .ok outcome ∧
      (json → ∃ text, outcome.json? = some text ∧
        console.ended json quiet result = ⟨0, text ++ "\n", ""⟩) ∧
      (¬ json → console.ended json quiet result =
        if quiet then ⟨0, "", ""⟩
        else ⟨0, console.successLine outcome.line ++ "\n",
          lines (finished.warnings console outcome)⟩) := by
  cases result with
  | error failure => exact absurd h failure.exitCode_ne_zero
  | ok outcome =>
    refine ⟨outcome, rfl, ?_, ?_⟩
    · intro hj
      cases ht : outcome.json? with
      | none =>
        rw [ended, exitCode_finished, if_pos ⟨hj, ht⟩] at h
        cases h
      | some text => exact ⟨text, rfl, by simp [ended, finished, hj, ht, lines_singleton]⟩
    · intro hj
      cases quiet <;> simp [ended, finished, hj, lines_singleton]

theorem lines_warnings_plain {outcome : Outcome} {dryRun : Bool}
    (h : (∃ plan, outcome = .planned plan) ↔ dryRun) :
    lines (finished.warnings ⟨false, false⟩ outcome) =
      if dryRun then "⚠ Dry run: nothing was written\n" else "" := by
  cases outcome with
  | planned plan =>
    rw [if_pos (h.mp ⟨plan, rfl⟩)]
    rfl
  | copied report =>
    have hdry : ¬ dryRun := fun hd => by
      obtain ⟨plan, hplan⟩ := h.mpr hd
      cases hplan
    rw [if_neg hdry]
    rfl

theorem stderr_explain (console : Console) (verbose : Bool) (notes : List String)
    (transcript : Transcript) :
    (console.explain verbose notes transcript).stderr =
      lines ((if verbose then notes else []).map console.diagnosticLine) ++ transcript.stderr := by
  cases verbose with
  | false => exact String.empty_append.symm
  | true => rfl

end Console

namespace FileSystem

variable {fs : FileSystem} {cwd : WorkingDirectory} {request : Request} {outcome : Outcome}

/-- A plan is the end of a dry run, and of no other. -/
theorem planned_iff_of_run (h : (((disk cwd).run request).run fs).1 = .ok outcome) :
    (∃ plan, outcome = .planned plan) ↔ request.dryRun := by
  cases hp : request.plan (fs.canonical cwd request.infile) with
  | error failure =>
    rw [run_request_of_error hp] at h
    cases h
  | ok plan =>
    rw [run_request_of_ok hp] at h
    rcases outcome_of_execute h with ⟨hdry, rfl⟩ | ⟨hdry, report, rfl, -⟩
    · simp [hdry]
    · simp [hdry]

end FileSystem

namespace Arguments

variable {arguments : Arguments} {cwd : WorkingDirectory} {fs : FileSystem} {outcome : Outcome}

theorem dryRun_of_request {request : Request} (h : arguments.request = .ok request) :
    request.dryRun = arguments.dryRun := by
  unfold Arguments.request at h
  split at h
  · cases h
  · dsimp only at h
    split at h
    · cases h
    · cases h
      rfl

theorem planned_iff_of_run (h : ((arguments.run (disk cwd)).run fs).1 = .ok outcome) :
    (∃ plan, outcome = .planned plan) ↔ arguments.dryRun := by
  cases hq : arguments.request with
  | error failure =>
    rw [run_of_error hq] at h
    cases h
  | ok request =>
    rw [run_of_ok hq] at h
    rw [← dryRun_of_request hq]
    exact FileSystem.planned_iff_of_run h

theorem length_notes_of_error {failure : Failure} (h : arguments.request = .error failure)
    (resolve : Path → Except Cause Path) : (arguments.notes resolve).length = 0 := by
  unfold notes
  rw [h]
  rfl

theorem length_notes_of_plan_error {resolve : Path → Except Cause Path} {request : Request}
    {failure : Failure} (h : arguments.request = .ok request)
    (hp : request.plan (resolve request.infile) = .error failure) :
    (arguments.notes resolve).length = 1 := by
  simp only [notes, h, hp]
  rfl

theorem length_notes_of_plan {resolve : Path → Except Cause Path} {request : Request}
    {plan : Plan} (h : arguments.request = .ok request)
    (hp : request.plan (resolve request.infile) = .ok plan) :
    (arguments.notes resolve).length = 3 := by
  simp only [notes, h, hp]
  rfl

end Arguments

/-- Where no stream is coloured, a run that fails leaves the output stream empty and says why on the
error stream. A run that succeeds writes only its answer to the output stream, and to the error
stream at most the warning of a dry run. Diagnostics come before what is on the error stream
anyway. -/
theorem stream_discipline {words : List Path} {arguments : Arguments}
    (h : Arguments.parse words = .ok arguments) (cwd : WorkingDirectory) (fs : FileSystem) :
    ∃ shown after,
      (runCommandLine words ⟨false, false⟩ (disk cwd)).run fs = (.ok shown, after) ∧
      (shown.exitCode ≠ 0 →
        shown.stdout = "" ∧
        ∃ (notes : List String) (message rest : String), (¬ arguments.verbose → notes = []) ∧
          shown.stderr =
            Console.lines (notes.map ("· " ++ ·)) ++ ("✗ " ++ message ++ "\n") ++ rest ∧
          ((∃ failure, ((arguments.run (disk cwd)).run fs).1 = .error failure ∧
            message = failure.userMessage) ∨
          ∃ outcome, ((arguments.run (disk cwd)).run fs).1 = .ok outcome ∧ arguments.json ∧
            outcome.json? = none ∧ message = notJsonMessage)) ∧
      (shown.exitCode = 0 →
        ∃ outcome, ((arguments.run (disk cwd)).run fs).1 = .ok outcome ∧
          ((∃ plan, outcome = .planned plan) ↔ arguments.dryRun) ∧
          (arguments.json → ∃ text, outcome.json? = some text ∧ shown.stdout = text ++ "\n") ∧
          (¬ arguments.json → shown.stdout =
            if arguments.quiet then "" else "✓ " ++ outcome.line ++ "\n")) ∧
      (shown.exitCode = 0 → ¬ arguments.verbose → shown.stderr =
        if arguments.dryRun ∧ ¬ arguments.json ∧ ¬ arguments.quiet then
          "⚠ Dry run: nothing was written\n"
        else "") ∧
      ∀ words', ¬ arguments.verbose →
        Arguments.parse words' = .ok { arguments with verbose := true } →
        ∃ (shown' : Transcript) (notes : List String),
          (runCommandLine words' ⟨false, false⟩ (disk cwd)).run fs = (.ok shown', after) ∧
          shown'.stdout = shown.stdout ∧ shown'.exitCode = shown.exitCode ∧
          shown'.stderr = Console.lines (notes.map ("· " ++ ·)) ++ shown.stderr ∧
          (∀ failure, arguments.request = .error failure → notes.length = 0) ∧
          (∀ request failure, arguments.request = .ok request →
            request.plan (fs.canonical cwd request.infile) = .error failure → notes.length = 1) ∧
          (∀ request plan, arguments.request = .ok request →
            request.plan (fs.canonical cwd request.infile) = .ok plan → notes.length = 3) := by
  have hrun := run_runCommandLine_of_ok h ⟨false, false⟩ cwd fs
  rw [run_runOn] at hrun
  refine ⟨_, _, hrun, ?_, ?_, ?_, ?_⟩
  · intro hcode
    rw [Console.exitCode_explain] at hcode
    obtain ⟨hout, message, rest, herr, hwhy⟩ := Console.ended_of_exitCode_ne_zero hcode
    rw [Console.stdout_explain, Console.stderr_explain, herr, Console.errorLine_plain,
      Console.diagnosticLine_plain]
    exact ⟨hout, _, message, rest, fun hv => if_neg hv, (String.append_assoc ..).symm, hwhy⟩
  · intro hcode
    rw [Console.exitCode_explain] at hcode
    obtain ⟨outcome, hresult, hjson, htext⟩ := Console.ended_of_exitCode_eq_zero hcode
    refine ⟨outcome, hresult, Arguments.planned_iff_of_run hresult, ?_, ?_⟩
    · intro hj
      obtain ⟨text, ht, hend⟩ := hjson hj
      exact ⟨text, ht, by rw [Console.stdout_explain, hend]⟩
    · intro hj
      rw [Console.stdout_explain, htext hj]
      split
      · rfl
      · rw [Console.successLine_plain]
  · intro hcode hverbose
    rw [Console.exitCode_explain] at hcode
    obtain ⟨outcome, hresult, hjson, htext⟩ := Console.ended_of_exitCode_eq_zero hcode
    have hplanned := Arguments.planned_iff_of_run hresult
    rw [Console.stderr_explain, if_neg hverbose, List.map_nil, Console.lines_nil,
      String.empty_append]
    by_cases hj : arguments.json
    · obtain ⟨text, -, hend⟩ := hjson hj
      rw [hend]
      simp [hj]
    · rw [htext hj]
      cases arguments.quiet <;> simp [hj, Console.lines_warnings_plain hplanned]
  · intro words' hverbose h'
    have hrun' := run_runCommandLine_of_ok h' ⟨false, false⟩ cwd fs
    rw [run_runOn] at hrun'
    -- the run does not depend on the flag
    have hsame : ({ arguments with verbose := true } : Arguments).run (disk cwd) =
      arguments.run (disk cwd) := rfl
    rw [hsame] at hrun'
    refine ⟨_, arguments.notes (fs.canonical cwd), hrun', ?_, ?_, ?_, ?_, ?_, ?_⟩
    · simp only [Console.stdout_explain]
    · simp only [Console.exitCode_explain]
    · rw [Console.stderr_explain, Console.stderr_explain, if_pos rfl, if_neg hverbose,
        List.map_nil, Console.lines_nil, String.empty_append, Console.diagnosticLine_plain]
      rfl
    · exact fun failure hq => Arguments.length_notes_of_error hq _
    · exact fun request failure hq hp => Arguments.length_notes_of_plan_error hq hp
    · exact fun request plan hq hp => Arguments.length_notes_of_plan hq hp

def dryFiles : FileSystem :=
  ofEntries [("/src/pkg/f", .file ⟨#[1, 2, 3]⟩ .forFile)]

def dryWords : List Path :=
  [.ofString "--infile=/src/pkg/f", .ofString "--outdir=/out", .ofString "--extern=no",
    .ofString "--dry-run"]

def dryArguments (verbose : Bool) : Arguments where
  infile := .ofString "/src/pkg/f"
  outdir := "/out"
  external := "no"
  dryRun := true
  json := false
  verbose
  quiet := false

def dryRequest : Request where
  infile := .ofString "/src/pkg/f"
  outdir := "/out"
  marker := .source
  dryRun := true

def dryPlan : Plan where
  source := .ofString "/src/pkg/f"
  canonicalSource := .ofString "/src/pkg/f"
  marker := .source
  relativeDir := "pkg"
  relativeFile := "pkg/f"
  destinationDir := .ofString "/out/pkg"
  destinationFile := .ofString "/out/pkg/f"

theorem parse_dryWords :
    Arguments.parse dryWords = .ok (dryArguments false) ∧
      Arguments.parse (dryWords ++ [.ofString "--verbose"]) = .ok (dryArguments true) := by
  decide +kernel

theorem stream_discipline_dryWords :
    ∃ (shown shown' : Transcript) (notes : List String),
      ((runCommandLine dryWords ⟨false, false⟩ (disk (.ofLocation []))).run dryFiles).1 =
        .ok shown ∧
      ((runCommandLine (dryWords ++ [.ofString "--verbose"]) ⟨false, false⟩
        (disk (.ofLocation []))).run dryFiles).1 = .ok shown' ∧
      shown.stdout = "✓ /src/pkg/f -> /out/pkg/f\n" ∧ shown'.stdout = shown.stdout ∧
      shown'.stderr = Console.lines (notes.map ("· " ++ ·)) ++ "⚠ Dry run: nothing was written\n" ∧
      notes.length = 3 := by
  obtain ⟨shown, after, hrun, hfailed, hanswer, hwarning, hverbose⟩ :=
    stream_discipline parse_dryWords.1 (.ofLocation []) dryFiles
  obtain ⟨shown', notes, hrun', hout, -, herr, -, -, hnotes⟩ :=
    hverbose _ (by decide) parse_dryWords.2
  have hplanned : (((dryArguments false).run (disk (.ofLocation []))).run dryFiles).1 =
      .ok (.planned dryPlan) := by decide +kernel
  have hcode : shown.exitCode = 0 := by
    by_contra hc
    obtain ⟨-, -, -, -, -, -, ⟨failure, he, -⟩ | ⟨-, -, hj, -⟩⟩ := hfailed hc
    · cases hplanned.symm.trans he
    · cases hj
  obtain ⟨outcome, hresult, -, -, hline⟩ := hanswer hcode
  obtain rfl := Except.ok.inj (hplanned.symm.trans hresult)
  refine ⟨shown, shown', notes, congrArg Prod.fst hrun, congrArg Prod.fst hrun', ?_, hout, ?_, ?_⟩
  · rw [hline (by decide)]
    decide +kernel
  · rw [herr, hwarning hcode (by decide)]
    rfl
  · exact hnotes dryRequest dryPlan (by decide +kernel) (by decide +kernel)

end MarkerCopy
