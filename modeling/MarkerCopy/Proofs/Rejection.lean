import MarkerCopy.Proofs.Calls
import MarkerCopy.Proofs.Planning

/-! Failures that come before anything is written. Either a request is refused, or its input cannot
be resolved. The files are then as they were, whichever way the request was made. -/

namespace MarkerCopy

open FileSystem

/-- Whether a request was refused or its input could not be resolved. -/
def Failure.IsRejection (failure : Failure) : Prop :=
  failure.kind = .validation ∨ ∃ p cause, failure = .file .canonicalize p cause

/-- Whether an action writes nothing if it ends in a rejection. -/
def RejectsUnchanged {α : Type} (action : ExceptT Failure (StateM FileSystem) α) : Prop :=
  ∀ fs failure, (action.run fs).1 = .error failure → failure.IsRejection → (action.run fs).2 = fs

theorem Failure.isRejection_file_iff {operation : FileOperation} {p : Path} {cause : Cause} :
    (Failure.file operation p cause).IsRejection ↔ operation = .canonicalize := by
  constructor
  · rintro (h | ⟨_, _, h⟩)
    · cases h
    · cases h
      rfl
  · rintro rfl
    exact .inr ⟨p, cause, rfl⟩

theorem Failure.kind_eq_validation_of_exitCode {failure : Failure} (h : failure.exitCode = 1) :
    failure.kind = .validation := by
  unfold exitCode at h
  cases hk : failure.kind with
  | validation => rfl
  | inputOutput =>
    rw [hk] at h
    cases h

theorem Marker.ofFlag?_eq_none_iff {flag : String} :
    Marker.ofFlag? flag = none ↔ flag ≠ "no" ∧ flag ≠ "yes" := by
  unfold ofFlag?
  by_cases hno : flag = "no"
  · simp [hno]
  · by_cases hyes : flag = "yes" <;> simp [hno, hyes]

theorem Request.isRejection_of_plan {request : Request} {resolved : Except Cause Path}
    {failure : Failure} (h : request.plan resolved = .error failure) : failure.IsRejection := by
  rcases plan_eq_error h with rfl | ⟨cause, rfl⟩ | ⟨p, rfl | rfl⟩
  · exact .inl rfl
  · exact .inr ⟨request.infile, cause, rfl⟩
  · exact .inl rfl
  · exact .inl rfl

namespace FileSystem

variable {fs : FileSystem} {cwd : WorkingDirectory} {plan : Plan}

/-- The only rejection of a plan is that a file is in the place of its destination directory. -/
theorem carryOut_rejects_iff {failure : Failure} :
    (((disk cwd).carryOut plan).run fs).1 = .error failure ∧ failure.IsRejection ↔
      fs.kind? cwd plan.destinationDir = some .file ∧
        failure = .destinationIsFile plan.destinationDir := by
  constructor
  · rintro ⟨h, hr⟩
    have hcases := carryOut_cases cwd plan fs
    generalize ((disk cwd).carryOut plan).run fs = result at hcases h
    cases hcases with
    | refused hk =>
      cases h
      exact ⟨hk, rfl⟩
    | unprepared _ _ =>
      cases h
      cases Failure.isRejection_file_iff.mp hr
    | uncopied _ _ =>
      cases h
      cases Failure.isRejection_file_iff.mp hr
    | copied _ _ => cases h
  · rintro ⟨hk, rfl⟩
    exact ⟨by rw [run_carryOut_of_file hk], .inl rfl⟩

theorem run_execute_of_file (hk : fs.kind? cwd plan.destinationDir = some .file) (dryRun : Bool) :
    ((disk cwd).execute dryRun plan).run fs =
      (.error (.destinationIsFile plan.destinationDir), fs) := by
  cases dryRun with
  | true => rw [run_execute_dry, if_pos hk]
  | false =>
    rw [run_execute, run_carryOut_of_file hk]
    rfl

/-- A dry run rejects what a real run rejects. -/
theorem execute_rejects_iff (dryRun : Bool) {failure : Failure} :
    (((disk cwd).execute dryRun plan).run fs).1 = .error failure ∧ failure.IsRejection ↔
      fs.kind? cwd plan.destinationDir = some .file ∧
        failure = .destinationIsFile plan.destinationDir := by
  constructor
  · rintro ⟨h, hr⟩
    cases dryRun with
    | true =>
      rw [run_execute_dry] at h
      split at h
      · next hk => exact ⟨hk, (Except.error.inj h).symm⟩
      · cases h
    | false =>
      rw [run_execute] at h
      cases hc : (((disk cwd).carryOut plan).run fs).1 with
      | error failure' =>
        rw [hc] at h
        cases h
        exact carryOut_rejects_iff.mp ⟨hc, hr⟩
      | ok report =>
        rw [hc] at h
        cases h
  · rintro ⟨hk, rfl⟩
    exact ⟨by rw [run_execute_of_file hk], .inl rfl⟩

theorem rejectsUnchanged_carryOut (cwd : WorkingDirectory) (plan : Plan) :
    RejectsUnchanged ((disk cwd).carryOut plan) := by
  intro fs failure h hr
  obtain ⟨hk, -⟩ := carryOut_rejects_iff.mp ⟨h, hr⟩
  rw [run_carryOut_of_file hk]

theorem rejectsUnchanged_execute (cwd : WorkingDirectory) (dryRun : Bool) (plan : Plan) :
    RejectsUnchanged ((disk cwd).execute dryRun plan) := by
  intro fs failure h hr
  obtain ⟨hk, -⟩ := (execute_rejects_iff dryRun).mp ⟨h, hr⟩
  rw [run_execute_of_file hk]

theorem rejectsUnchanged_run (cwd : WorkingDirectory) (request : Request) :
    RejectsUnchanged ((disk cwd).run request) := by
  intro fs failure h hr
  cases hp : request.plan (fs.canonical cwd request.infile) with
  | error failure' => rw [run_request_of_error hp]
  | ok plan =>
    rw [run_request_of_ok hp] at h ⊢
    exact rejectsUnchanged_execute cwd request.dryRun plan fs failure h hr

theorem rejectsUnchanged_copyBelow (cwd : WorkingDirectory) (infile outdir flag : String) :
    RejectsUnchanged ((disk cwd).copyBelow infile outdir flag) := by
  intro fs failure h hr
  cases hm : Marker.ofFlag? flag with
  | none => rw [run_copyBelow_of_none hm]
  | some marker =>
    have hrun := rejectsUnchanged_run cwd
      { infile := .ofString infile, outdir, marker, dryRun := false } fs failure
    rw [run_copyBelow_of_some hm, h] at hrun
    exact hrun rfl hr

theorem rejectsUnchanged_arguments (cwd : WorkingDirectory) (arguments : Arguments) :
    RejectsUnchanged (arguments.run (disk cwd)) := by
  intro fs failure h hr
  cases hq : arguments.request with
  | error failure' => rw [Arguments.run_of_error hq]
  | ok request =>
    rw [Arguments.run_of_ok hq] at h ⊢
    exact rejectsUnchanged_run cwd request fs failure h hr

end FileSystem

theorem UsageError.exitCode_ne_one (error : UsageError) : error.exitCode ≠ 1 := by
  cases error <;> simp [exitCode]

theorem Console.rejected_of_exitCode {console : Console} {json quiet : Bool}
    {result : Except Failure Outcome} (h : (console.ended json quiet result).exitCode = 1) :
    ∃ failure, result = .error failure ∧ failure.IsRejection := by
  cases result with
  | error failure => exact ⟨failure, rfl, .inl (Failure.kind_eq_validation_of_exitCode h)⟩
  | ok outcome =>
    rw [ended, exitCode_finished] at h
    split at h <;> cases h

theorem Arguments.request_of_none {arguments : Arguments}
    (h : Marker.ofFlag? arguments.external = none) :
    arguments.request = .error (.invalidFlag arguments.external) := by
  unfold request
  rw [h]

/-- A rejection leaves the files as they were, whichever way the copy was asked for and wherever
the plan came from. So does the program if it ends with status 1 or without having understood its
arguments. A flag that is neither yes nor no is rejected before all else. -/
theorem rejected_writes_nothing (cwd : WorkingDirectory) :
    (∀ request, RejectsUnchanged ((disk cwd).run request)) ∧
    (∀ dryRun plan, RejectsUnchanged ((disk cwd).execute dryRun plan)) ∧
    (∀ plan, RejectsUnchanged ((disk cwd).carryOut plan)) ∧
    (∀ infile outdir flag, RejectsUnchanged ((disk cwd).copyBelow infile outdir flag)) ∧
    (∀ words console fs, match (runCommandLine words console (disk cwd)).run fs with
      | (.error error, after) => error.exitCode ≠ 1 ∧ after = fs
      | (.ok transcript, after) =>
        transcript.exitCode = 1 → after = fs ∧ transcript.stdout = "") ∧
    ∀ flag, flag ≠ "no" → flag ≠ "yes" → ∀ fs,
      (∀ infile outdir, ((disk cwd).copyBelow infile outdir flag).run fs =
        (.error (.invalidFlag flag), fs)) ∧
      ∀ words arguments console, Arguments.parse words = .ok arguments →
        arguments.external = flag →
        arguments.request = .error (.invalidFlag flag) ∧
        (runCommandLine words console (disk cwd)).run fs =
          (.ok (console.failed (.invalidFlag flag)), fs) := by
  refine ⟨rejectsUnchanged_run cwd, rejectsUnchanged_execute cwd, rejectsUnchanged_carryOut cwd,
    rejectsUnchanged_copyBelow cwd, ?_, ?_⟩
  · intro words console fs
    cases hw : Arguments.parse words with
    | error error =>
      rw [run_runCommandLine_of_error hw]
      exact ⟨error.exitCode_ne_one, rfl⟩
    | ok arguments =>
      rw [run_runCommandLine_of_ok hw, run_runOn]
      intro h
      rw [Console.exitCode_explain] at h
      obtain ⟨failure, hf, hr⟩ := Console.rejected_of_exitCode h
      refine ⟨rejectsUnchanged_arguments cwd arguments fs failure hf hr, ?_⟩
      rw [Console.stdout_explain, hf]
      rfl
  · intro flag hno hyes fs
    have hflag := Marker.ofFlag?_eq_none_iff.mpr ⟨hno, hyes⟩
    refine ⟨fun infile outdir => run_copyBelow_of_none hflag infile outdir fs, ?_⟩
    rintro words arguments console hw rfl
    have hq := Arguments.request_of_none hflag
    refine ⟨hq, ?_⟩
    rw [run_runCommandLine_of_ok hw, run_runOn, Arguments.run_of_error hq, Arguments.notes, hq,
      Console.explain_nil]
    rfl

def occupiedFiles : FileSystem :=
  ofEntries [("/src/pkg/f", .file ⟨#[1, 2, 3]⟩ .forFile), ("/out/pkg", .file ⟨#[9]⟩ .forFile)]

/-- A plan that was made before there was a file in the place of its destination directory. -/
def stalePlan : Plan where
  source := .ofString "/src/pkg/f"
  canonicalSource := .ofString "/src/pkg/f"
  marker := .source
  relativeDir := "pkg"
  relativeFile := "pkg/f"
  destinationDir := .ofString "/out/pkg"
  destinationFile := .ofString "/out/pkg/f"

theorem rejected_writes_nothing_stale :
    ((disk (.ofLocation [])).carryOut stalePlan).run occupiedFiles =
      (.error (.destinationIsFile (.ofString "/out/pkg")), occupiedFiles) ∧
    ((disk (.ofLocation [])).copyBelow "/src/pkg/f" "/out" "maybe").run occupiedFiles =
      (.error (.invalidFlag "maybe"), occupiedFiles) := by
  obtain ⟨-, -, hcarry, -, -, hflag⟩ := rejected_writes_nothing (.ofLocation [])
  have hstale : (((disk (.ofLocation [])).carryOut stalePlan).run occupiedFiles).1 =
      .error (.destinationIsFile (.ofString "/out/pkg")) := by decide +kernel
  exact ⟨Prod.ext hstale (hcarry stalePlan _ _ hstale (.inl rfl)),
    (hflag "maybe" (by decide) (by decide) occupiedFiles).1 "/src/pkg/f" "/out"⟩

end MarkerCopy
