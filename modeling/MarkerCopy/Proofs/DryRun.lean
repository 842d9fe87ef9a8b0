import MarkerCopy.Proofs.Rejection

/-! What a dry run tells of the real one. It makes the same checks in the same order, so it finds
every rejection. What it cannot find is that a directory cannot be made or a file not be copied. -/

namespace MarkerCopy.FileSystem

variable {fs : FileSystem} {cwd : WorkingDirectory} {plan : Plan}

theorem isRejection_of_execute_dry {failure : Failure}
    (h : (((disk cwd).execute true plan).run fs).1 = .error failure) : failure.IsRejection := by
  rw [run_execute_dry] at h
  split at h
  · cases h
    exact .inl rfl
  · cases h

theorem run_execute_dry_eq_ok_iff {outcome : Outcome} :
    (((disk cwd).execute true plan).run fs).1 = .ok outcome ↔
      fs.kind? cwd plan.destinationDir ≠ some .file ∧ outcome = .planned plan := by
  rw [run_execute_dry]
  by_cases hk : fs.kind? cwd plan.destinationDir = some .file
  · simp [hk]
  · simp [hk, eq_comm]

/-- Where no file is in the place of the destination directory, a plan ends in one of three ways. -/
theorem execute_of_not_file (hk : fs.kind? cwd plan.destinationDir ≠ some .file) :
    (∃ report, (((disk cwd).execute false plan).run fs).1 = .ok (.copied report) ∧
      report.plan = plan) ∨
    (∃ cause, (((disk cwd).execute false plan).run fs).1 =
      .error (.file .createDirectory plan.destinationDir cause)) ∨
    ∃ cause, (((disk cwd).execute false plan).run fs).1 =
      .error (.file .copy plan.destinationFile cause) := by
  have hcases := carryOut_cases cwd plan fs
  rw [run_execute]
  generalize ((disk cwd).carryOut plan).run fs = result at hcases ⊢
  cases hcases with
  | refused hk' => exact absurd hk' hk
  | unprepared _ _ => exact .inr (.inl ⟨_, rfl⟩)
  | uncopied _ _ => exact .inr (.inr ⟨_, rfl⟩)
  | copied _ _ => exact .inl ⟨_, rfl, rfl⟩

/-- A dry run writes nothing. It fails as the real run does if that ends in a rejection, and only
then. Otherwise the real run copies by the very plan that the dry run gave, or fails to make its
destination directory or to copy to its destination. -/
theorem dryRun_predicts_run (fs : FileSystem) (cwd : WorkingDirectory) (request : Request) :
    let dry := ((disk cwd).run { request with dryRun := true }).run fs
    let real := ((disk cwd).run { request with dryRun := false }).run fs
    dry.2 = fs ∧
    (∀ failure, dry.1 = .error failure ↔ real.1 = .error failure ∧ failure.IsRejection) ∧
    (∀ outcome, dry.1 = .ok outcome → ∃ plan, outcome = .planned plan) ∧
    ∀ plan, dry.1 = .ok (.planned plan) →
      (∃ report, real.1 = .ok (.copied report) ∧ report.plan = plan) ∨
      (∃ cause, real.1 = .error (.file .createDirectory plan.destinationDir cause)) ∨
      ∃ cause, real.1 = .error (.file .copy plan.destinationFile cause) := by
  -- a plan does not depend on whether the run is dry
  have hplan (dryRun : Bool) : { request with dryRun }.plan (fs.canonical cwd request.infile) =
      request.plan (fs.canonical cwd request.infile) := rfl
  dsimp only
  cases hp : request.plan (fs.canonical cwd request.infile) with
  | error failure =>
    have hrun (dryRun : Bool) : ((disk cwd).run { request with dryRun }).run fs =
        (.error failure, fs) := run_request_of_error ((hplan dryRun).trans hp)
    rw [hrun, hrun]
    refine ⟨rfl, ?_, by simp, by simp⟩
    intro failure'
    refine ⟨fun h => ⟨h, ?_⟩, And.left⟩
    cases h
    exact Request.isRejection_of_plan hp
  | ok plan =>
    have hrun (dryRun : Bool) : ((disk cwd).run { request with dryRun }).run fs =
        ((disk cwd).execute dryRun plan).run fs := run_request_of_ok ((hplan dryRun).trans hp)
    rw [hrun, hrun]
    refine ⟨by rw [run_execute_dry], ?_, ?_, ?_⟩
    · intro failure
      rw [execute_rejects_iff false, ← execute_rejects_iff true]
      exact ⟨fun h => ⟨h, isRejection_of_execute_dry h⟩, And.left⟩
    · intro outcome h
      exact ⟨plan, (run_execute_dry_eq_ok_iff.mp h).2⟩
    · intro plan' h
      obtain ⟨hk, he⟩ := run_execute_dry_eq_ok_iff.mp h
      obtain rfl := Outcome.planned.inj he
      exact execute_of_not_file hk

end MarkerCopy.FileSystem
