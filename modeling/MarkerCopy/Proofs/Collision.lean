import MarkerCopy.Proofs.Cutting
import MarkerCopy.Proofs.TrailingSlashes

/-! What happens if a file is in the place of the destination directory. It is not seen where the
path of the directory ends in a slash, which is where nothing is kept of the input's directory. -/

namespace MarkerCopy

open FileSystem

theorem getLast?_outputPath (outdir : String) {relativeDir : String}
    (h : (Path.ofString relativeDir).bytes.getLast? ≠ some Path.slash) :
    (outputPath outdir relativeDir).bytes.getLast? = some Path.slash ↔ relativeDir = "" := by
  obtain ⟨root, hroot, -, hbytes⟩ := outputPath_eq outdir relativeDir
  rw [hbytes, List.getLast?_append]
  constructor
  · intro hl
    cases hb : (Path.ofString relativeDir).bytes.getLast? with
    | none =>
      by_contra hne
      exact Path.not_isEmpty_ofString hne (List.isEmpty_iff.mpr (List.getLast?_eq_none_iff.mp hb))
    | some b =>
      rw [hb] at hl h
      exact absurd hl h
  · rintro rfl
    exact hroot

/-- If a file is in the place of the destination directory, nothing is written. The file is only
recognized if something is kept of the path of the input's directory. -/
theorem run_of_file_at_destination {fs : FileSystem} {cwd : WorkingDirectory} {request : Request}
    {plan : Plan} {loc : Location} (hc : fs.isDirectory cwd.above)
    (hp : request.plan (fs.canonical cwd request.infile) = .ok plan)
    (hl : fs.locate cwd .find plan.destinationDir.trimmed = .ok (.occupied loc))
    (hf : fs.isFile loc) :
    ((disk cwd).run request).run fs =
      (if plan.relativeDir ≠ "" then .error (.destinationIsFile plan.destinationDir)
        else if request.dryRun then .ok (.planned plan)
        else .error (.file .createDirectory plan.destinationDir (.system
          (if pathLimit ≤ plan.destinationDir.bytes.length then .nameTooLong
            else .alreadyExists))), fs) := by
  obtain ⟨name, h⟩ := planned_of_plan hp
  obtain ⟨dir, -, hrel⟩ := h.relative_directory
  have hend := getLast?_outputPath request.outdir (Marker.getLast?_of_relative hrel)
  rw [← h.destinationDir] at hend
  rw [run_request_of_ok hp]
  rcases plan.destinationDir.trimmed_cases with ⟨hslash, he⟩ | ⟨hslash, k, hk⟩
  · -- the file has the very path that is checked
    have hrelativeDir : plan.relativeDir ≠ "" := fun h' => hslash (hend.mpr h')
    rw [he] at hl
    have hkind := kind?_eq_file hl hf
    rw [if_pos hrelativeDir]
    cases request.dryRun with
    | true => rw [run_execute_dry, if_pos hkind]
    | false =>
      rw [run_execute, run_carryOut_of_file hkind]
      rfl
  · have hdirectory := not_isDirectory_of_isFile hf
    have hkind := kind?_append_slashes hl hdirectory hk
    have hmake := makeDirectories_append_slashes hc hl hdirectory hk
    rw [if_neg (not_not.mpr (hend.mp hslash))]
    cases request.dryRun with
    | true =>
      rw [run_execute_dry, if_neg (by simp [hkind])]
      rfl
    | false =>
      rw [run_execute, run_carryOut_of_error hkind hmake]
      rfl

def collidingFiles : FileSystem :=
  ofEntries [("/src/f", .file ⟨#[1, 2, 3]⟩ .forFile), ("/out", .file ⟨#[9]⟩ .forFile)]

def collidingRequest (dryRun : Bool) : Request :=
  { infile := .ofString "/src/f", outdir := "/out", marker := .source, dryRun }

def collidingPlan : Plan where
  source := .ofString "/src/f"
  canonicalSource := .ofString "/src/f"
  marker := .source
  relativeDir := ""
  relativeFile := "f"
  destinationDir := .ofString "/out/"
  destinationFile := .ofString "/out/f"

theorem plan_collidingRequest (dryRun : Bool) :
    (collidingRequest dryRun).plan (collidingFiles.canonical (.ofLocation [])
      (collidingRequest dryRun).infile) = .ok collidingPlan := by
  cases dryRun <;> decide +kernel

theorem locate_collidingPlan :
    collidingFiles.locate (.ofLocation []) .find collidingPlan.destinationDir.trimmed =
      .ok (.occupied [⟨[0x6F, 0x75, 0x74], by decide⟩]) := by
  decide +kernel

theorem file_at_destination_unseen :
    ¬ ∀ (fs : FileSystem) (cwd : WorkingDirectory) (request : Request) (plan : Plan)
      (loc : Location), fs.isDirectory cwd.above →
      request.plan (fs.canonical cwd request.infile) = .ok plan →
      fs.locate cwd .find plan.destinationDir.trimmed = .ok (.occupied loc) → fs.isFile loc →
      (((disk cwd).run request).run fs).1 = .error (.destinationIsFile plan.destinationDir) := by
  intro h
  have hrun := h _ _ _ _ _ (by decide +kernel) (plan_collidingRequest true)
    locate_collidingPlan (by decide +kernel)
  have hplanned : (((disk (.ofLocation [])).run (collidingRequest true)).run collidingFiles).1 =
      .ok (.planned collidingPlan) := by decide +kernel
  cases hplanned.symm.trans hrun

theorem run_of_file_at_destination_below_sources :
    ((disk (.ofLocation [])).run (collidingRequest false)).run collidingFiles =
      (.error (.file .createDirectory (.ofString "/out/") (.system .alreadyExists)),
        collidingFiles) :=
  run_of_file_at_destination (by decide +kernel) (plan_collidingRequest false)
    locate_collidingPlan (by decide +kernel)

end MarkerCopy
