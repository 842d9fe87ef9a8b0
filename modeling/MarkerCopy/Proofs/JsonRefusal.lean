import MarkerCopy.Proofs.Calls
import MarkerCopy.Proofs.Encoding

/-! When a plan or a report cannot be written as JSON. The canonical path of the input is text, and
so is all that is cut from it. The path that was given need not be, and its last name is that of the
copy. -/

namespace MarkerCopy

open FileSystem

variable {fs : FileSystem} {cwd : WorkingDirectory} {request : Request} {plan : Plan}

/-- JSON is refused to the plan of an input that is not text and to no other plan, and so it is to
what comes of carrying the plan out, at once or in any later state. Of the paths that are made in
planning only that of the copy can fail to be text, and it does if the last name of the input
does. -/
theorem json_refused_iff (h : (((disk cwd).plan request).run fs).1 = .ok plan) :
    plan.canonicalSource.IsText ∧ plan.destinationDir.IsText ∧
    (∃ name, request.infile.fileName? = some name ∧
      (plan.destinationFile.IsText ↔ name.IsText)) ∧
    (plan.json? = none ↔ ¬ request.infile.IsText) ∧
    ∀ (cwd' : WorkingDirectory) (fs' : FileSystem),
      (∀ report, (((disk cwd').carryOut plan).run fs').1 = .ok report →
        (report.json? = none ↔ ¬ request.infile.IsText)) ∧
      ∀ dryRun outcome, (((disk cwd').execute dryRun plan).run fs').1 = .ok outcome →
        (outcome.json? = none ↔ ¬ request.infile.IsText) := by
  have hp : request.plan (fs.canonical cwd request.infile) = .ok plan := h
  obtain ⟨name, hplanned⟩ := planned_of_plan hp
  refine ⟨hplanned.isText_canonicalSource, hplanned.isText_destinationDir,
    ⟨name, hplanned.fileName, hplanned.isText_destinationFile_iff⟩, ?_, fun cwd' fs' => ⟨?_, ?_⟩⟩
  · rw [Plan.json?_eq_none_iff, hplanned.isText_iff]
  · intro report hr
    rw [Report.json?_eq_none_iff, plan_of_carryOut hr, hplanned.isText_iff]
  · intro dryRun outcome ho
    rw [Outcome.json?_eq_none_iff, plan_of_execute ho, hplanned.isText_iff]

/-- The input lies below a link whose name is not text. -/
def detourFiles : FileSystem :=
  ((ofEntries [("/src/pkg/f", .file ⟨#[1, 2, 3]⟩ .forFile)]).make (.ofLocation [])
    ⟨[0x2F, 0xFF]⟩ (.link (.ofString "/src/pkg"))).2

def detourRequest : Request :=
  { infile := ⟨[0x2F, 0xFF, 0x2F, 0x66]⟩, outdir := "/out", marker := .source, dryRun := false }

def detourPlan : Plan where
  source := detourRequest.infile
  canonicalSource := .ofString "/src/pkg/f"
  marker := .source
  relativeDir := "pkg"
  relativeFile := "pkg/f"
  destinationDir := .ofString "/out/pkg"
  destinationFile := .ofString "/out/pkg/f"

theorem json_refused_iff_detour :
    (((disk (.ofLocation [])).plan detourRequest).run detourFiles).1 = .ok detourPlan ∧
      (((disk (.ofLocation [])).carryOut detourPlan).run detourFiles).1 =
        .ok ⟨detourPlan, true, 3⟩ ∧
      detourPlan.destinationFile.IsText ∧ detourPlan.json? = none ∧
      Report.json? ⟨detourPlan, true, 3⟩ = none := by
  have hplan : (((disk (.ofLocation [])).plan detourRequest).run detourFiles).1 =
      .ok detourPlan := by decide +kernel
  have hcopied : (((disk (.ofLocation [])).carryOut detourPlan).run detourFiles).1 =
      .ok ⟨detourPlan, true, 3⟩ := by decide +kernel
  have hinfile : ¬ detourRequest.infile.IsText := by decide +kernel
  obtain ⟨-, -, ⟨name, hname, hfile⟩, hjson, hlater⟩ := json_refused_iff hplan
  have hbase : name = .ofString "f" := Option.some.inj (hname.symm.trans (by decide +kernel))
  obtain ⟨hreport, -⟩ := hlater (.ofLocation []) detourFiles
  exact ⟨hplan, hcopied, hfile.mpr ⟨"f", hbase⟩, hjson.mpr hinfile,
    (hreport _ hcopied).mpr hinfile⟩

/-- A copy in one call is asked for in texts, so its report can always be written. -/
theorem json?_isSome_of_copyBelow {infile outdir flag : String} {report : Report}
    (h : (((disk cwd).copyBelow infile outdir flag).run fs).1 = .ok report) :
    report.json?.isSome := by
  cases hm : Marker.ofFlag? flag with
  | none =>
    rw [run_copyBelow_of_none hm] at h
    cases h
  | some marker =>
    have hrun : (((disk cwd).run
        { infile := .ofString infile, outdir, marker, dryRun := false }).run fs).1 =
          .ok (.copied report) := by
      rw [run_copyBelow_of_some hm, h]
      rfl
    obtain ⟨name, hplanned⟩ := planned_of_run hrun
    exact Report.json?_isSome_iff.mpr (hplanned.isText_iff.mpr ⟨infile, rfl⟩)

end MarkerCopy
