import MarkerCopy.Proofs.Rejection
import MarkerCopy.Proofs.Spelling

/-! When a copy in one call does the same as the command line. The command line refuses an empty
input and an empty output directory. The call does not, and takes an empty output directory for the
root. -/

namespace MarkerCopy

open FileSystem

/-- The arguments that stand for a copy in one call. The last three concern the output only. -/
def Arguments.ofCall (infile outdir flag : String) (json verbose quiet : Bool) : Arguments :=
  { infile := .ofString infile, outdir, external := flag, dryRun := false, json, verbose, quiet }

section

variable {infile outdir flag : String} (json verbose quiet : Bool)

theorem request_ofCall_of_some {marker : Marker} (h : Marker.ofFlag? flag = some marker)
    (hi : infile ≠ "") (ho : outdir ≠ "") :
    (Arguments.ofCall infile outdir flag json verbose quiet).request =
      .ok { infile := .ofString infile, outdir, marker, dryRun := false } := by
  have hinfile : ¬ (Path.ofString infile).isEmpty := Path.not_isEmpty_ofString hi
  simp [Arguments.request, Arguments.ofCall, h, Request.fault?, hinfile, ho]

theorem request_ofCall_of_empty {marker : Marker} (h : Marker.ofFlag? flag = some marker)
    (he : infile = "" ∨ outdir = "") :
    ∃ description, (Arguments.ofCall infile outdir flag json verbose quiet).request =
      .error (.invalidArgument description) := by
  by_cases hi : infile = ""
  · have hinfile : (Path.ofString infile).isEmpty := by
      rw [hi]
      rfl
    exact ⟨"--infile must not be empty", by
      simp [Arguments.request, Arguments.ofCall, h, Request.fault?, hinfile]⟩
  · have hinfile : ¬ (Path.ofString infile).isEmpty := Path.not_isEmpty_ofString hi
    have ho : outdir = "" := he.resolve_left hi
    exact ⟨"--outdir must not be empty", by
      simp [Arguments.request, Arguments.ofCall, h, Request.fault?, hinfile, ho]⟩

end

namespace FileSystem

variable {fs : FileSystem} {cwd : WorkingDirectory}

/-- The arguments themselves are found at fault by the command line only. -/
theorem run_ne_invalidArgument (request : Request) (description : String) :
    (((disk cwd).run request).run fs).1 ≠ .error (.invalidArgument description) := by
  intro h
  cases hp : request.plan (fs.canonical cwd request.infile) with
  | error failure =>
    rw [run_request_of_error hp] at h
    cases h
    rcases Request.plan_eq_error hp with he | ⟨cause, he⟩ | ⟨p, he | he⟩ <;> cases he
  | ok plan =>
    rw [run_request_of_ok hp] at h
    obtain ⟨-, he⟩ := (execute_rejects_iff request.dryRun).mp ⟨h, .inl rfl⟩
    cases he

/-- A copy in one call and the command line agree where neither the input nor the output directory
is empty, and where both reject the flag. In all other cases the command line finds fault with its
arguments, which the call never does. -/
theorem copyBelow_agrees_iff (infile outdir flag : String) (json verbose quiet : Bool)
    (cwd : WorkingDirectory) (fs : FileSystem) :
    let call := ((disk cwd).copyBelow infile outdir flag).run fs
    let line := ((Arguments.ofCall infile outdir flag json verbose quiet).run (disk cwd)).run fs
    ((call.1.map Outcome.copied, call.2) = line ↔
      (infile ≠ "" ∧ outdir ≠ "") ∨ (flag ≠ "no" ∧ flag ≠ "yes")) ∧
    (infile = "" ∨ outdir = "" → flag = "no" ∨ flag = "yes" →
      ∃ description, line = (.error (.invalidArgument description), fs)) := by
  dsimp only
  cases hm : Marker.ofFlag? flag with
  | none =>
    have hflag := Marker.ofFlag?_eq_none_iff.mp hm
    have hq : (Arguments.ofCall infile outdir flag json verbose quiet).request =
        .error (.invalidFlag flag) := Arguments.request_of_none hm
    rw [run_copyBelow_of_none hm, Arguments.run_of_error hq]
    refine ⟨iff_of_true rfl (.inr hflag), fun _ hvalid => ?_⟩
    rcases hvalid with hno | hyes
    · exact absurd hno hflag.1
    · exact absurd hyes hflag.2
  | some marker =>
    have hflag : ¬ (flag ≠ "no" ∧ flag ≠ "yes") := by
      rw [← Marker.ofFlag?_eq_none_iff, hm]
      simp
    rw [← run_copyBelow_of_some hm]
    by_cases he : infile = "" ∨ outdir = ""
    · obtain ⟨description, hq⟩ := request_ofCall_of_empty json verbose quiet hm he
      rw [Arguments.run_of_error hq]
      refine ⟨iff_of_false ?_ ?_, fun _ _ => ⟨description, rfl⟩⟩
      · -- a run of a request has other failures
        intro h
        exact run_ne_invalidArgument _ description (congrArg Prod.fst h)
      · rintro (⟨hi, ho⟩ | hnone)
        · exact he.elim hi ho
        · exact hflag hnone
    · obtain ⟨hi, ho⟩ := not_or.mp he
      rw [Arguments.run_of_ok (request_ofCall_of_some json verbose quiet hm hi ho)]
      exact ⟨iff_of_true rfl (.inl ⟨hi, ho⟩), fun h => absurd h he⟩

def rootedFiles : FileSystem :=
  ofEntries [("/src/pkg/f", .file ⟨#[1, 2, 3]⟩ .forFile)]

/-- Without an output directory the call copies a file to the root, where the command line does
nothing. -/
theorem copyBelow_disagrees :
    ¬ ∀ (infile outdir flag : String) (json verbose quiet : Bool) (cwd : WorkingDirectory)
      (fs : FileSystem),
      let call := ((disk cwd).copyBelow infile outdir flag).run fs
      let line := ((Arguments.ofCall infile outdir flag json verbose quiet).run (disk cwd)).run fs
      (call.1.map Outcome.copied, call.2) = line := by
  intro h
  have hsame := h "/src/pkg/f" "" "no" false false false (.ofLocation []) rootedFiles
  have hfile := congrArg (fun result => result.2.kind? (.ofLocation []) (.ofString "/pkg/f")) hsame
  exact absurd hfile (by decide +kernel)

end FileSystem

end MarkerCopy
