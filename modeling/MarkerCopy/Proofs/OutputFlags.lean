import MarkerCopy.Proofs.Calls
import MarkerCopy.Proofs.Encoding

/-! What the flags for the output change. They have no say in what is done, and only one of them in
how the program ends: asked for JSON, it fails where the input's path is not text. A file that was
copied by then stays. -/

namespace MarkerCopy

open FileSystem

/-- The status with which the program ends. Of the flags for the output only one matters. -/
theorem exitCode_runOn (arguments : Arguments) (console : Console) (cwd : WorkingDirectory)
    (fs : FileSystem) :
    ((arguments.runOn console (disk cwd)).run fs).1.exitCode =
      match ((arguments.run (disk cwd)).run fs).1 with
      | .error failure => failure.exitCode
      | .ok _ =>
        if arguments.json ∧ ¬ arguments.infile.IsText then FailureKind.inputOutput.exitCode
        else 0 := by
  rw [run_runOn, Console.exitCode_explain]
  cases h : ((arguments.run (disk cwd)).run fs).1 with
  | error failure => exact Console.exitCode_failed console failure
  | ok outcome =>
    rw [Console.ended, Console.exitCode_finished]
    cases hq : arguments.request with
    | error failure =>
      rw [Arguments.run_of_error hq] at h
      cases h
    | ok request =>
      rw [Arguments.run_of_ok hq] at h
      simp only [json?_of_run h, Arguments.infile_of_request hq]

/-- Two command lines that differ only in flags for the output do the same. They also end with the
same status, unless only one of them asks for JSON, the input's path is not text, and nothing else
fails. Where nothing else fails, the status is 0 or that of a failure to give JSON. -/
theorem output_flags_same_end {words words' : List Path} {arguments : Arguments}
    {json verbose quiet : Bool} (h : Arguments.parse words = .ok arguments)
    (h' : Arguments.parse words' = .ok { arguments with json, verbose, quiet })
    (console : Console) (cwd : WorkingDirectory) (fs : FileSystem) :
    ∃ shown shown' after,
      (runCommandLine words console (disk cwd)).run fs = (.ok shown, after) ∧
      (runCommandLine words' console (disk cwd)).run fs = (.ok shown', after) ∧
      (shown.exitCode = shown'.exitCode ↔ arguments.json = json ∨ arguments.infile.IsText ∨
        ∃ failure, ((arguments.run (disk cwd)).run fs).1 = .error failure) ∧
      ∀ outcome, ((arguments.run (disk cwd)).run fs).1 = .ok outcome →
        shown.exitCode = if arguments.json ∧ ¬ arguments.infile.IsText then 2 else 0 := by
  let arguments' : Arguments := { arguments with json, verbose, quiet }
  have hsame : arguments'.run (disk cwd) = arguments.run (disk cwd) := rfl
  have hrun := run_runCommandLine_of_ok h console cwd fs
  have hrun' := run_runCommandLine_of_ok h' console cwd fs
  have hafter : ((arguments'.runOn console (disk cwd)).run fs).2 =
      ((arguments.runOn console (disk cwd)).run fs).2 := by
    rw [run_runOn, run_runOn, hsame]
  have hexit := exitCode_runOn arguments console cwd fs
  have hexit' := exitCode_runOn arguments' console cwd fs
  rw [hsame] at hexit'
  refine ⟨_, _, _, hrun, hrun'.trans (Prod.ext rfl hafter), ?_, ?_⟩
  · rw [hexit, hexit']
    cases ((arguments.run (disk cwd)).run fs).1 with
    | error failure => simp
    | ok outcome =>
      by_cases ht : arguments.infile.IsText
      · simp [arguments', ht]
      · cases hj : arguments.json <;> cases json <;> simp [arguments', ht, FailureKind.exitCode]
  · intro outcome ho
    rw [hexit, ho]
    rfl

/-- The input is a link whose name is no text. What it leads to has a name that is. -/
def misnamedFiles : FileSystem :=
  ((ofEntries [("/src/pkg/f", .file ⟨#[1, 2, 3]⟩ .forFile)]).make (.ofLocation [])
    ⟨[0x2F, 0xFF]⟩ (.link (.ofString "/src/pkg/f"))).2

def misnamedArguments (json : Bool) : Arguments where
  infile := ⟨[0x2F, 0xFF]⟩
  outdir := "/out"
  external := "no"
  dryRun := false
  json
  verbose := false
  quiet := false

def misnamedWords : List Path :=
  [.ofString "--infile", ⟨[0x2F, 0xFF]⟩, .ofString "--outdir=/out", .ofString "--extern=no"]

theorem parse_misnamedWords :
    Arguments.parse misnamedWords = .ok (misnamedArguments false) ∧
      Arguments.parse (misnamedWords ++ [.ofString "--json"]) = .ok (misnamedArguments true) := by
  decide +kernel

theorem output_flags_change_status :
    ¬ ∀ (words words' : List Path) (arguments : Arguments) (json verbose quiet : Bool)
      (console : Console) (cwd : WorkingDirectory) (fs : FileSystem),
      Arguments.parse words = .ok arguments →
      Arguments.parse words' = .ok { arguments with json, verbose, quiet } →
      ((runCommandLine words console (disk cwd)).run fs).1.map Transcript.exitCode =
        ((runCommandLine words' console (disk cwd)).run fs).1.map Transcript.exitCode := by
  intro h
  have hsame := h _ _ _ true false false ⟨false, false⟩ (.ofLocation []) misnamedFiles
    parse_misnamedWords.1 parse_misnamedWords.2
  exact absurd hsame (by decide +kernel)

theorem output_flags_same_end_misnamed :
    ∃ shown shown' after,
      (runCommandLine misnamedWords ⟨false, false⟩ (disk (.ofLocation []))).run misnamedFiles =
        (.ok shown, after) ∧
      (runCommandLine (misnamedWords ++ [.ofString "--json"]) ⟨false, false⟩
        (disk (.ofLocation []))).run misnamedFiles = (.ok shown', after) ∧
      shown.exitCode = 0 ∧ shown'.exitCode ≠ 0 := by
  obtain ⟨shown, shown', after, hrun, hrun', hsame, hstatus⟩ := output_flags_same_end
    parse_misnamedWords.1 parse_misnamedWords.2 ⟨false, false⟩ (.ofLocation []) misnamedFiles
  have hcopied : (((misnamedArguments false).run (disk (.ofLocation []))).run misnamedFiles).1 =
      .ok (.copied ⟨⟨⟨[0x2F, 0xFF]⟩, .ofString "/src/pkg/f", .source, "pkg", "pkg/f",
        .ofString "/out/pkg", ⟨[0x2F, 0x6F, 0x75, 0x74, 0x2F, 0x70, 0x6B, 0x67, 0x2F, 0xFF]⟩⟩,
        true, 3⟩) := by decide +kernel
  have hshown : shown.exitCode = 0 := hstatus _ hcopied
  refine ⟨shown, shown', after, hrun, hrun', hshown, fun hshown' => ?_⟩
  rcases hsame.mp (hshown.trans hshown'.symm) with hjson | htext | ⟨failure, hfailed⟩
  · cases hjson
  · exact absurd htext (by decide +kernel)
  · cases hcopied.symm.trans hfailed

end MarkerCopy
