import MarkerCopy.Proofs.Calls
import MarkerCopy.Proofs.Delivery
import MarkerCopy.Proofs.Planning

/-! What becomes of the file that is to be copied. Nothing changes it, unless its copy goes to the
same file. Nothing prevents that, and it leaves the file empty. -/

namespace MarkerCopy

open FileSystem

variable {fs : FileSystem} {cwd : WorkingDirectory} {loc : Location}

/-- Whether a call makes a copy whose destination is the file at `loc`. -/
def Call.CopiesOnto (call : Call) (cwd : WorkingDirectory) (fs : FileSystem)
    (loc : Location) : Prop :=
  ∃ request report, call.request? = some request ∧
    (((disk cwd).run request).run fs).1 = .ok (.copied report) ∧
    (call.after cwd fs).locate cwd .find report.plan.destinationFile = .ok (.occupied loc)

theorem source_after_carryOut {after : FileSystem} {plan : Plan} {report : Report}
    {content : ByteArray} {permissions : Permissions} (hc : fs.isDirectory cwd.above)
    (hl : fs.locate cwd .find plan.source = .ok (.occupied loc))
    (hf : fs.get? loc = some (.file content permissions))
    (hr : ((disk cwd).carryOut plan).run fs = (.ok report, after)) :
    (after.locate cwd .find report.plan.destinationFile ≠ .ok (.occupied loc) →
      after.get? loc = some (.file content permissions)) ∧
    (after.locate cwd .find report.plan.destinationFile = .ok (.occupied loc) →
      after.get? loc = some (.file ByteArray.empty permissions)) := by
  obtain ⟨mid, dest, copied, -, hcop, -, hdest, hreport⟩ := copied_of_carryOut hc hl hf hr
  have hplan : report.plan = plan := by rw [hreport]
  rw [hplan, hdest]
  constructor
  · intro hne
    have hother : dest ≠ loc := by
      rintro rfl
      exact hne rfl
    exact (hcop.others loc hother).trans hcop.read
  · intro heq
    have hsame : dest = loc := by simpa using heq
    subst hsame
    have hempty : copied = ByteArray.empty := hcop.copied_eq.trans (if_pos rfl)
    exact hempty ▸ hcop.written

/-- Whichever way a copy is asked for, the file that is to be copied keeps its permissions, and it
keeps its content unless its copy goes to the file itself. Then it is left empty. -/
theorem infile_after_call {call : Call} {infile : Path} {content : ByteArray}
    {permissions : Permissions} (hc : fs.isDirectory cwd.above)
    (hi : call.infile? = some infile)
    (hl : fs.locate cwd .find infile = .ok (.occupied loc))
    (hf : fs.get? loc = some (.file content permissions)) :
    (¬ call.CopiesOnto cwd fs loc →
      (call.after cwd fs).get? loc = some (.file content permissions)) ∧
    (call.CopiesOnto cwd fs loc →
      (call.after cwd fs).get? loc = some (.file ByteArray.empty permissions)) := by
  unfold Call.CopiesOnto
  rw [Call.after_eq]
  cases hr : call.request? with
  | none =>
    refine ⟨fun _ => hf, ?_⟩
    rintro ⟨request, report, he, -⟩
    cases he
  | some request =>
    have hinfile : request.infile = infile := by
      rw [Call.infile?_of_request? hr] at hi
      exact Option.some.inj hi
    dsimp only
    -- without a copy there are only new directories
    rcases run_cases hc request with ⟨plan, report, after, hs, hcarry, hrun⟩ | ⟨hnot, hadds⟩
    · have hl' : fs.locate cwd .find plan.source = .ok (.occupied loc) := by
        rw [hs, hinfile]
        exact hl
      have hafter := source_after_carryOut hc hl' hf hcarry
      rw [hrun]
      constructor
      · intro hno
        exact hafter.1 fun hd => hno ⟨request, report, rfl, by rw [hrun], hd⟩
      · rintro ⟨request', report', he, hcopied, hd⟩
        cases he
        rw [hrun] at hcopied
        cases hcopied
        exact hafter.2 hd
    · refine ⟨fun _ => hadds.get?_eq hf, ?_⟩
      rintro ⟨request', report, he, hcopied, -⟩
      cases he
      exact absurd hcopied (hnot report)

def sources : FileSystem :=
  ofEntries [("/src/pkg/f", .file ⟨#[1, 2, 3]⟩ ⟨0o600⟩)]

def copyToSources : Call :=
  .run { infile := .ofString "/src/pkg/f", outdir := "/src", marker := .source, dryRun := false }

def copiedFile : Location :=
  [⟨[0x66], by decide⟩, ⟨[0x70, 0x6B, 0x67], by decide⟩, ⟨[0x73, 0x72, 0x63], by decide⟩]

theorem infile_changed_by_call :
    ¬ ∀ (fs : FileSystem) (cwd : WorkingDirectory) (loc : Location) (call : Call) (infile : Path),
      fs.isDirectory cwd.above → call.infile? = some infile →
      fs.locate cwd .find infile = .ok (.occupied loc) → fs.isFile loc →
      (call.after cwd fs).get? loc = fs.get? loc := by
  intro h
  have hsame := h sources (.ofLocation []) copiedFile copyToSources _ (by decide +kernel) rfl
    (by decide +kernel) (by decide +kernel)
  exact absurd hsame (by decide +kernel)

theorem infile_after_call_to_sources :
    (copyToSources.after (.ofLocation []) sources).get? copiedFile =
      some (.file ByteArray.empty ⟨0o600⟩) := by
  have hl : sources.locate (.ofLocation []) .find (.ofString "/src/pkg/f") =
      .ok (.occupied copiedFile) := by decide +kernel
  have hf : sources.get? copiedFile = some (.file ⟨#[1, 2, 3]⟩ ⟨0o600⟩) := by decide +kernel
  have hr : (((disk (.ofLocation [])).run ⟨.ofString "/src/pkg/f", "/src", .source, false⟩).run
      sources).1 = .ok (.copied ⟨⟨.ofString "/src/pkg/f", .ofString "/src/pkg/f", .source, "pkg",
        "pkg/f", .ofString "/src/pkg", .ofString "/src/pkg/f"⟩, false, 0⟩) := by
    decide +kernel
  exact (infile_after_call (by decide +kernel) rfl hl hf).2 ⟨_, _, rfl, hr, by decide +kernel⟩

end MarkerCopy
