import MarkerCopy.Proofs.Stability

/-! What a second run does. It finds the directories and the file of the first one in place and
writes what is there already, even if the file was copied onto itself. -/

namespace MarkerCopy.FileSystem

variable {fs gs hs : FileSystem} {cwd : WorkingDirectory}

section

variable {src loc : Location} {content copied : ByteArray} {permissions : Permissions}

theorem Copied.source_after (h : Copied fs gs src loc content copied permissions) :
    gs.get? src = some (.file (if loc = src then copied else content) permissions) := by
  by_cases he : loc = src
  · rw [if_pos he, ← he]
    exact h.written
  · rw [if_neg he]
    exact (h.others src he).trans h.read

theorem Copied.again {content' copied' : ByteArray} {permissions' : Permissions}
    (h : Copied fs gs src loc content copied permissions)
    (h' : Copied gs hs src loc content' copied' permissions') : copied' = copied ∧ hs = gs := by
  have hread := h.source_after.symm.trans h'.read
  obtain ⟨hcontent, hpermissions⟩ := Entry.file.inj (Option.some.inj hread)
  have hcopied : copied' = copied := by
    rw [h'.copied_eq, h.copied_eq, ← hcontent]
    by_cases he : loc = src <;> simp [he]
  refine ⟨hcopied, ext fun other => ?_⟩
  by_cases he : loc = other
  · rw [← he, h'.written, h.written, hcopied, hpermissions]
  · exact h'.others other he

end

theorem copyFile_again {source target : Path} {src loc : Location} {content copied : ByteArray}
    {permissions : Permissions} (hc : gs.isDirectory cwd.above)
    (hs : gs.locate cwd .find source = .ok (.occupied src))
    (hw : gs.writable cwd target = .ok loc)
    (h : Copied fs gs src loc content copied permissions) :
    gs.copyFile cwd source target = (.ok copied.size, gs) := by
  obtain ⟨copied', after, hcopy, hcop⟩ := copyFile_of_writable hc hs h.source_after hw
  obtain ⟨rfl, rfl⟩ := h.again hcop
  exact hcopy

theorem carryOut_again {plan : Plan} {report : Report} (hc : fs.isDirectory cwd.above)
    (hdir : ¬ plan.destinationDir.isEmpty)
    (hr : ((disk cwd).carryOut plan).run fs = (.ok report, gs)) :
    ((disk cwd).carryOut plan).run gs = (.ok { report with createdDir := false }, gs) := by
  obtain ⟨d⟩ := delivery_of_carryOut hc hr
  have hkind : gs.kind? cwd plan.destinationDir = some .directory :=
    kind?_directory_mono (d.prepared.kind? hc hdir) d.grows_after
  have hwritable : gs.writable cwd plan.destinationFile = .ok d.target :=
    writable_of_locate d.locate_target (not_isDirectory_of_isFile d.isFile_target)
  have hcopy := copyFile_again (d.grows.isDirectory hc) d.locate_source hwritable d.copy
  rw [run_carryOut_of_directory hkind hcopy, d.plan_eq, d.bytesCopied_eq]

/-- A second run of a request gives the same report, except that no directory is new, and leaves the
file system as the first run left it. -/
theorem run_again {request : Request} {report : Report} (hc : fs.isDirectory cwd.above)
    (hr : ((disk cwd).run request).run fs = (.ok (.copied report), gs)) :
    ((disk cwd).run request).run gs = (.ok (.copied { report with createdDir := false }), gs) := by
  obtain ⟨hdry, plan, hp, hcarry⟩ := run_eq_copied_iff.mp hr
  obtain ⟨name, hplan⟩ := planned_of_plan hp
  have hgrows : fs.Grows gs := by
    have hg := grows_run hc request
    rwa [hr] at hg
  refine run_eq_copied_iff.mpr ⟨hdry, plan, plan_mono hp hgrows, ?_⟩
  exact carryOut_again hc hplan.not_isEmpty_destinationDir hcarry

def relinkedFiles : FileSystem :=
  ofEntries [
    ("/src/pkg/f", .file ⟨#[1, 2, 3]⟩ ⟨0o640⟩),
    ("/dest/old", .file ⟨#[9]⟩ .forFile),
    ("/out", .link (.ofString "dest"))]

def relinkedRequest : Request :=
  { infile := .ofString "/src/pkg/f", outdir := "/out", marker := .source, dryRun := false }

def relinkedPlan : Plan where
  source := .ofString "/src/pkg/f"
  canonicalSource := .ofString "/src/pkg/f"
  marker := .source
  relativeDir := "pkg"
  relativeFile := "pkg/f"
  destinationDir := .ofString "/out/pkg"
  destinationFile := .ofString "/out/pkg/f"

theorem run_again_through_link :
    let first := ((disk (.ofLocation [])).run relinkedRequest).run relinkedFiles
    first.1 = .ok (.copied ⟨relinkedPlan, true, 3⟩) ∧
      ((disk (.ofLocation [])).run relinkedRequest).run first.2 =
        (.ok (.copied ⟨relinkedPlan, false, 3⟩), first.2) := by
  have hfirst : (((disk (.ofLocation [])).run relinkedRequest).run relinkedFiles).1 =
      .ok (.copied ⟨relinkedPlan, true, 3⟩) := by decide +kernel
  exact ⟨hfirst, run_again (by decide +kernel) (Prod.ext hfirst rfl)⟩

end MarkerCopy.FileSystem
