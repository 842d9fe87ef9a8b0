import MarkerCopy.Proofs.Program

/-! The ways to ask for a copy. All of them come down to one run of a request, and a call that
makes no request leaves the file system as it was. -/

namespace MarkerCopy

open FileSystem

inductive Call where
  | run (request : Request)
  | copyBelow (infile outdir flag : String)
  | commandLine (words : List Path) (console : Console)

namespace Call

def infile? : Call → Option Path
  | run request => some request.infile
  | copyBelow infile _ _ => some (.ofString infile)
  | commandLine words _ => (Arguments.parse words).toOption.map Arguments.infile

/-- The request that is made if the call is one that can be carried out. -/
def request? : Call → Option Request
  | run request => some request
  | copyBelow infile outdir flag =>
    (Marker.ofFlag? flag).map fun marker =>
      { infile := .ofString infile, outdir, marker, dryRun := false }
  | commandLine words _ => (Arguments.parse words).toOption.bind fun arguments =>
      arguments.request.toOption

def after (call : Call) (cwd : WorkingDirectory) (fs : FileSystem) : FileSystem :=
  match call with
  | run request => (((disk cwd).run request).run fs).2
  | copyBelow infile outdir flag => (((disk cwd).copyBelow infile outdir flag).run fs).2
  | commandLine words console => ((runCommandLine words console (disk cwd)).run fs).2

end Call

namespace FileSystem

variable {cwd : WorkingDirectory}

theorem run_copyBelow_of_none {flag : String} (h : Marker.ofFlag? flag = none)
    (infile outdir : String) (fs : FileSystem) :
    ((disk cwd).copyBelow infile outdir flag).run fs = (.error (.invalidFlag flag), fs) := by
  unfold Disk.copyBelow
  rw [h]
  rfl

theorem run_copyBelow_of_some {marker : Marker} {flag : String}
    (h : Marker.ofFlag? flag = some marker) (infile outdir : String) (fs : FileSystem) :
    ((disk cwd).run { infile := .ofString infile, outdir, marker, dryRun := false }).run fs =
      ((((disk cwd).copyBelow infile outdir flag).run fs).1.map Outcome.copied,
        (((disk cwd).copyBelow infile outdir flag).run fs).2) := by
  let request : Request := { infile := .ofString infile, outdir, marker, dryRun := false }
  have hb : ((disk cwd).copyBelow infile outdir flag).run fs =
      ((disk cwd).plan request >>= (disk cwd).carryOut).run fs := by
    unfold Disk.copyBelow
    rw [h]
  cases hp : request.plan (fs.canonical cwd request.infile) with
  | error failure =>
    rw [hb, run_bind_of_error ((run_plan cwd request fs).trans (by rw [hp])) _]
    exact run_request_of_error hp
  | ok plan =>
    rw [hb, run_bind_of_ok ((run_plan cwd request fs).trans (by rw [hp])) _]
    exact (run_request_of_ok hp).trans (run_execute cwd plan fs)

theorem after_runOn (arguments : Arguments) (console : Console) (cwd : WorkingDirectory)
    (fs : FileSystem) :
    ((arguments.runOn console (disk cwd)).run fs).2 =
      match arguments.request with
      | .error _ => fs
      | .ok request => (((disk cwd).run request).run fs).2 := by
  rw [run_runOn]
  cases hr : arguments.request with
  | error failure => rw [Arguments.run_of_error hr]
  | ok request => rw [Arguments.run_of_ok hr]

theorem after_runCommandLine (words : List Path) (console : Console) (cwd : WorkingDirectory)
    (fs : FileSystem) :
    ((runCommandLine words console (disk cwd)).run fs).2 =
      match Arguments.parse words with
      | .error _ => fs
      | .ok arguments => ((arguments.runOn console (disk cwd)).run fs).2 := by
  cases hw : Arguments.parse words with
  | error error => rw [run_runCommandLine_of_error hw]
  | ok arguments => rw [run_runCommandLine_of_ok hw]

end FileSystem

theorem Arguments.infile_of_request {arguments : Arguments} {request : Request}
    (h : arguments.request = .ok request) : request.infile = arguments.infile := by
  unfold Arguments.request at h
  split at h
  · cases h
  · dsimp only at h
    split at h
    · cases h
    · cases h
      rfl

theorem Call.infile?_of_request? {call : Call} {request : Request}
    (h : call.request? = some request) : call.infile? = some request.infile := by
  cases call with
  | run _ =>
    cases h
    rfl
  | copyBelow infile outdir flag =>
    obtain ⟨marker, _, rfl⟩ := Option.map_eq_some_iff.mp h
    rfl
  | commandLine words console =>
    dsimp only [request?, infile?] at h ⊢
    cases hp : Arguments.parse words with
    | error error => simp [hp, Except.toOption] at h
    | ok arguments =>
      have hr : arguments.request.toOption = some request := by simpa [hp, Except.toOption] using h
      cases hq : arguments.request with
      | error failure => simp [hq, Except.toOption] at hr
      | ok _ =>
        have he : request.infile = arguments.infile :=
          Arguments.infile_of_request (hq.trans (by simpa [hq, Except.toOption] using hr))
        simp [Except.toOption, he]

/-- Whichever way a copy is asked for, the files end up as after a run of the request. -/
theorem Call.after_eq (call : Call) (cwd : WorkingDirectory) (fs : FileSystem) :
    call.after cwd fs =
      match call.request? with
      | none => fs
      | some request => (((disk cwd).run request).run fs).2 := by
  cases call with
  | run request => rfl
  | copyBelow infile outdir flag =>
    dsimp only [after, request?]
    cases hm : Marker.ofFlag? flag with
    | none => rw [run_copyBelow_of_none hm]; rfl
    | some marker =>
      dsimp only [Option.map_some]
      rw [run_copyBelow_of_some hm]
  | commandLine words console =>
    dsimp only [after, request?]
    rw [after_runCommandLine]
    cases Arguments.parse words with
    | error error => rfl
    | ok arguments =>
      dsimp only
      rw [after_runOn]
      cases hr : arguments.request <;> simp [Except.toOption, hr]

end MarkerCopy
