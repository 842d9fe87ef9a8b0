import MarkerCopy.Proofs.Execution
import MarkerCopy.Proofs.Planning

/-! What a copy leaves behind. The directories that were made on the way cannot move the file that
is copied, because every path keeps its meaning while a file system grows. -/

namespace MarkerCopy.FileSystem

variable {fs mid after : FileSystem} {cwd : WorkingDirectory} {dir : Path} {created : Bool}

theorem Prepared.eq (h : Prepared cwd dir fs created mid) :
    mid = fs ∨ fs.kind? cwd dir = none ∧ mid = (((disk cwd).makeDirectories dir).run fs).2 := by
  cases h with
  | there _ _ => exact .inl rfl
  | made hn hd => exact .inr ⟨hn, by rw [hd]⟩

theorem Prepared.adds (h : Prepared cwd dir fs created mid) : fs.AddsDirectories mid := by
  rcases h.eq with rfl | ⟨-, rfl⟩
  · exact .refl mid
  · exact makeDirectories_adds cwd dir fs

theorem Prepared.kind? (h : Prepared cwd dir fs created mid) (hc : fs.isDirectory cwd.above)
    (hp : ¬ dir.isEmpty) : mid.kind? cwd dir = some .directory := by
  cases h with
  | there hk hne =>
    rcases kind?_cases fs dir hc with ⟨-, hf | hd⟩ | ⟨-, hn⟩
    · rw [hf] at hk
      exact absurd (Option.some.inj hk).symm hne
    · exact hd
    · simp [hn] at hk
  | made _ hd => exact kind?_of_makeDirectories hp hd

theorem Prepared.created_iff (h : Prepared cwd dir fs created mid)
    (hc : fs.isDirectory cwd.above) :
    created = true ↔ ∀ place, fs.locate cwd .find dir ≠ .ok place := by
  rcases kind?_cases fs dir hc with ⟨⟨place, hl⟩, hk⟩ | ⟨hl, hk⟩
  · cases h with
    | there _ _ => simp [hl]
    | made hn _ => simp [hn] at hk
  · cases h with
    | there hk' _ => simp [hk] at hk'
    | made _ _ => simp [hl]

/-- What happened to `fs` when a plan was carried out with the given report. -/
structure Delivery (cwd : WorkingDirectory) (plan : Plan) (fs after : FileSystem)
    (report : Report) where
  mid : FileSystem
  source : Location
  target : Location
  content : ByteArray
  copied : ByteArray
  permissions : Permissions
  home : fs.isDirectory cwd.above
  prepared : Prepared cwd plan.destinationDir fs report.createdDir mid
  locate_source_mid : mid.locate cwd .find plan.source = .ok (.occupied source)
  writable_target : mid.writable cwd plan.destinationFile = .ok target
  copy : Copied mid after source target content copied permissions
  plan_eq : report.plan = plan
  bytesCopied_eq : report.bytesCopied = copied.size

namespace Delivery

variable {plan : Plan} {report : Report} (d : Delivery cwd plan fs after report)

include d

theorem report_eq : report = ⟨plan, report.createdDir, d.copied.size⟩ := by
  have hplan := d.plan_eq
  have hbytes := d.bytesCopied_eq
  cases report
  simp_all

theorem grows_mid : fs.Grows d.mid :=
  d.prepared.adds.grows

theorem home_mid : d.mid.isDirectory cwd.above :=
  d.grows_mid.isDirectory d.home

theorem grows_after : d.mid.Grows after :=
  d.copy.grows (isFile_or_free_of_writable d.writable_target d.home_mid)

theorem grows : fs.Grows after :=
  d.grows_mid.trans d.grows_after

theorem locate_source : after.locate cwd .find plan.source = .ok (.occupied d.source) :=
  locate_find_mono d.locate_source_mid d.grows_after

theorem isFile_target : after.isFile d.target :=
  isFile_iff.mpr ⟨_, _, d.copy.written⟩

theorem locate_target :
    after.locate cwd .find plan.destinationFile = .ok (.occupied d.target) :=
  locate_of_writable d.writable_target d.grows_after d.isFile_target

/-- The file that was copied is older than the directories that were made for the copy. -/
theorem get?_source : fs.get? d.source = some (.file d.content d.permissions) :=
  d.prepared.adds.get?_file d.copy.read

theorem length_source_lt : plan.source.bytes.length < pathLimit := by
  obtain ⟨w, n, hw, -⟩ := locate_find_eq_occupied_iff.mp d.locate_source_mid
  exact Nat.not_le.mp (Path.usable_of_walk? hw).2.2

theorem length_target_lt : plan.destinationFile.bytes.length < pathLimit := by
  obtain ⟨w, n, hw, -⟩ := locate_find_eq_occupied_iff.mp d.locate_target
  exact Nat.not_le.mp (Path.usable_of_walk? hw).2.2

end Delivery

theorem delivery_of_carryOut {plan : Plan} {report : Report} (hc : fs.isDirectory cwd.above)
    (hr : ((disk cwd).carryOut plan).run fs = (.ok report, after)) :
    Nonempty (Delivery cwd plan fs after report) := by
  have hcases := carryOut_cases cwd plan fs
  rw [hr] at hcases
  cases hcases with
  | @copied created bytes mid _ hp hm =>
    have hc' := hp.adds.grows.isDirectory hc
    rcases copyFile_cases hc' plan.source plan.destinationFile with
      ⟨src, loc, content, copied, permissions, gs, hcopy, hs, hw, hcop⟩ | ⟨cause, hcopy⟩
    · rw [hm] at hcopy
      cases hcopy
      exact ⟨⟨mid, src, loc, content, copied, permissions, hc, hp, hs, hw, hcop, rfl, rfl⟩⟩
    · rw [hm] at hcopy
      cases hcopy

theorem delivery_of_run {request : Request} {report : Report} (hc : fs.isDirectory cwd.above)
    (hr : ((disk cwd).run request).run fs = (.ok (.copied report), after)) :
    ∃ plan, request.plan (fs.canonical cwd request.infile) = .ok plan ∧
      Nonempty (Delivery cwd plan fs after report) := by
  obtain ⟨-, plan, hp, hcarry⟩ := run_eq_copied_iff.mp hr
  exact ⟨plan, hp, delivery_of_carryOut hc hcarry⟩

theorem copied_of_carryOut {plan : Plan} {report : Report} {src : Location}
    {content : ByteArray} {permissions : Permissions} (hc : fs.isDirectory cwd.above)
    (hs : fs.locate cwd .find plan.source = .ok (.occupied src))
    (hf : fs.get? src = some (.file content permissions))
    (hr : ((disk cwd).carryOut plan).run fs = (.ok report, after)) :
    ∃ mid loc copied, Prepared cwd plan.destinationDir fs report.createdDir mid ∧
      Copied mid after src loc content copied permissions ∧ mid.Grows after ∧
      after.locate cwd .find plan.destinationFile = .ok (.occupied loc) ∧
      report = ⟨plan, report.createdDir, copied.size⟩ := by
  obtain ⟨d⟩ := delivery_of_carryOut hc hr
  obtain rfl : src = d.source := by
    have hsame := (locate_find_mono hs d.grows).symm.trans d.locate_source
    cases hsame
    rfl
  have hcontent := hf.symm.trans d.get?_source
  cases hcontent
  exact ⟨d.mid, d.target, d.copied, d.prepared, d.copy, d.grows_after, d.locate_target, d.report_eq⟩

/-- A plan that fails leaves behind what was made of its destination directory. -/
theorem carryOut_eq_error {plan : Plan} {failure : Failure} (hc : fs.isDirectory cwd.above)
    (hr : ((disk cwd).carryOut plan).run fs = (.error failure, after)) :
    after = fs ∨ fs.kind? cwd plan.destinationDir = none ∧
      after = (((disk cwd).makeDirectories plan.destinationDir).run fs).2 := by
  have hcases := carryOut_cases cwd plan fs
  rw [hr] at hcases
  cases hcases with
  | refused _ => exact .inl rfl
  | unprepared hn hd => exact .inr ⟨hn, by rw [hd]⟩
  | @uncopied _ _ mid _ hp hm =>
    have hc' := hp.adds.grows.isDirectory hc
    rcases copyFile_cases hc' plan.source plan.destinationFile with
      ⟨_, _, _, _, _, _, hcopy, -⟩ | ⟨_, hcopy⟩ <;> rw [hcopy] at hm <;> cases hm
    exact hp.eq

theorem adds_of_carryOut_error {plan : Plan} {failure : Failure}
    (hc : fs.isDirectory cwd.above)
    (hr : ((disk cwd).carryOut plan).run fs = (.error failure, after)) :
    fs.AddsDirectories after := by
  rcases carryOut_eq_error hc hr with rfl | ⟨-, rfl⟩
  · exact .refl after
  · exact makeDirectories_adds cwd plan.destinationDir fs

/-- A run copies the file that it was asked to copy, or only adds directories. -/
theorem run_cases (hc : fs.isDirectory cwd.above) (request : Request) :
    (∃ plan report after, plan.source = request.infile ∧
      ((disk cwd).carryOut plan).run fs = (.ok report, after) ∧
      ((disk cwd).run request).run fs = (.ok (.copied report), after)) ∨
    (∀ report, (((disk cwd).run request).run fs).1 ≠ .ok (.copied report)) ∧
      fs.AddsDirectories (((disk cwd).run request).run fs).2 := by
  cases hp : request.plan (fs.canonical cwd request.infile) with
  | error failure =>
    rw [run_request_of_error hp]
    exact .inr ⟨fun report => by simp, .refl fs⟩
  | ok plan =>
    obtain ⟨name, hplan⟩ := planned_of_plan hp
    rw [run_request_of_ok hp]
    cases request.dryRun with
    | true =>
      rw [run_execute_dry]
      refine .inr ⟨fun report => ?_, .refl fs⟩
      dsimp only
      split <;> simp
    | false =>
      rw [run_execute]
      rcases hr : ((disk cwd).carryOut plan).run fs with ⟨failure | report, after⟩
      · exact .inr ⟨fun report => by simp [Except.map], adds_of_carryOut_error hc hr⟩
      · exact .inl ⟨plan, report, after, hplan.source, hr, rfl⟩

/-- A copy onto another file delivers the content and the permissions of its source, whatever was
there before, and tells truly what it did. -/
theorem carryOut_delivers {plan : Plan} {report : Report} {src : Location}
    {content : ByteArray} {permissions : Permissions} (hc : fs.isDirectory cwd.above)
    (hs : fs.locate cwd .find plan.source = .ok (.occupied src))
    (hf : fs.get? src = some (.file content permissions))
    (hr : ((disk cwd).carryOut plan).run fs = (.ok report, after))
    (hne : after.locate cwd .find plan.source ≠ after.locate cwd .find plan.destinationFile) :
    (∃ loc, after.locate cwd .find plan.destinationFile = .ok (.occupied loc) ∧
      after.get? loc = some (.file content permissions)) ∧
    report.bytesCopied = content.size ∧
    after.locate cwd .find plan.source = .ok (.occupied src) ∧
    after.get? src = some (.file content permissions) ∧
    report.plan = plan ∧
    (report.createdDir = true ↔ ∀ place, fs.locate cwd .find plan.destinationDir ≠ .ok place) ∧
    (¬ plan.destinationDir.isEmpty →
      after.kind? cwd plan.destinationDir = some .directory) := by
  obtain ⟨mid, loc, copied, hp, hcop, hg, hdest, hreport⟩ := copied_of_carryOut hc hs hf hr
  have hsrc := locate_find_mono hs (hp.adds.grows.trans hg)
  have hother : loc ≠ src := by
    rintro rfl
    exact hne (hsrc.trans hdest.symm)
  have hcopied : copied = content := hcop.copied_eq.trans (if_neg hother)
  refine ⟨⟨loc, hdest, hcopied ▸ hcop.written⟩, ?_, hsrc, ?_, ?_, hp.created_iff hc, ?_⟩
  · rw [hreport, hcopied]
  · exact (hcop.others src hother).trans hcop.read
  · rw [hreport]
  · intro hempty
    exact kind?_directory_mono (hp.kind? hc hempty) hg

def linkedFiles : FileSystem :=
  ofEntries [
    ("/src/pkg/f", .file ⟨#[1, 2, 3]⟩ ⟨0o640⟩),
    ("/old", .file ⟨#[9, 9, 9, 9, 9]⟩ .forFile),
    ("/out/f", .link (.ofString "../old"))]

def linkedPlan : Plan where
  source := .ofString "/src/pkg/f"
  canonicalSource := .ofString "/src/pkg/f"
  marker := .source
  relativeDir := "pkg"
  relativeFile := "pkg/f"
  destinationDir := .ofString "/out/pkg"
  destinationFile := .ofString "/out/pkg/../f"

theorem carryOut_delivers_through_link :
    let after := (((disk (.ofLocation [])).carryOut linkedPlan).run linkedFiles).2
    (((disk (.ofLocation [])).carryOut linkedPlan).run linkedFiles).1 =
      .ok ⟨linkedPlan, true, 3⟩ ∧
    ∃ loc, after.locate (.ofLocation []) .find linkedPlan.destinationFile = .ok (.occupied loc) ∧
      after.get? loc = some (.file ⟨#[1, 2, 3]⟩ ⟨0o640⟩) := by
  have hr : (((disk (.ofLocation [])).carryOut linkedPlan).run linkedFiles).1 =
      .ok ⟨linkedPlan, true, 3⟩ := by decide +kernel
  have hs : linkedFiles.locate (.ofLocation []) .find linkedPlan.source = .ok (.occupied
      [⟨[0x66], by decide⟩, ⟨[0x70, 0x6B, 0x67], by decide⟩, ⟨[0x73, 0x72, 0x63], by decide⟩]) := by
    decide +kernel
  exact ⟨hr, (carryOut_delivers (by decide +kernel) hs (by decide +kernel) (Prod.ext hr rfl)
    (by decide +kernel)).1⟩

end MarkerCopy.FileSystem
