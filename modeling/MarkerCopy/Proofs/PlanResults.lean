import MarkerCopy.Proofs.CanonicalDescent
import MarkerCopy.Proofs.Occurring

/-! How planning ends. What a request is refused for is decided by the spelling of its input first,
and by the canonical path after that. -/

namespace MarkerCopy

open FileSystem

variable {fs : FileSystem} {cwd : WorkingDirectory} {request : Request} {resolved : Except Cause Path}
  {name canonical : Path} {failure : Failure}

theorem plan_of_fileName_eq_none (h : request.infile.fileName? = none) :
    request.plan resolved = .error (.missingFileName request.infile) := by
  simp only [Request.plan, h]

theorem plan_of_canonical_eq_error {cause : Cause} (h : request.infile.fileName? = some name) :
    request.plan (.error cause) = .error (.file .canonicalize request.infile cause) := by
  simp only [Request.plan, h]
  rfl

theorem plan_eq_error_iff_relative (h : request.infile.fileName? = some name) :
    request.plan (.ok canonical) = .error failure ↔
      request.marker.relative canonical = .error failure ∨
      (∃ file, request.marker.relative canonical = .ok file) ∧
        request.marker.relative (canonical.parent?.getD ⟨[]⟩) = .error failure := by
  simp only [Request.plan, h, bind_eq_error_iff]
  constructor
  · rintro (hc | ⟨_, hc, hfile | ⟨file, hfile, hdir | ⟨dir, -, hdir⟩⟩⟩)
    · cases hc
    · cases hc
      exact .inl hfile
    · cases hc
      exact .inr ⟨⟨file, hfile⟩, hdir⟩
    · cases hdir
  · rintro (hfile | ⟨⟨file, hfile⟩, hdir⟩)
    · exact .inr ⟨canonical, rfl, .inl hfile⟩
    · exact .inr ⟨canonical, rfl, .inr ⟨file, hfile, .inl hdir⟩⟩

/-- A canonical path is refused if it is not text, if the marker does not occur in it, or if it
occurs in nothing but the last name. -/
theorem plan_eq_error_iff (h : request.infile.fileName? = some name) (loc : Location) :
    request.plan (.ok loc.path) = .error failure ↔
      ¬ loc.path.IsText ∧ failure = .notUtf8 loc.path ∨
      loc.path.IsText ∧ ¬ request.marker.OccursIn loc.path ∧
        failure = .markerNotFound request.marker loc.path ∨
      loc.path.IsText ∧ request.marker.OccursIn loc.path ∧ ∃ dir, loc.path.parent? = some dir ∧
        ¬ request.marker.OccursIn dir ∧ failure = .markerNotFound request.marker dir := by
  rw [plan_eq_error_iff_relative h, Marker.relative_eq_error_iff, Marker.exists_relative_iff,
    Marker.relative_eq_error_iff]
  cases loc with
  | nil =>
    have hroot : ¬ request.marker.OccursIn (Location.path []) := request.marker.not_infix_root
    have hparent : (Location.path []).parent? = none := rfl
    simp [hroot, hparent]
  | cons last dir =>
    rw [Location.parent?_path]
    by_cases ht : (Location.path (last :: dir)).IsText
    · have hdir : (Location.path dir).IsText := (Location.isText_path_cons_iff.mp ht).1
      simp [ht, hdir]
    · simp [ht]

theorem exists_plan_iff (h : request.infile.fileName? = some name) (loc : Location) :
    (∃ plan, request.plan (.ok loc.path) = .ok plan) ↔
      loc.path.IsText ∧ ∃ dir, loc.path.parent? = some dir ∧ request.marker.OccursIn dir := by
  constructor
  · rintro ⟨plan, hp⟩
    obtain ⟨_, hplanned⟩ := planned_of_plan hp
    obtain ⟨text, -⟩ := Marker.exists_relative_iff.mp ⟨_, hplanned.relativeFile⟩
    obtain ⟨-, hdir⟩ := Marker.exists_relative_iff.mp ⟨_, hplanned.relativeDir⟩
    rw [← Except.ok.inj hplanned.resolved] at text hdir
    refine ⟨text, ?_⟩
    cases loc with
    | nil => exact absurd (hdir.trans List.nil_infix) request.marker.not_infix_root
    | cons last dir =>
      rw [Location.parent?_path] at hdir ⊢
      exact ⟨_, rfl, hdir⟩
  · rintro ⟨ht, dir, hparent, hdir⟩
    cases loc with
    | nil => cases hparent
    | cons last above =>
      obtain rfl := Option.some.inj ((Location.parent?_path last above).symm.trans hparent)
      have hfile : request.marker.OccursIn (Location.path (last :: above)) :=
        Location.occursIn_path_cons_iff.mpr (.inl hdir)
      obtain ⟨relativeFile, hfile⟩ := Marker.exists_relative_iff.mpr ⟨ht, hfile⟩
      obtain ⟨relativeDir, hdir⟩ := Marker.exists_relative_iff.mpr
        ⟨(Location.isText_path_cons_iff.mp ht).1, hdir⟩
      have hdir' : request.marker.relative
          ((Location.path (last :: above)).parent?.getD ⟨[]⟩) = .ok relativeDir := by
        rwa [Location.parent?_path]
      obtain ⟨plan, hp, -⟩ := plan_of_relative h hfile hdir'
      exact ⟨plan, hp⟩

theorem parent?_path_ne (loc : Location) : loc.path.parent? ≠ some loc.path := by
  cases loc with
  | nil => decide
  | cons last dir => simp [Location.parent?_path]

/-- All the ends of planning. A marker in the last name alone does not count, and the name of the
input is asked for before anything else. -/
theorem plan_result_iff (fs : FileSystem) (cwd : WorkingDirectory) (request : Request) :
    let result := (((disk cwd).plan request).run fs).1
    let resolved := fs.canonical cwd request.infile
    (result = .error (.missingFileName request.infile) ↔ request.infile.fileName? = none) ∧
    (request.infile.fileName? ≠ none →
      (∀ cause, result = .error (.file .canonicalize request.infile cause) ↔
        resolved = .error cause) ∧
      ∀ canonical, resolved = .ok canonical →
        (result = .error (.notUtf8 canonical) ↔ ¬ canonical.IsText) ∧
        (∀ dir, canonical.parent? = some dir → result ≠ .error (.notUtf8 dir)) ∧
        (canonical.IsText →
          (result = .error (.markerNotFound request.marker canonical) ↔
            ¬ request.marker.OccursIn canonical) ∧
          (request.marker.OccursIn canonical → ∃ dir, canonical.parent? = some dir ∧
            (result = .error (.markerNotFound request.marker dir) ↔
              ∀ segment ∈ canonical.segments.dropLast, ¬ request.marker.OccursIn ⟨segment⟩) ∧
            ((∃ plan, result = .ok plan) ↔
              ∃ segment ∈ canonical.segments.dropLast, request.marker.OccursIn ⟨segment⟩)))) ∧
    ((∃ plan, result = .ok plan) ↔ request.infile.fileName? ≠ none ∧
      ∃ canonical dir, resolved = .ok canonical ∧ canonical.IsText ∧
        canonical.parent? = some dir ∧ request.marker.OccursIn dir) := by
  intro result resolved
  have hresult : result = request.plan resolved := rfl
  rw [hresult]
  cases hn : request.infile.fileName? with
  | none => simp [plan_of_fileName_eq_none hn]
  | some name =>
    cases hr : resolved with
    | error cause => simp [plan_of_canonical_eq_error hn]
    | ok canonical =>
      obtain ⟨loc, rfl⟩ := eq_path_of_canonical hr
      have hok := exists_plan_iff hn loc
      have herror (failure : Failure) : request.plan (.ok loc.path) = .error failure ↔ _ :=
        plan_eq_error_iff hn loc
      refine ⟨by simp [herror], fun _ => ⟨by simp [herror], ?_⟩, by simp [hok]⟩
      rintro _ ⟨⟩
      refine ⟨by simp [herror], ?_, fun ht => ⟨by simp [herror, ht], fun ho => ?_⟩⟩
      · rintro dir hdir hutf
        rcases (herror _).mp hutf with ⟨-, hsame⟩ | ⟨-, -, hsame⟩ | ⟨-, -, _, -, -, hsame⟩
        · cases hsame
          exact parent?_path_ne loc hdir
        · cases hsame
        · cases hsame
      · cases loc with
        | nil => exact absurd ho request.marker.not_infix_root
        | cons last above =>
          have hparent := Location.parent?_path last above
          refine ⟨_, hparent, ?_, ?_⟩
          · have hsegment := Location.exists_occursIn_segment_iff request.marker last above
            rw [herror, hparent]
            simpa [ht, ho] using (not_congr hsegment).symm
          · rw [hok, Location.exists_occursIn_segment_iff, hparent]
            simp [ht]

def namelessFiles : FileSystem :=
  ofEntries [("/p/src/pkg/sub", .directory .forDirectory)]

def namelessRequest : Request :=
  { infile := .ofString "/p/src/pkg/sub/..", outdir := "/out", marker := .source, dryRun := false }

/-- The spelling of the input matters: it has to end in a name. -/
theorem nameless_spelling_refused :
    ¬ ∀ (fs : FileSystem) (cwd : WorkingDirectory) (request : Request),
      (∃ plan, (((disk cwd).plan request).run fs).1 = .ok plan) ↔
        ∃ canonical dir, fs.canonical cwd request.infile = .ok canonical ∧ canonical.IsText ∧
          canonical.parent? = some dir ∧ request.marker.OccursIn dir := by
  intro h
  have hcanonical : namelessFiles.canonical (.ofLocation []) namelessRequest.infile =
      .ok (.ofString "/p/src/pkg") := by decide +kernel
  obtain ⟨plan, hp⟩ := (h namelessFiles (.ofLocation []) namelessRequest).mpr
    ⟨_, .ofString "/p/src", hcanonical, ⟨_, rfl⟩, by decide, by decide⟩
  rw [run_plan, plan_of_fileName_eq_none (by decide)] at hp
  cases hp

end MarkerCopy
