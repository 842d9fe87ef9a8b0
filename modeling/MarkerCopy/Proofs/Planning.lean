import MarkerCopy.Plan

/-! What a plan is made of. -/

namespace MarkerCopy

/-- The parts of a plan that is made for a request, whose file has the given name. -/
structure Planned (request : Request) (resolved : Except Cause Path) (plan : Plan)
    (name : Path) : Prop where
  fileName : request.infile.fileName? = some name
  resolved : resolved = .ok plan.canonicalSource
  relativeFile : request.marker.relative plan.canonicalSource = .ok plan.relativeFile
  relativeDir : request.marker.relative (plan.canonicalSource.parent?.getD ⟨[]⟩) =
    .ok plan.relativeDir
  source : plan.source = request.infile
  marker : plan.marker = request.marker
  destinationDir : plan.destinationDir = outputPath request.outdir plan.relativeDir
  destinationFile : plan.destinationFile = plan.destinationDir.join name

theorem ok_of_bind {ε α β : Type} {x : Except ε α} {f : α → Except ε β} {b : β}
    (h : x >>= f = .ok b) : ∃ a, x = .ok a ∧ f a = .ok b := by
  cases x with
  | error e => cases h
  | ok a => exact ⟨a, rfl, h⟩

theorem bind_eq_ok_iff {ε α β : Type} {x : Except ε α} {f : α → Except ε β} {b : β} :
    x >>= f = .ok b ↔ ∃ a, x = .ok a ∧ f a = .ok b := by
  constructor
  · exact ok_of_bind
  · rintro ⟨a, rfl, h⟩
    exact h

theorem error_of_bind {ε α β : Type} {x : Except ε α} {f : α → Except ε β} {e : ε}
    (h : x >>= f = .error e) : x = .error e ∨ ∃ a, x = .ok a ∧ f a = .error e := by
  cases x with
  | error e' =>
    cases h
    exact .inl rfl
  | ok a => exact .inr ⟨a, rfl, h⟩

theorem bind_eq_error_iff {ε α β : Type} {x : Except ε α} {f : α → Except ε β} {e : ε} :
    x >>= f = .error e ↔ x = .error e ∨ ∃ a, x = .ok a ∧ f a = .error e := by
  constructor
  · exact error_of_bind
  · rintro (rfl | ⟨a, rfl, h⟩)
    · rfl
    · exact h

theorem planned_of_plan {request : Request} {resolved : Except Cause Path} {plan : Plan}
    (h : request.plan resolved = .ok plan) : ∃ name, Planned request resolved plan name := by
  unfold Request.plan at h
  split at h
  · cases h
  · next name hn =>
    obtain ⟨canonical, hc, h⟩ := ok_of_bind h
    obtain ⟨relativeFile, hfile, h⟩ := ok_of_bind h
    obtain ⟨relativeDir, hdir, h⟩ := ok_of_bind h
    cases h
    cases resolved with
    | error cause => cases hc
    | ok canonical' =>
      cases hc
      exact ⟨name, hn, rfl, hfile, hdir, rfl, rfl, rfl, rfl⟩

theorem planned_of_plan_of_fileName {request : Request} {resolved : Except Cause Path}
    {plan : Plan} {name : Path} (hp : request.plan resolved = .ok plan)
    (hn : request.infile.fileName? = some name) : Planned request resolved plan name := by
  obtain ⟨name', h⟩ := planned_of_plan hp
  obtain rfl : name = name' := Option.some.inj (hn.symm.trans h.fileName)
  exact h

theorem plan_of_relative {request : Request} {name canonical : Path}
    {relativeFile relativeDir : String} (hn : request.infile.fileName? = some name)
    (hfile : request.marker.relative canonical = .ok relativeFile)
    (hdir : request.marker.relative (canonical.parent?.getD ⟨[]⟩) = .ok relativeDir) :
    ∃ plan, request.plan (.ok canonical) = .ok plan ∧ plan.relativeDir = relativeDir := by
  simp only [Request.plan, hn, bind_eq_ok_iff]
  exact ⟨_, ⟨canonical, rfl, relativeFile, hfile, relativeDir, hdir, rfl⟩, rfl⟩

theorem Marker.relative_eq_error {marker : Marker} {p : Path} {failure : Failure}
    (h : marker.relative p = .error failure) :
    failure = .notUtf8 p ∨ failure = .markerNotFound marker p := by
  unfold relative at h
  split at h
  · exact .inl (Except.error.inj h).symm
  · split at h
    · exact .inr (Except.error.inj h).symm
    · cases h

theorem Request.plan_eq_error {request : Request} {resolved : Except Cause Path}
    {failure : Failure} (h : request.plan resolved = .error failure) :
    failure = .missingFileName request.infile ∨
    (∃ cause, failure = .file .canonicalize request.infile cause) ∨
    ∃ p, failure = .notUtf8 p ∨ failure = .markerNotFound request.marker p := by
  unfold plan at h
  split at h
  · exact .inl (Except.error.inj h).symm
  · rcases error_of_bind h with hc | ⟨canonical, -, h⟩
    · cases resolved with
      | error cause => exact .inr (.inl ⟨cause, (Except.error.inj hc).symm⟩)
      | ok canonical => cases hc
    · rcases error_of_bind h with hfile | ⟨relativeFile, -, h⟩
      · exact .inr (.inr ⟨_, Marker.relative_eq_error hfile⟩)
      · rcases error_of_bind h with hdir | ⟨relativeDir, -, h⟩
        · exact .inr (.inr ⟨_, Marker.relative_eq_error hdir⟩)
        · cases h

/-- The output directory is spelled with a slash at its end in the paths below it. -/
theorem outputPath_eq (outdir relativeDir : String) :
    ∃ root : List UInt8, root.getLast? = some Path.slash ∧
      (root = (Path.ofString outdir).bytes ∨ root = (Path.ofString outdir).bytes ++ [Path.slash]) ∧
      (outputPath outdir relativeDir).bytes = root ++ (Path.ofString relativeDir).bytes := by
  have hslash : Utf8.encode ['/'] = [Path.slash] := rfl
  unfold outputPath
  split
  · next h =>
    obtain ⟨start, hs⟩ := List.getLast?_eq_some_iff.mp h
    refine ⟨_, ?_, .inl rfl, ?_⟩
    · simp [Path.ofString, hs, Utf8.encode_append, hslash]
    · simp [Path.ofString, Utf8.encode_append]
  · refine ⟨_, ?_, .inr rfl, ?_⟩
    · simp
    · have happ := Utf8.encode_append ['/'] relativeDir.toList
      simpa [Path.ofString, Utf8.encode_append, hslash] using happ

theorem not_isEmpty_outputPath (outdir relativeDir : String) :
    ¬ (outputPath outdir relativeDir).isEmpty := by
  obtain ⟨root, hslash, -, hbytes⟩ := outputPath_eq outdir relativeDir
  obtain ⟨start, rfl⟩ := List.getLast?_eq_some_iff.mp hslash
  simp [Path.isEmpty, hbytes]

theorem Planned.not_isEmpty_destinationDir {request : Request} {resolved : Except Cause Path}
    {plan : Plan} {name : Path} (h : Planned request resolved plan name) :
    ¬ plan.destinationDir.isEmpty := by
  rw [h.destinationDir]
  exact not_isEmpty_outputPath request.outdir plan.relativeDir

end MarkerCopy
