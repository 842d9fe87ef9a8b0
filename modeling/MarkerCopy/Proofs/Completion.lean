import MarkerCopy.Proofs.Comparing
import MarkerCopy.Proofs.Stability

/-! Copies that nothing is in the way of are made. The destination of a plan is spelled with the
output directory, slashes and names, unless a dot segment was cut out of the input's path. -/

namespace MarkerCopy

open FileSystem

/-- The names in a path. -/
def Path.names (p : Path) : List Name :=
  p.steps.filterMap fun
    | .name name => some name
    | _ => none

namespace Location

theorem text_append (below dir : Location) : text (below ++ dir) = text dir ++ text below := by
  induction below with
  | nil => simp [text]
  | cons name below ih => simp [text, ih]

/-- What a text of names ends in: the end of one of the names, and whole names after it. -/
theorem exists_of_suffix_text {loc : Location} {s : List UInt8} (h : s <:+ loc.text) :
    ∃ first below, s = first ++ text below ∧
      (first = [] ∨ ∃ name : Name, first <:+ name.bytes) := by
  induction loc generalizing s with
  | nil => exact ⟨[], [], by simpa [text] using h, .inl rfl⟩
  | cons name dir ih =>
    obtain ⟨start, hs⟩ := h
    rcases List.append_eq_append_iff.mp hs with ⟨last, hdir, hlast⟩ | ⟨cut, -, hcut⟩
    · obtain ⟨first, below, rfl, hfirst⟩ := ih ⟨start, hdir.symm⟩
      exact ⟨first, name :: below, by rw [hlast, text, List.append_assoc], hfirst⟩
    · cases cut with
      | nil => exact ⟨[], [name], hcut.symm, .inl rfl⟩
      | cons b cut =>
        have hname : name.bytes = cut ++ s := (List.cons.inj hcut).2
        exact ⟨s, [], by simp [text], .inr ⟨name, cut, hname.symm⟩⟩

theorem names_relativeText (loc : Location) : (Path.mk loc.relativeText).names = loc.reverse := by
  by_cases h : loc = []
  · subst h
    rfl
  · simp [Path.names, steps_relativeText h, List.filterMap_map]

theorem names_slash_relativeText (loc : Location) :
    (Path.mk (Path.slash :: loc.relativeText)).names = loc.reverse := by
  rw [← names_relativeText]
  rfl

theorem getLast?_relativeText {loc : Location} (h : loc ≠ []) :
    loc.relativeText ≠ [] ∧ loc.relativeText.getLast? ≠ some Path.slash := by
  have hlast := loc.getLast?_text
  rw [text_eq_cons h] at hlast
  cases hr : loc.relativeText with
  | nil => simp [hr] at hlast
  | cons b rest =>
    rw [hr, List.getLast?_cons_cons] at hlast
    exact ⟨List.cons_ne_nil b rest, hlast⟩

end Location

theorem Name.valid_of_suffix {name : Name} {s : List UInt8} (h : s <:+ name.bytes) (hne : s ≠ [])
    (hd : s ≠ [Path.dot]) (hdd : s ≠ [Path.dot, Path.dot]) : Name.Valid s := by
  obtain ⟨-, -, -, hslash, hnul, hlen⟩ := name.valid
  exact ⟨hne, hd, hdd, fun hm => hslash (h.subset hm), fun hm => hnul (h.subset hm),
    h.length_le.trans hlen⟩

/-- What is kept of a directory is spelled with its names alone, apart from a slash before them,
unless a dot segment is cut out of one of the names. -/
theorem Marker.bytes_of_relative {marker : Marker} {dir : Location} {kept : String}
    (h : marker.relative dir.path = .ok kept)
    (hd : ∀ segment ∈ (Path.ofString kept).segments,
      segment ≠ [Path.dot] ∧ segment ≠ [Path.dot, Path.dot]) :
    ∃ k, (Path.ofString kept).bytes =
      List.replicate k Path.slash ++ Location.relativeText (Path.ofString kept).names.reverse := by
  have hne := ne_nil_of_relative h
  have hsuffix : (Path.ofString kept).bytes <:+ dir.text := by
    have hs := suffix_of_relative h
    rwa [Location.path, if_neg hne] at hs
  obtain ⟨first, below, hbytes, hfirst⟩ := Location.exists_of_suffix_text hsuffix
  have hkept : Path.ofString kept = ⟨first ++ below.text⟩ := congrArg Path.mk hbytes
  rw [hkept] at hd ⊢
  by_cases hnil : first = []
  · subst hnil
    rw [List.nil_append]
    by_cases hb : below = []
    · subst hb
      exact ⟨0, rfl⟩
    · refine ⟨1, ?_⟩
      rw [Location.text_eq_cons hb, Location.names_slash_relativeText, List.reverse_reverse]
      rfl
  · obtain ⟨name, hname⟩ := hfirst.resolve_left hnil
    have hslash : Path.slash ∉ first := fun hm => name.valid.2.2.2.1 (hname.subset hm)
    have hmem : first ∈ (Path.mk (first ++ below.text)).segments := by
      by_cases hb : below = []
      · subst hb
        simp [Path.segments, Location.text, pieces_of_not_mem hslash]
      · rw [Path.segments, Location.text_eq_cons hb, pieces_append_cons, pieces_of_not_mem hslash]
        exact List.mem_cons_self
    -- the part that is left of the name is a name as well
    obtain ⟨hdot, hdots⟩ := hd first hmem
    let part : Name := ⟨first, Name.valid_of_suffix hname hnil hdot hdots⟩
    have htext : first ++ below.text = Location.relativeText (below ++ [part]) := by
      rw [Location.relativeText, Location.text_append]
      rfl
    refine ⟨0, ?_⟩
    rw [htext, Location.names_relativeText, List.reverse_reverse]
    rfl

namespace Marker

variable {dir : Location} {kept : String}

theorem head?_of_external {p : Path} (h : external.relative p = .ok kept) :
    ∃ rest, (Path.ofString kept).bytes = 0x63 :: rest := by
  obtain ⟨before, found, -, ⟨rest, rfl⟩, -, rfl⟩ := relative_eq_ok_iff.mp h
  exact ⟨_, by rw [Path.ofString_ofList]; rfl⟩

/-- No dot segment is cut out for an external file, as the first segment begins with the marker. -/
theorem not_dots_of_external (h : external.relative dir.path = .ok kept) :
    ∀ segment ∈ (Path.ofString kept).segments,
      segment ≠ [Path.dot] ∧ segment ≠ [Path.dot, Path.dot] := by
  intro segment hm
  obtain ⟨rest, hrest⟩ := head?_of_external h
  obtain ⟨first, others, hsegments⟩ : ∃ first others,
      (Path.ofString kept).segments = (0x63 :: first) :: others := by
    rw [Path.segments, hrest]
    exact pieces_cons_of_ne (by decide) rest
  rw [hsegments, List.mem_cons] at hm
  rcases hm with rfl | hm
  · simp [Path.dot]
  · have htail : segment ∈ (Path.ofString kept).segments.tail := by rwa [hsegments]
    rcases valid_of_mem_tail h htail with rfl | hv
    · simp
    · exact ⟨hv.2.1, hv.2.2.1⟩

theorem bytes_of_external (h : external.relative dir.path = .ok kept) :
    (Path.ofString kept).names.reverse ≠ [] ∧
      (Path.ofString kept).bytes =
        Location.relativeText (Path.ofString kept).names.reverse := by
  obtain ⟨rest, hrest⟩ := head?_of_external h
  obtain ⟨k, hk⟩ := bytes_of_relative h (not_dots_of_external h)
  cases k with
  | zero =>
    rw [List.replicate_zero, List.nil_append] at hk
    refine ⟨?_, hk⟩
    intro hnil
    rw [hrest, hnil] at hk
    cases hk
  | succ k =>
    rw [hrest, List.replicate_succ, List.cons_append] at hk
    cases (List.cons.inj hk).1

end Marker

/-- The step over the last name comes last, apart from idle steps. -/
theorem Path.steps_of_fileName? {p last : Path} (h : p.fileName? = some last) :
    ∃ before step after, p.steps = before ++ step :: after ∧ (∀ step ∈ after, step.isIdle) ∧
      ((∃ name : Name, last = ⟨name.bytes⟩ ∧ step = .name name) ∨
        step = .unusable last.bytes) := by
  obtain ⟨init, tail, hsegments, htail, hidle⟩ := segments_of_fileName? h
  obtain ⟨-, -, hdots⟩ := name_of_fileName? h
  refine ⟨init.map .ofSegment, .ofSegment last.bytes, tail.map .ofSegment, ?_, ?_, ?_⟩
  · rw [steps, hsegments, List.map_append, List.map_cons]
  · intro step hm
    obtain ⟨segment, hs, rfl⟩ := List.mem_map.mp hm
    exact Step.isIdle_ofSegment (htail segment hs)
  · rcases Step.ofSegment_cases hidle hdots with ⟨name, hname, hstep⟩ | hstep
    · exact .inl ⟨name, congrArg Path.mk hname, hstep⟩
    · exact .inr hstep

/-- A walk that ends has met no segment that cannot be a name. -/
theorem Reaches.unusable_not_mem {fs : FileSystem} {w v : Walk} {segment : List UInt8}
    (h : Reaches fs w v) (hv : v.rest = []) : .unusable segment ∉ w.rest := by
  induction h using Relation.ReflTransGen.head_induction_on with
  | refl => simp [hv]
  | head hs _ ih =>
    cases hs with
    | idle hs _ =>
      have hstep : ∀ step : Step, step.isIdle → .unusable segment ≠ step := by
        rintro _ hi rfl
        cases hi
      simpa [hstep _ hs] using ih
    | up _ => simpa using ih
    | enter _ _ _ => simpa using ih
    | link _ _ =>
      have hrest := fun hm => ih (List.mem_append_right _ hm)
      simpa using hrest

theorem mem_of_emerge {removed : Nat} {steps rest : List Step} {segment : List UInt8}
    (h : emerge removed steps = some rest) (hm : .unusable segment ∈ steps) :
    .unusable segment ∈ rest := by
  fun_induction emerge removed steps with
  | case1 steps =>
    cases h
    exact hm
  | case3 removed rest ih | case4 removed rest ih | case5 removed rest ih =>
    exact ih h (by simpa using hm)
  | case2 | case6 | case7 => cases h

theorem FileSystem.unusable_not_mem_steps {fs : FileSystem} {cwd : WorkingDirectory} {p : Path}
    {loc : Location} {segment : List UInt8} (h : fs.locate cwd .find p = .ok (.occupied loc)) :
    .unusable segment ∉ p.steps := by
  obtain ⟨w, n, hw, hr⟩ := locate_find_eq_occupied_iff.mp h
  have hrest : .unusable segment ∉ w.rest := hr.unusable_not_mem rfl
  unfold Path.walk? at hw
  split at hw
  · cases hw
  · split at hw
    · cases hw
      exact hrest
    · obtain ⟨rest, he, rfl⟩ := Option.map_eq_some_iff.mp hw
      exact fun hm => hrest (mem_of_emerge he hm)

/-- The last name of a path that leads somewhere is a name that entries can have. -/
theorem Path.exists_name_of_fileName? {fs : FileSystem} {cwd : WorkingDirectory} {p last : Path}
    {loc : Location} (hn : p.fileName? = some last)
    (hl : fs.locate cwd .find p = .ok (.occupied loc)) : ∃ name : Name, last = ⟨name.bytes⟩ := by
  obtain ⟨before, step, after, hsteps, -, ⟨name, hname, -⟩ | rfl⟩ := steps_of_fileName? hn
  · exact ⟨name, hname⟩
  · have hm : Step.unusable last.bytes ∈ p.steps := by simp [hsteps]
    exact absurd hm (unusable_not_mem_steps hl)

theorem Path.join_below {root : List UInt8} (hr : root.getLast? = some slash) (dir : Location)
    (name : Name) : (below root dir).join ⟨name.bytes⟩ = below root (name :: dir) := by
  have hempty : ¬ (below root dir).isEmpty := by
    obtain ⟨start, rfl⟩ := List.getLast?_eq_some_iff.mp hr
    simp [below, isEmpty]
  unfold join
  rw [if_neg (Location.not_isAbsolute name)]
  by_cases hd : dir = []
  · subst hd
    have hlast : (below root []).bytes.getLast? = some slash := by
      rwa [below, Location.relativeText, Location.text, List.tail_nil, List.append_nil]
    rw [if_pos (by simp [hlast])]
    simp [below, Location.relativeText, Location.text]
  · obtain ⟨hne, hlast⟩ := Location.getLast?_relativeText hd
    have hlast' : (below root dir).bytes.getLast? ≠ some slash := by
      rwa [below, List.getLast?_append_of_ne_nil _ hne]
    rw [if_neg (by simp [hempty, hlast']), below_cons root name hd]

section

variable {fs : FileSystem} {cwd : WorkingDirectory} {request : Request} {plan : Plan} {last : Path}
  {base src : Location}

/-- Where the destination of a plan is, seen from the output directory. -/
theorem Planned.exists_entrance (h : Planned request (fs.canonical cwd request.infile) plan last)
    (hs : fs.locate cwd .find request.infile = .ok (.occupied src))
    (ho : fs.locate cwd .find (.ofString request.outdir) = .ok (.occupied base))
    (hb : fs.isDirectory base)
    (hd : ∀ segment ∈ (Path.ofString plan.relativeDir).segments,
      segment ≠ [Path.dot] ∧ segment ≠ [Path.dot, Path.dot])
    (hlen : plan.destinationFile.bytes.length < pathLimit) :
    ∃ (root : List UInt8) (k : Nat) (name : Name), last = ⟨name.bytes⟩ ∧
      root = (Path.ofString request.outdir).bytes ++ List.replicate k Path.slash ∧
      root.getLast? = some Path.slash ∧ fs.Entrance cwd root base ∧
      plan.destinationDir = Path.below root (Path.ofString plan.relativeDir).names.reverse ∧
      plan.destinationFile =
        Path.below root (name :: (Path.ofString plan.relativeDir).names.reverse) := by
  obtain ⟨dir, -, hrel⟩ := h.relative_directory
  obtain ⟨k, hkept⟩ := Marker.bytes_of_relative hrel hd
  obtain ⟨name, rfl⟩ := Path.exists_name_of_fileName? h.fileName hs
  obtain ⟨start, hslash, hstart, hbytes⟩ := outputPath_eq request.outdir plan.relativeDir
  let root := start ++ List.replicate k Path.slash
  have hlast : root.getLast? = some Path.slash := by
    cases k with
    | zero => simpa [root] using hslash
    | succ k => simp [root, List.getLast?_append, List.getLast?_replicate]
  have hroot : ∃ j, root = (Path.ofString request.outdir).bytes ++ List.replicate j Path.slash := by
    rcases hstart with rfl | rfl
    · exact ⟨k, rfl⟩
    · exact ⟨k + 1, by simp [root, List.replicate_succ]⟩
  have hdir : plan.destinationDir =
      Path.below root (Path.ofString plan.relativeDir).names.reverse := by
    have hpath : outputPath request.outdir plan.relativeDir =
        ⟨start ++ (Path.ofString plan.relativeDir).bytes⟩ := congrArg Path.mk hbytes
    rw [h.destinationDir, hpath, hkept, ← List.append_assoc]
    rfl
  have hfile : plan.destinationFile =
      Path.below root (name :: (Path.ofString plan.relativeDir).names.reverse) := by
    rw [h.destinationFile, hdir, Path.join_below hlast]
  have hshort : root.length < pathLimit := by
    rw [hfile, Path.below, List.length_append] at hlen
    omega
  obtain ⟨j, hj⟩ := hroot
  exact ⟨root, j, name, rfl, hj, hlast, entrance_of_locate ho hb hj hlast hshort, hdir, hfile⟩

end

/-- A copy is made whenever its output directory is there, nothing but directories is on the way
down from it, and no link or directory has the place of the new file. The directories that were
missing on the way are all that is made besides the file. -/
theorem run_of_unobstructed {fs : FileSystem} {cwd : WorkingDirectory} {request : Request}
    {plan : Plan} {base src : Location} (hc : fs.isDirectory cwd.above)
    (hdry : request.dryRun = false)
    (hp : request.plan (fs.canonical cwd request.infile) = .ok plan)
    (hs : fs.locate cwd .find request.infile = .ok (.occupied src)) (hf : fs.isFile src)
    (ho : fs.locate cwd .find (.ofString request.outdir) = .ok (.occupied base))
    (hb : fs.isDirectory base)
    (hd : ∀ segment ∈ (Path.ofString plan.relativeDir).segments,
      segment ≠ [Path.dot] ∧ segment ≠ [Path.dot, Path.dot])
    (hway : fs.Unobstructed ((Path.ofString plan.relativeDir).names.reverse ++ base))
    (htarget : ∀ name : Name, request.infile.fileName? = some ⟨name.bytes⟩ →
      fs.get? (name :: ((Path.ofString plan.relativeDir).names.reverse ++ base)) = none ∨
        fs.isFile (name :: ((Path.ofString plan.relativeDir).names.reverse ++ base)))
    (hlen : plan.destinationFile.bytes.length < pathLimit) :
    let dir := (Path.ofString plan.relativeDir).names.reverse ++ base
    ∃ (name : Name) (bytes : Nat) (after : FileSystem),
      request.infile.fileName? = some ⟨name.bytes⟩ ∧
      ((disk cwd).run request).run fs =
        (.ok (.copied ⟨plan, decide (fs.get? dir = none), bytes⟩), after) ∧
      after.locate cwd .find plan.destinationFile = .ok (.occupied (name :: dir)) ∧
      after.isFile (name :: dir) ∧
      ∀ loc, name :: dir ≠ loc → after.get? loc =
        if fs.get? loc = none ∧ loc <:+ dir then some (.directory .forDirectory)
        else fs.get? loc := by
  intro dir
  obtain ⟨last, h⟩ := planned_of_plan hp
  obtain ⟨root, -, name, rfl, -, hr, hent, hdir, hfile⟩ := h.exists_entrance hs ho hb hd hlen
  obtain ⟨content, permissions, hg⟩ := isFile_iff.mp hf
  rw [← h.source] at hs
  obtain ⟨mid, copied, after, hrun, hlaid, hcop, -, hlocate⟩ :=
    hent.run_carryOut hc hr hdir hfile hlen hway (htarget name h.fileName) hs hg
  refine ⟨name, copied.size, after, h.fileName, ?_, hlocate, ?_, ?_⟩
  · exact run_eq_copied_iff.mpr ⟨hdry, plan, hp, hrun⟩
  · exact isFile_iff.mpr ⟨copied, permissions, hcop.written⟩
  · intro loc hne
    rw [hcop.others loc hne, hlaid loc]

def halfMirroredFiles : FileSystem :=
  ofEntries [
    ("/p/src/a/b/c/f", .file ⟨#[1, 2, 3]⟩ .forFile),
    ("/real/a/g", .file ⟨#[9]⟩ .forFile),
    ("/out", .link (.ofString "real"))]

def halfMirroredRequest : Request :=
  { infile := .ofString "/p/src/a/b/c/f", outdir := "/out", marker := .source, dryRun := false }

def halfMirroredPlan : Plan where
  source := .ofString "/p/src/a/b/c/f"
  canonicalSource := .ofString "/p/src/a/b/c/f"
  marker := .source
  relativeDir := "a/b/c"
  relativeFile := "a/b/c/f"
  destinationDir := .ofString "/out/a/b/c"
  destinationFile := .ofString "/out/a/b/c/f"

theorem run_of_unobstructed_halfMirrored :
    ∃ (bytes : Nat) (after : FileSystem),
      ((disk (.ofLocation [])).run halfMirroredRequest).run halfMirroredFiles =
        (.ok (.copied ⟨halfMirroredPlan, true, bytes⟩), after) ∧
      halfMirroredFiles.get? (Path.ofString "/real/a/b").names.reverse = none ∧
      after.get? (Path.ofString "/real/a/b").names.reverse = some (.directory .forDirectory) := by
  have hp : halfMirroredRequest.plan (halfMirroredFiles.canonical (.ofLocation [])
      halfMirroredRequest.infile) = .ok halfMirroredPlan := by decide +kernel
  have hs : halfMirroredFiles.locate (.ofLocation []) .find halfMirroredRequest.infile =
      .ok (.occupied (Path.ofString "/p/src/a/b/c/f").names.reverse) := by decide +kernel
  have ho : halfMirroredFiles.locate (.ofLocation []) .find
      (.ofString halfMirroredRequest.outdir) =
        .ok (.occupied (Path.ofString "/real").names.reverse) := by decide +kernel
  have hname : halfMirroredRequest.infile.fileName? = some ⟨[0x66]⟩ := by decide +kernel
  obtain ⟨name, bytes, after, hn, hrun, -, -, hothers⟩ :=
    run_of_unobstructed (by decide +kernel) rfl hp hs (by decide +kernel) ho (by decide +kernel)
      (by decide +kernel) (by decide +kernel)
      (fun name hn => by
        obtain rfl : name = ⟨[0x66], by decide⟩ :=
          Name.ext_bytes (congrArg Path.bytes (Option.some.inj (hn.symm.trans hname)))
        decide +kernel)
      (by decide +kernel)
  obtain rfl : name = ⟨[0x66], by decide⟩ :=
    Name.ext_bytes (congrArg Path.bytes (Option.some.inj (hn.symm.trans hname)))
  exact ⟨bytes, after, hrun, by decide +kernel, hothers _ (by decide +kernel)⟩

end MarkerCopy
