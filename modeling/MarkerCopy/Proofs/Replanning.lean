import MarkerCopy.Proofs.CanonicalDescent

/-! Plans for canonical paths. The canonical path of an entry is its own canonical path, wherever
that is asked for, so a plan for it can differ in the name of the new file alone. -/

namespace MarkerCopy

def Stop.location : Stop Location → Location
  | .done loc => loc
  | .link dir _ _ => dir

namespace FileSystem

variable {fs : FileSystem} {cwd : WorkingDirectory} {loc : Location} {steps : List Step}
  {p last : Path}

/-- Whether the canonical path of a location can be looked up again. -/
structure Resolvable (fs : FileSystem) (loc : Location) : Prop where
  stands : fs.Stands loc
  fits : loc.text.length < pathLimit

theorem resolvable_root (fs : FileSystem) : fs.Resolvable [] :=
  ⟨stands_of_isDirectory fs.isDirectory_root, by decide⟩

theorem Resolvable.tail (h : fs.Resolvable loc) : fs.Resolvable loc.tail := by
  cases loc with
  | nil => exact h
  | cons name dir =>
    obtain ⟨entry, hg, -⟩ := h.stands
    have hfits := h.fits
    rw [Location.text, List.length_append] at hfits
    refine ⟨stands_of_isDirectory (isDirectory_of_get?_cons (Option.isSome_of_eq_some hg)), ?_⟩
    rw [List.tail_cons]
    omega

theorem resolvable_of_fits {name : Name} (hd : fs.isDirectory loc)
    (h : ¬ loc.overflows name.bytes false) : fs.Resolvable loc := by
  refine ⟨stands_of_isDirectory hd, ?_⟩
  simp only [Location.overflows, decide_eq_true_eq, List.length_append] at h
  omega

/-- Where a walk for a canonical path stops, it has looked up the path of that place, unless it
has looked up nothing. -/
theorem resolvable_of_advanceCanonically {stop : Stop Location}
    (h : fs.advanceCanonically loc steps = .ok stop)
    (hl : fs.Resolvable loc ∨ ∃ step ∈ steps, ¬ step.isIdle ∧ step ≠ .up) :
    fs.Resolvable stop.location := by
  induction steps generalizing loc with
  | nil =>
    cases h
    exact hl.resolve_right (by simp)
  | cons step rest ih =>
    cases step with
    | blank | here =>
      rw [advanceCanonically_cons_idle rfl] at h
      exact ih h (hl.imp_right fun hs => by simpa [Step.isIdle] using hs)
    | up =>
      rw [advanceCanonically_up] at h
      exact ih h (hl.imp Resolvable.tail fun hs => by simpa using hs)
    | unusable segment => cases h
    | name name =>
      obtain ⟨hlen, hd, ⟨target, hg, rfl⟩ | ⟨entry, hg, hlink, -, -, hgo⟩⟩ :=
        advanceCanonically_name_cases h
      · exact resolvable_of_fits hd hlen
      · refine ih hgo (.inl ⟨⟨entry, hg, hlink⟩, ?_⟩)
        simpa [Location.overflows, Location.text] using hlen

theorem resolvable_of_follow {links : Nat} {found : Location}
    (h : follow fs.advanceCanonically links loc steps = .ok found)
    (hl : fs.Resolvable loc ∨ ∃ step ∈ steps, ¬ step.isIdle ∧ step ≠ .up) :
    fs.Resolvable found := by
  -- after a link the walk goes on from a directory that was looked up
  induction links generalizing loc steps with
  | zero =>
    rcases follow_cases h with hf | ⟨_, _, _, _, hlinks, -, -⟩
    · exact resolvable_of_advanceCanonically hf hl
    · cases hlinks
  | succ links ih =>
    rcases follow_cases h with hf | ⟨_, dir, target, rest, ⟨⟩, hf, hgo⟩
    · exact resolvable_of_advanceCanonically hf hl
    · have hdir : fs.Resolvable dir := resolvable_of_advanceCanonically hf hl
      refine ih hgo (.inl ?_)
      split
      · exact fs.resolvable_root
      · exact hdir

theorem resolvable_of_canonical (h : fs.canonical cwd p = .ok loc.path)
    (hn : p.fileName? = some last) : fs.Resolvable loc := by
  obtain ⟨-, -, -, found, hf, hloc⟩ := canonical_eq_ok_iff.mp h
  obtain rfl : loc = found := Location.path_inj.mp hloc
  obtain ⟨before, step, after, hsteps, -, hstep⟩ := Path.steps_of_fileName? hn
  have hmem : step ∈ p.steps := by simp [hsteps]
  refine resolvable_of_follow hf (.inr ⟨step, hmem, ?_⟩)
  rcases hstep with ⟨name, -, rfl⟩ | rfl
  · simp [Step.isIdle]
  · simp [Step.isIdle]

/-- A canonical path does not change if it is resolved again. -/
theorem Resolvable.canonical (h : fs.Resolvable loc) (cwd : WorkingDirectory) :
    fs.canonical cwd loc.path = .ok loc.path := by
  have hroot : fs.canonical cwd (Location.path []) = .ok (Location.path []) :=
    canonical_eq_ok_iff.mpr ⟨by decide, by decide, fun hr => hr.1 rfl, [], follow_done rfl _, rfl⟩
  by_cases hne : loc = []
  · subst hne
    exact hroot
  · have hpath : Location.path loc = ⟨loc.text⟩ := if_neg hne
    have hstands : fs.Stands (loc ++ []) := by
      rw [List.append_nil]
      exact h.stands
    have hfits : (Location.path (loc ++ [])).bytes.length < pathLimit := by
      rw [List.append_nil, hpath]
      exact h.fits
    have hbelow := canonical_below (k := 0) hroot rfl rfl hne hstands hfits
    rw [List.append_nil, List.replicate_zero, List.append_nil] at hbelow
    exact (congrArg (fs.canonical cwd) (Location.path_eq_below hne)).trans hbelow

theorem reaches_of_idle {n : Nat} {v : Walk} (hs : ∀ step ∈ steps, step.isIdle)
    (h : Reaches fs ⟨n, loc, steps⟩ v) (hv : v.rest = []) : v.loc = loc := by
  induction steps with
  | nil => exact (congrArg Walk.loc (h.eq_of_rest_eq_nil rfl)).symm
  | cons step rest ih =>
    obtain ⟨hstep, hrest⟩ := List.forall_mem_cons.mp hs
    rcases Relation.ReflTransGen.cases_head h with rfl | ⟨w, hw, hr⟩
    · cases hv
    · cases hw with
      | idle _ _ => exact ih hrest hr
      | up _ | enter _ _ _ | link _ _ => cases hstep

/-- What the last name in a path stands for, apart from what is idle after it. A link is not
followed there. -/
def lastEntry? (fs : FileSystem) (cwd : WorkingDirectory) (p : Path) : Option Entry :=
  match p.steps.reverse.dropWhile Step.isIdle with
  | .name name :: above =>
    match fs.walk .find (if p.isAbsolute then [] else cwd.above) above.reverse with
    | .ok (.occupied dir) => fs.get? (name :: dir)
    | _ => none
  | _ => none

theorem lastEntry?_eq {before after : List Step} {name : Name} {dir : Location}
    (hsteps : p.steps = before ++ .name name :: after) (hafter : ∀ step ∈ after, step.isIdle)
    (hw : fs.walk .find (if p.isAbsolute then [] else cwd.above) before = .ok (.occupied dir)) :
    fs.lastEntry? cwd p = fs.get? (name :: dir) := by
  have hdrop : p.steps.reverse.dropWhile Step.isIdle = .name name :: before.reverse := by
    rw [hsteps, List.reverse_append, List.reverse_cons, List.append_assoc,
      List.dropWhile_append_of_pos fun step hm => hafter step (List.mem_reverse.mp hm)]
    rfl
  unfold lastEntry?
  simp only [hdrop, List.reverse_reverse, hw]

/-- The base name of a path is that of its canonical path, unless the last name is a link. -/
theorem exists_lastEntry (h : fs.canonical cwd p = .ok loc.path) (hn : p.fileName? = some last)
    (hc : fs.isDirectory cwd.above) :
    (∃ target, fs.lastEntry? cwd p = some (.link target)) ∨ loc.path.fileName? = some last := by
  obtain ⟨-, -, -, found, hf, hloc⟩ := canonical_eq_ok_iff.mp h
  obtain rfl : loc = found := Location.path_inj.mp hloc
  have hd : fs.isDirectory (if p.isAbsolute then [] else cwd.above) := by
    split
    · exact fs.isDirectory_root
    · exact hc
  obtain ⟨before, step, after, hsteps, hafter, hstep⟩ := Path.steps_of_fileName? hn
  obtain ⟨n, hr⟩ : ∃ n, Reaches fs ⟨linkLimit, _, p.steps⟩ ⟨n, loc, []⟩ :=
    arrives_of_finish (w := ⟨_, _, _⟩) (walk_of_follow hf hd) (by decide)
  rw [hsteps] at hr
  -- the walk comes to the directory of the last name, and takes one stride from there
  obtain ⟨⟨m, dir, _⟩, rfl, hbefore, hlast⟩ :=
    Reaches.split (w := ⟨linkLimit, _, before⟩) hr rfl
  have hw : fs.walk .find (if p.isAbsolute then [] else cwd.above) before =
      .ok (.occupied dir) := hbefore.finish_find.trans (Walk.finish_nil fs .find m dir)
  rcases hstep with ⟨name, rfl, rfl⟩ | rfl
  · have hentry := lastEntry?_eq hsteps hafter hw
    rcases Relation.ReflTransGen.cases_head hlast with heq | ⟨v, hv, hgo⟩
    · cases heq
    · cases hv with
      | idle hi _ => cases hi
      | enter _ _ _ =>
        have hend : loc = name :: dir := reaches_of_idle hafter hgo rfl
        rw [hend]
        exact .inr (Location.fileName?_path name dir)
      | link _ hg => exact .inl ⟨_, hentry.trans hg⟩
  · rcases Relation.ReflTransGen.cases_head hlast with heq | ⟨v, hv, -⟩
    · cases heq
    · cases hv with
      | idle hi _ => cases hi

end FileSystem

open FileSystem

section

variable {request request' : Request} {resolved resolved' : Except Cause Path} {plan plan' : Plan}
  {name name' : Path}

theorem Planned.destinationFile_eq_iff (h : Planned request resolved plan name)
    (h' : Planned request' resolved' plan' name')
    (hdir : plan'.destinationDir = plan.destinationDir) :
    (plan'.destinationFile = plan.destinationFile ↔ name = name') ∧
      (plan'.destinationFile.components = plan.destinationFile.components ↔ name = name') := by
  have hempty := h.not_isEmpty_destinationDir
  obtain ⟨hname, hone, -⟩ := Path.name_of_fileName? h.fileName
  obtain ⟨hname', hone', -⟩ := Path.name_of_fileName? h'.fileName
  have hcomponents :
      plan'.destinationFile.components = plan.destinationFile.components → name = name' := by
    intro hsame
    rw [h.destinationFile, h'.destinationFile, hdir, Path.components_join hempty hname,
      Path.components_join hempty hname', hone, hone'] at hsame
    have hlast := List.append_cancel_left (List.cons.inj hsame).2
    exact congrArg Path.mk (List.cons.inj hlast).1.symm
  have hfile : name = name' → plan'.destinationFile = plan.destinationFile := by
    rintro rfl
    rw [h.destinationFile, h'.destinationFile, hdir]
  exact ⟨⟨fun hsame => hcomponents (congrArg Path.components hsame), hfile⟩, hcomponents,
    fun hsame => congrArg Path.components (hfile hsame)⟩

/-- Planning looks at nothing but the canonical path and the base name of the input. -/
theorem Planned.exists_plan_of_resolved (h : Planned request resolved plan name)
    (hm : request'.marker = request.marker) (ho : request'.outdir = request.outdir)
    (hn : request'.infile.fileName? = some name') :
    ∃ plan', request'.plan (.ok plan.canonicalSource) = .ok plan' ∧
      plan'.canonicalSource = plan.canonicalSource ∧ plan'.relativeDir = plan.relativeDir ∧
      plan'.relativeFile = plan.relativeFile ∧ plan'.destinationDir = plan.destinationDir ∧
      (plan'.destinationFile = plan.destinationFile ↔ name = name') ∧
      (plan'.destinationFile.components = plan.destinationFile.components ↔ name = name') := by
  obtain ⟨plan', hp, hdir⟩ := plan_of_relative hn (hm ▸ h.relativeFile) (hm ▸ h.relativeDir)
  have h' := planned_of_plan_of_fileName hp hn
  have hsame : plan.canonicalSource = plan'.canonicalSource := Except.ok.inj h'.resolved
  have hfile := h'.relativeFile
  rw [← hsame, hm, h.relativeFile] at hfile
  have hdestination : plan'.destinationDir = plan.destinationDir := by
    rw [h'.destinationDir, h.destinationDir, ho, hdir]
  exact ⟨plan', hp, hsame.symm, hdir, (Except.ok.inj hfile).symm, hdestination,
    h.destinationFile_eq_iff h' hdestination⟩

end

/-- A canonical input is planned as the input that leads to it, but for the name of the new
file. -/
theorem plan_of_canonicalSource {fs : FileSystem} {cwd : WorkingDirectory} {request : Request}
    {plan : Plan} (h : (((disk cwd).plan request).run fs).1 = .ok plan)
    (cwd' : WorkingDirectory) (dryRun : Bool) :
    (∃ plan', (((disk cwd').plan
          { request with infile := plan.canonicalSource, dryRun }).run fs).1 = .ok plan' ∧
      plan'.canonicalSource = plan.canonicalSource ∧ plan'.relativeDir = plan.relativeDir ∧
      plan'.relativeFile = plan.relativeFile ∧ plan'.destinationDir = plan.destinationDir ∧
      (plan'.destinationFile = plan.destinationFile ↔
        request.infile.fileName? = plan.canonicalSource.fileName?) ∧
      (plan'.destinationFile.components = plan.destinationFile.components ↔
        request.infile.fileName? = plan.canonicalSource.fileName?)) ∧
    (fs.isDirectory cwd.above → (∀ target, fs.lastEntry? cwd request.infile ≠ some (.link target)) →
      request.infile.fileName? = plan.canonicalSource.fileName?) := by
  obtain ⟨name, hplanned⟩ := planned_of_plan h
  obtain ⟨last, dir, hsource, -⟩ := hplanned.exists_location
  have hcanonical : fs.canonical cwd request.infile = .ok (Location.path (last :: dir)) := by
    rw [hplanned.resolved, hsource]
  have hlast : plan.canonicalSource.fileName? = some ⟨last.bytes⟩ := by
    rw [hsource, Location.fileName?_path]
  have hagain : fs.canonical cwd' plan.canonicalSource = .ok plan.canonicalSource := by
    rw [hsource]
    exact (resolvable_of_canonical hcanonical hplanned.fileName).canonical cwd'
  refine ⟨?_, fun hc hlink => ?_⟩
  · simp only [run_plan, hagain, hplanned.fileName, hlast, Option.some.injEq]
    exact hplanned.exists_plan_of_resolved rfl rfl hlast
  · rw [hplanned.fileName, hsource]
    rcases exists_lastEntry hcanonical hplanned.fileName hc with ⟨target, ht⟩ | hname
    · exact absurd ht (hlink target)
    · exact hname.symm

def aliasedFiles : FileSystem :=
  ofEntries [
    ("/p/src/pkg/f", .file ⟨#[1, 2, 3]⟩ .forFile),
    ("/p/alias", .link (.ofString "src/../src/pkg/f"))]

def aliasedRequest : Request :=
  { infile := .ofString "alias", outdir := "/out", marker := .source, dryRun := false }

def aliasedPlan : Plan where
  source := .ofString "alias"
  canonicalSource := .ofString "/p/src/pkg/f"
  marker := .source
  relativeDir := "pkg"
  relativeFile := "pkg/f"
  destinationDir := .ofString "/out/pkg"
  destinationFile := .ofString "/out/pkg/alias"

theorem plan_of_canonicalSource_aliased :
    (((disk (.ofLocation (Path.ofString "/p").names.reverse)).plan aliasedRequest).run
        aliasedFiles).1 = .ok aliasedPlan ∧
      ∃ plan', (((disk (.ofLocation [])).plan { aliasedRequest with
          infile := .ofString "/p/src/pkg/f", dryRun := true }).run aliasedFiles).1 = .ok plan' ∧
        plan'.destinationDir = .ofString "/out/pkg" ∧
        plan'.destinationFile ≠ .ofString "/out/pkg/alias" := by
  have hp : (((disk (.ofLocation (Path.ofString "/p").names.reverse)).plan aliasedRequest).run
      aliasedFiles).1 = .ok aliasedPlan := by decide +kernel
  have hname : aliasedRequest.infile.fileName? ≠ aliasedPlan.canonicalSource.fileName? := by
    decide +kernel
  obtain ⟨⟨plan', hp', -, -, -, hdir, hfile, -⟩, -⟩ :=
    plan_of_canonicalSource hp (.ofLocation []) true
  exact ⟨hp, plan', hp', hdir, fun hsame => hname (hfile.mp hsame)⟩

end MarkerCopy
