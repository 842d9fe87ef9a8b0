import MarkerCopy.Proofs.CanonicalDescent
import MarkerCopy.Proofs.Occurring

/-! Copies of copies. What is kept of the path of an external file begins with the last marker in
it, so the same is kept of the path of any copy of the file, and a copy of the copy goes where a
copy of the file would have gone. -/

namespace MarkerCopy

open FileSystem

namespace Marker

variable {marker : Marker} {dir : Location} {kept : String}

theorem exists_relative_cons (h : marker.relative dir.path = .ok kept) {name : Name}
    (hn : Path.IsText ⟨name.bytes⟩) :
    ∃ file, marker.relative (Location.path (name :: dir)) = .ok file := by
  obtain ⟨hd, ho⟩ := exists_relative_iff.mp ⟨kept, h⟩
  exact exists_relative_iff.mpr
    ⟨Location.isText_path_cons_iff.mpr ⟨hd, hn⟩, Location.occursIn_path_cons_iff.mpr (.inl ho)⟩

/-- What is kept of an external file is kept of its copies as well, whatever is above them. -/
theorem relative_below {base : Location} (h : external.relative dir.path = .ok kept)
    (hb : base.path.IsText) :
    external.relative (Location.path ((Path.ofString kept).names.reverse ++ base)) = .ok kept := by
  obtain ⟨hne, hbytes⟩ := bytes_of_external h
  obtain ⟨above, habove⟩ := Location.path_isText_iff.mp hb
  obtain ⟨before, found, -, hpre, hlast, rfl⟩ := relative_eq_ok_iff.mp h
  have hslash : Utf8.encode ('/' :: found) = Path.slash :: Utf8.encode found := rfl
  refine relative_eq_ok_iff.mpr ⟨above ++ ['/'], found, ?_, hpre, hlast, rfl⟩
  rw [Location.path_append hne, ← hbytes, habove, List.append_assoc, List.singleton_append]
  simp only [Path.ofString, String.toList_ofList, keep, Utf8.encode_append, hslash]

end Marker

namespace FileSystem

variable {fs gs : FileSystem} {cwd : WorkingDirectory} {base dir : Location}

/-- Whether a directory is at a location, with nothing in it. -/
def IsEmptyDirectory (fs : FileSystem) (loc : Location) : Prop :=
  fs.isDirectory loc ∧ ∀ name, fs.get? (name :: loc) = none

instance (fs : FileSystem) (loc : Location) : Decidable (fs.IsEmptyDirectory loc) :=
  decidable_of_iff (fs.isDirectory loc ∧ ∀ key ∈ fs.entries.keys, key = [] ∨ key.tail ≠ loc) (by
    simp only [IsEmptyDirectory, Std.ExtTreeMap.mem_keys]
    refine and_congr_right fun _ => ⟨?_, ?_⟩
    · intro h name
      by_contra hg
      have hmem : name :: loc ∈ fs.entries :=
        Std.ExtTreeMap.mem_iff_isSome_getElem?.mpr (Option.isSome_iff_ne_none.mpr hg)
      rcases h _ hmem with he | he
      · cases he
      · exact he rfl
    · rintro h (_ | ⟨name, dir⟩) hmem
      · exact .inl rfl
      · right
        rintro rfl
        have hsome := Std.ExtTreeMap.mem_iff_isSome_getElem?.mp hmem
        exact Option.isSome_iff_ne_none.mp hsome (h name))

theorem IsEmptyDirectory.get?_below (h : fs.IsEmptyDirectory base) (hne : dir ≠ []) :
    fs.get? (dir ++ base) = none := by
  induction dir with
  | nil => exact absurd rfl hne
  | cons name dir ih =>
    by_cases hd : dir = []
    · exact hd ▸ h.2 name
    · by_contra hg
      have habove := isDirectory_of_get?_cons (Option.isSome_iff_ne_none.mpr hg)
      exact get?_ne_none_of_isDirectory habove (ih hd)

theorem IsEmptyDirectory.unobstructed (h : fs.IsEmptyDirectory base) (dir : Location) :
    fs.Unobstructed (dir ++ base) := by
  induction dir with
  | nil => exact fun above hs => .inr (isDirectory_of_suffix hs h.1)
  | cons name dir ih =>
    intro above hs
    rcases List.suffix_cons_iff.mp hs with rfl | hs
    · exact .inl (h.get?_below (List.cons_ne_nil name dir))
    · exact ih above hs

/-- A directory stays empty if entries are new or changed only on the way down into another empty
directory. -/
theorem IsEmptyDirectory.of_others {other target : Location} (h : fs.IsEmptyDirectory base)
    (h' : fs.IsEmptyDirectory other) (hne : other ≠ base) (hg : fs.Grows gs)
    (ht : other <:+ target)
    (ho : ∀ loc, ¬ loc <:+ target → gs.get? loc = fs.get? loc) : gs.IsEmptyDirectory base := by
  refine ⟨hg.isDirectory h.1, fun name => ?_⟩
  rw [ho, h.2 name]
  intro hs
  rcases List.suffix_or_suffix_of_suffix hs ht with hin | hin
  · exact get?_ne_none_of_isDirectory (isDirectory_of_suffix hin h'.1) (h.2 name)
  · rcases List.suffix_cons_iff.mp hin with rfl | ⟨between, rfl⟩
    · exact get?_ne_none_of_isDirectory h'.1 (h.2 name)
    · have hnil : between ≠ [] := by
        rintro rfl
        exact hne rfl
      exact get?_ne_none_of_isDirectory h.1 (h'.get?_below hnil)

/-- A file that is copied into an empty directory replaces nothing. -/
theorem Entrance.run_into_empty {plan : Plan} {root : List UInt8} {name : Name} {src : Location}
    {content : ByteArray} {permissions : Permissions} (h : fs.Entrance cwd root base)
    (he : fs.IsEmptyDirectory base) (hc : fs.isDirectory cwd.above)
    (hr : root.getLast? = some Path.slash)
    (hdir : plan.destinationDir = Path.below root dir)
    (hfile : plan.destinationFile = Path.below root (name :: dir))
    (hlen : plan.destinationFile.bytes.length < pathLimit)
    (hs : fs.locate cwd .find plan.source = .ok (.occupied src))
    (hf : fs.get? src = some (.file content permissions)) :
    ∃ created after, ((disk cwd).carryOut plan).run fs =
        (.ok ⟨plan, created, content.size⟩, after) ∧
      fs.Grows after ∧
      after.locate cwd .find plan.destinationFile = .ok (.occupied (name :: dir ++ base)) ∧
      after.get? (name :: dir ++ base) = some (.file content permissions) ∧
      ∀ loc, ¬ loc <:+ name :: dir ++ base → after.get? loc = fs.get? loc := by
  have hfree : fs.get? (name :: dir ++ base) = none :=
    he.get?_below (List.cons_ne_nil name dir)
  obtain ⟨mid, copied, after, hrun, hlaid, hcop, hgrows, hl⟩ :=
    h.run_carryOut hc hr hdir hfile hlen (he.unobstructed dir) (.inl hfree) hs hf
  have hcopied : copied = content := by
    rw [hcop.copied_eq, if_neg]
    rintro rfl
    cases hfree.symm.trans hf
  subst hcopied
  refine ⟨_, after, hrun, hgrows, hl, hcop.written, ?_⟩
  intro loc hloc
  have hother : name :: dir ++ base ≠ loc := by
    rintro rfl
    exact hloc List.suffix_rfl
  have hway : ¬ (fs.get? loc = none ∧ loc <:+ dir ++ base) := fun hn =>
    hloc (hn.2.trans (List.suffix_cons name _))
  rw [hcop.others loc hother, hlaid loc, if_neg hway]

/-- A file that was copied was there before, under the path that was asked for. -/
theorem exists_source {request : Request} {plan : Plan} {report : Report}
    (hc : fs.isDirectory cwd.above)
    (hp : request.plan (fs.canonical cwd request.infile) = .ok plan)
    (hr : ((disk cwd).carryOut plan).run fs = (.ok report, gs)) :
    ∃ src content permissions, fs.locate cwd .find request.infile = .ok (.occupied src) ∧
      fs.get? src = some (.file content permissions) := by
  obtain ⟨last, h⟩ := planned_of_plan hp
  obtain ⟨d⟩ := delivery_of_carryOut hc hr
  have hlen := d.length_source_lt
  rw [h.source] at hlen
  obtain ⟨src, -, hs⟩ := locate_of_canonical h.resolved hc hlen
  have hsame := locate_find_mono hs d.grows
  rw [← h.source, d.locate_source] at hsame
  cases hsame
  exact ⟨d.source, d.content, d.permissions, hs, d.get?_source⟩

end FileSystem

/-- The location of a new file that a plan puts below a directory under a name. -/
def Plan.target (plan : Plan) (name : Name) (base : Location) : Location :=
  name :: ((Path.ofString plan.relativeDir).names.reverse ++ base)

theorem Plan.suffix_target (plan : Plan) (name : Name) (base : Location) :
    base <:+ plan.target name base :=
  (List.suffix_append _ base).trans (List.suffix_cons name _)

/-- `after` is `fs` with a copy of a file in the directory `base`, which was empty. -/
structure Settled (cwd : WorkingDirectory) (outdir : String) (plan : Plan) (base : Location)
    (name : Name) (content : ByteArray) (permissions : Permissions) (fs after : FileSystem) :
    Prop where
  spelled : ∃ root k, root = (Path.ofString outdir).bytes ++ List.replicate k Path.slash ∧
    root.getLast? = some Path.slash ∧ plan.destinationFile =
      Path.below root (name :: (Path.ofString plan.relativeDir).names.reverse)
  carried : ∃ created, ((disk cwd).carryOut plan).run fs =
    (.ok ⟨plan, created, content.size⟩, after)
  grows : fs.Grows after
  located : after.locate cwd .find plan.destinationFile = .ok (.occupied (plan.target name base))
  written : after.get? (plan.target name base) = some (.file content permissions)
  others : ∀ loc, ¬ loc <:+ plan.target name base → after.get? loc = fs.get? loc

section

variable {fs gs : FileSystem} {cwd : WorkingDirectory} {request staged : Request}
  {outdir : String} {plan plan' : Plan} {last : Path} {base src : Location} {name : Name}
  {content : ByteArray} {permissions : Permissions}

theorem Planned.exists_settled
    (h : Planned request (fs.canonical cwd request.infile) plan ⟨name.bytes⟩)
    (hm : request.marker = .external) (hc : fs.isDirectory cwd.above)
    (hs : fs.locate cwd .find request.infile = .ok (.occupied src))
    (hf : fs.get? src = some (.file content permissions))
    (ho : fs.locate cwd .find (.ofString request.outdir) = .ok (.occupied base))
    (he : fs.IsEmptyDirectory base) (hlen : plan.destinationFile.bytes.length < pathLimit) :
    ∃ after, Settled cwd request.outdir plan base name content permissions fs after := by
  obtain ⟨dir, -, hrel⟩ := h.relative_directory
  rw [hm] at hrel
  obtain ⟨root, k, name', hname, hroot, hslash, hent, hdir, hfile⟩ :=
    h.exists_entrance hs ho he.1 (Marker.not_dots_of_external hrel) hlen
  obtain rfl : name = name' := Name.ext_bytes (congrArg Path.bytes hname)
  rw [← h.source] at hs
  obtain ⟨created, after, hrun, hgrows, hl, hw, hothers⟩ :=
    hent.run_into_empty he hc hslash hdir hfile hlen hs hf
  exact ⟨after, ⟨root, k, hroot, hslash, hfile⟩, ⟨created, hrun⟩, hgrows, hl, hw, hothers⟩

theorem Settled.fileName? (h : Settled cwd outdir plan base name content permissions fs gs) :
    plan.destinationFile.fileName? = some ⟨name.bytes⟩ := by
  obtain ⟨root, k, -, hslash, hfile⟩ := h.spelled
  rw [hfile, Path.fileName?_below hslash]

theorem Settled.canonical (h : Settled cwd outdir plan base name content permissions fs gs)
    (ho : fs.canonical cwd (.ofString outdir) = .ok base.path)
    (hlen : (plan.target name base).path.bytes.length < pathLimit) :
    gs.canonical cwd plan.destinationFile = .ok (plan.target name base).path := by
  obtain ⟨root, k, hroot, hslash, hfile⟩ := h.spelled
  have hstands : gs.Stands (plan.target name base) := ⟨_, h.written, by simp [Entry.isLink]⟩
  rw [hfile]
  exact canonical_below (canonical_mono ho h.grows) hroot hslash (List.cons_ne_nil _ _)
    hstands hlen

/-- The plan for a copy keeps what the plan for the file kept. -/
theorem Planned.exists_plan_copy
    (h : Planned request (fs.canonical cwd request.infile) plan ⟨name.bytes⟩)
    (hm : request.marker = .external) (hm' : staged.marker = .external)
    (hn : staged.infile.fileName? = some ⟨name.bytes⟩) (ht : Path.IsText ⟨name.bytes⟩)
    (hb : base.path.IsText)
    (hcanonical : gs.canonical cwd staged.infile = .ok (plan.target name base).path) :
    ∃ plan', staged.plan (gs.canonical cwd staged.infile) = .ok plan' ∧
      plan'.relativeDir = plan.relativeDir := by
  obtain ⟨dir, -, hrel⟩ := h.relative_directory
  rw [hm] at hrel
  have hdir := Marker.relative_below hrel hb
  obtain ⟨file, hfile⟩ := Marker.exists_relative_cons hdir ht
  rw [← hm'] at hdir hfile
  rw [hcanonical]
  refine plan_of_relative hn hfile ?_
  rw [Plan.target, Location.parent?_path]
  exact hdir

theorem Planned.destinationFile_congr {resolved resolved' : Except Cause Path}
    (h : Planned request resolved plan last) (h' : Planned staged resolved' plan' last)
    (ho : request.outdir = staged.outdir) (hr : plan.relativeDir = plan'.relativeDir) :
    plan.destinationFile = plan'.destinationFile := by
  rw [h.destinationFile, h.destinationDir, h'.destinationFile, h'.destinationDir, ho, hr]

end

/-- A copy of a copy goes where a copy of the file itself would go, if both go into a directory
that is empty. -/
theorem run_staged_eq_direct {fs gs : FileSystem} {cwd : WorkingDirectory} {infile : Path}
    {outdir outdir' : String} {base base' : Location} {report : Report}
    (hc : fs.isDirectory cwd.above)
    (hname : ∀ name, infile.fileName? = some name → name.IsText)
    (ho : fs.locate cwd .find (.ofString outdir) = .ok (.occupied base))
    (he : fs.IsEmptyDirectory base)
    (ho' : fs.locate cwd .find (.ofString outdir') = .ok (.occupied base'))
    (he' : fs.IsEmptyDirectory base') (hne : base ≠ base')
    (htext : ∃ p, fs.canonical cwd (.ofString outdir) = .ok p ∧ p.IsText)
    (hr : ((disk cwd).run ⟨infile, outdir, .external, false⟩).run fs =
      (.ok (.copied report), gs))
    (hlen : ∀ loc, gs.locate cwd .find report.plan.destinationFile = .ok (.occupied loc) →
      loc.path.bytes.length < pathLimit)
    (hlen' : ∀ plan, (Request.mk infile outdir' .external false).plan
      (fs.canonical cwd infile) = .ok plan → plan.destinationFile.bytes.length < pathLimit) :
    ∃ (staged direct : Report) (after after' : FileSystem) (loc : Location) (content : ByteArray)
        (permissions : Permissions),
      ((disk cwd).plan ⟨report.plan.destinationFile, outdir', .external, false⟩).run gs =
        (.ok staged.plan, gs) ∧
      staged.plan.relativeDir = report.plan.relativeDir ∧
      ((disk cwd).run ⟨report.plan.destinationFile, outdir', .external, false⟩).run gs =
        (.ok (.copied staged), after) ∧
      ((disk cwd).run ⟨infile, outdir', .external, false⟩).run fs =
        (.ok (.copied direct), after') ∧
      staged.plan.destinationFile = direct.plan.destinationFile ∧
      base' <:+ loc ∧
      after.locate cwd .find staged.plan.destinationFile = .ok (.occupied loc) ∧
      after.get? loc = some (.file content permissions) ∧
      after'.locate cwd .find direct.plan.destinationFile = .ok (.occupied loc) ∧
      after'.get? loc = some (.file content permissions) := by
  obtain ⟨_, hcanonical, htext⟩ := htext
  obtain rfl := canonical_of_locate hcanonical hc ho
  obtain ⟨-, plan, hp, hcarry⟩ := run_eq_copied_iff.mp hr
  obtain ⟨last, h⟩ := planned_of_plan hp
  obtain ⟨src, content, permissions, hs, hf⟩ := exists_source hc hp hcarry
  obtain ⟨d⟩ := delivery_of_carryOut hc hcarry
  obtain ⟨name, rfl⟩ := Path.exists_name_of_fileName? h.fileName hs
  obtain ⟨mid, hset⟩ := h.exists_settled rfl hc hs hf ho he d.length_target_lt
  obtain ⟨created, hrun⟩ := hset.carried
  cases hcarry.symm.trans hrun
  -- the copy that is made without the other one
  obtain ⟨direct, hp₁, hrel₁⟩ : ∃ direct, (Request.mk infile outdir' .external false).plan
      (fs.canonical cwd infile) = .ok direct ∧ direct.relativeDir = plan.relativeDir := by
    rw [h.resolved]
    exact plan_of_relative h.fileName h.relativeFile h.relativeDir
  have h₁ := planned_of_plan_of_fileName hp₁ h.fileName
  obtain ⟨after', hset₁⟩ := h₁.exists_settled rfl hc hs hf ho' he' (hlen' direct hp₁)
  obtain ⟨created₁, hrun₁⟩ := hset₁.carried
  -- the copy of the copy
  obtain ⟨staged, hp₂, hrel₂⟩ : ∃ staged,
      (Request.mk plan.destinationFile outdir' .external false).plan
        (gs.canonical cwd plan.destinationFile) = .ok staged ∧
      staged.relativeDir = plan.relativeDir :=
    h.exists_plan_copy rfl rfl hset.fileName? (hname _ h.fileName) htext
      (hset.canonical hcanonical (hlen _ hset.located))
  have h₂ := planned_of_plan_of_fileName hp₂ hset.fileName?
  have hsame : staged.destinationFile = direct.destinationFile :=
    h₂.destinationFile_congr h₁ rfl (hrel₂.trans hrel₁.symm)
  have hempty : gs.IsEmptyDirectory base' :=
    he'.of_others he hne hset.grows (plan.suffix_target name base) hset.others
  obtain ⟨after, hset₂⟩ := h₂.exists_settled rfl (hset.grows.isDirectory hc) hset.located
    hset.written (locate_find_mono ho' hset.grows) hempty (hsame ▸ hlen' direct hp₁)
  obtain ⟨created₂, hrun₂⟩ := hset₂.carried
  have htarget : staged.target name base' = direct.target name base' := by
    rw [Plan.target, Plan.target, hrel₁, hrel₂]
  refine ⟨_, _, after, after', direct.target name base', content, permissions, ?_, hrel₂,
    run_eq_copied_iff.mpr ⟨rfl, staged, hp₂, hrun₂⟩,
    run_eq_copied_iff.mpr ⟨rfl, direct, hp₁, hrun₁⟩, hsame, direct.suffix_target name base',
    htarget ▸ hset₂.located, htarget ▸ hset₂.written, hset₁.located, hset₁.written⟩
  rw [run_plan, hp₂]

def stagedFiles : FileSystem :=
  ofEntries [
    ("/p/cpwn_extern/pkg/f", .file ⟨#[1, 2, 3]⟩ ⟨0o640⟩),
    ("/a/cpwn_extern", .directory .forDirectory),
    ("/stage", .link (.ofString "a/cpwn_extern/")),
    ("/b", .directory .forDirectory)]

def stagedPlan (infile outdir : String) : Plan where
  source := .ofString infile
  canonicalSource := .ofString "/p/cpwn_extern/pkg/f"
  marker := .external
  relativeDir := "cpwn_extern/pkg"
  relativeFile := "cpwn_extern/pkg/f"
  destinationDir := .ofString (outdir ++ "/cpwn_extern/pkg")
  destinationFile := .ofString (outdir ++ "/cpwn_extern/pkg/f")

def stagedRequest (infile outdir : String) : Request :=
  { infile := .ofString infile, outdir, marker := .external, dryRun := false }

def stagedAfter : FileSystem :=
  (((disk (.ofLocation [])).run (stagedRequest "/p/cpwn_extern/pkg/f" "/stage")).run
    stagedFiles).2

theorem run_staged_eq_direct_through_link :
    ∃ (staged direct : Report) (after after' : FileSystem) (loc : Location)
        (content : ByteArray) (permissions : Permissions),
      staged.plan.relativeDir = "cpwn_extern/pkg" ∧
      ((disk (.ofLocation [])).run (stagedRequest "/stage/cpwn_extern/pkg/f" "/b/")).run
        stagedAfter = (.ok (.copied staged), after) ∧
      ((disk (.ofLocation [])).run (stagedRequest "/p/cpwn_extern/pkg/f" "/b/")).run
        stagedFiles = (.ok (.copied direct), after') ∧
      after.get? loc = some (.file content permissions) ∧
      after'.get? loc = some (.file content permissions) := by
  have hfirst : (((disk (.ofLocation [])).run
      (stagedRequest "/p/cpwn_extern/pkg/f" "/stage")).run stagedFiles).1 =
        .ok (.copied ⟨stagedPlan "/p/cpwn_extern/pkg/f" "/stage", true, 3⟩) := by decide +kernel
  have hr : ((disk (.ofLocation [])).run
      (stagedRequest "/p/cpwn_extern/pkg/f" "/stage")).run stagedFiles =
        (.ok (.copied ⟨stagedPlan "/p/cpwn_extern/pkg/f" "/stage", true, 3⟩), stagedAfter) := by
    rw [← hfirst, stagedAfter, Prod.eta]
  have hname : (Path.ofString "/p/cpwn_extern/pkg/f").fileName? = some (.ofString "f") := by
    decide +kernel
  have ho : stagedFiles.locate (.ofLocation []) .find (.ofString "/stage") =
      .ok (.occupied (Path.ofString "/a/cpwn_extern").names.reverse) := by decide +kernel
  have ho' : stagedFiles.locate (.ofLocation []) .find (.ofString "/b/") =
      .ok (.occupied (Path.ofString "/b").names.reverse) := by decide +kernel
  have hcanonical : stagedFiles.canonical (.ofLocation []) (.ofString "/stage") =
      .ok (.ofString "/a/cpwn_extern") := by decide +kernel
  have hl : stagedAfter.locate (.ofLocation []) .find (.ofString "/stage/cpwn_extern/pkg/f") =
      .ok (.occupied (Path.ofString "/a/cpwn_extern/cpwn_extern/pkg/f").names.reverse) := by
    decide +kernel
  have hp : (stagedRequest "/p/cpwn_extern/pkg/f" "/b/").plan
      (stagedFiles.canonical (.ofLocation []) (.ofString "/p/cpwn_extern/pkg/f")) =
        .ok (stagedPlan "/p/cpwn_extern/pkg/f" "/b") := by decide +kernel
  obtain ⟨staged, direct, after, after', loc, content, permissions, -, hrel, hstaged, hdirect, -,
      -, -, hget, -, hget'⟩ :=
    run_staged_eq_direct (by decide +kernel)
      (fun name hn => ⟨"f", Option.some.inj (hn.symm.trans hname)⟩) ho (by decide +kernel) ho'
      (by decide +kernel) (by decide +kernel) ⟨_, hcanonical, "/a/cpwn_extern", rfl⟩ hr
      (fun loc h => by
        cases hl.symm.trans h
        decide +kernel)
      (fun plan h => by
        cases hp.symm.trans h
        decide +kernel)
  exact ⟨staged, direct, after, after', loc, content, permissions, hrel, hstaged, hdirect, hget,
    hget'⟩

end MarkerCopy
