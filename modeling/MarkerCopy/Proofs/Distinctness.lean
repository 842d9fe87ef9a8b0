import MarkerCopy.Proofs.RelativePaths

/-! Copies of different files go to different places. Below one marker that stands at the end of a
name, what is kept of a directory says which directory it is. -/

namespace MarkerCopy

open FileSystem

theorem Location.eq_of_parts {below below' : Location}
    (h : (Path.mk below.relativeText).parts = (Path.mk below'.relativeText).parts) :
    below = below' := by
  have hmap : below.map Name.bytes = below'.map Name.bytes := by
    rw [parts_relativeText, parts_relativeText] at h
    exact List.reverse_injective h
  exact List.map_injective_iff.mpr (fun _ _ => Name.ext_bytes) hmap

namespace Marker

variable {marker : Marker} {dir dir' : Location} {kept kept' : String}
  {before after after' : List Char}

/-- The text after a source marker that ends a name is that of whole names. -/
theorem Divides.exists_below (h : source.Divides dir.path before after)
    (hend : after = [] ∨ after.head? = some '/') :
    ∃ below : Location, Utf8.encode after = below.text ∧
      Utf8.encode after.tail = below.relativeText := by
  have htext := h.text_eq
  rw [Utf8.encode_append] at htext
  obtain ⟨first, below, hsplit, hfirst⟩ :=
    Location.exists_of_suffix_text (htext ▸ List.suffix_append _ (Utf8.encode after))
  rcases hend with rfl | hslash
  · exact ⟨[], rfl, rfl⟩
  · obtain ⟨rest, rfl⟩ := List.head?_eq_some_iff.mp hslash
    have hbytes : Path.slash :: Utf8.encode rest = first ++ below.text := hsplit
    cases first with
    | nil => exact ⟨below, hsplit, congrArg List.tail hbytes⟩
    | cons b first =>
      -- no name has a slash in it
      obtain ⟨name, hname⟩ := hfirst.resolve_left (List.cons_ne_nil b first)
      obtain rfl : Path.slash = b := (List.cons.inj hbytes).1
      exact absurd (hname.subset List.mem_cons_self) name.valid.2.2.2.1

/-- The names in what is kept lead back to the text after the marker. -/
theorem Divides.eq_of_parts (h : marker.Divides dir.path before after)
    (h' : marker.Divides dir'.path before after')
    (hend : marker = .source → after = [] ∨ after.head? = some '/')
    (hend' : marker = .source → after' = [] ∨ after'.head? = some '/')
    (hk : marker.relative dir.path = .ok kept) (hk' : marker.relative dir'.path = .ok kept')
    (hparts : (Path.ofString kept).parts = (Path.ofString kept').parts) : after = after' := by
  cases marker with
  | external =>
    have hbytes : Path.ofString kept = ⟨Location.relativeText _⟩ :=
      congrArg Path.mk (bytes_of_external hk).2
    have hbytes' : Path.ofString kept' = ⟨Location.relativeText _⟩ :=
      congrArg Path.mk (bytes_of_external hk').2
    have hnames := Location.eq_of_parts (hbytes ▸ hbytes' ▸ hparts)
    obtain rfl : kept = kept' := Path.ofString_inj.mp (by rw [hbytes, hbytes', hnames])
    have hsame := Except.ok.inj (h.relative.symm.trans (hk.trans (hk'.symm.trans h'.relative)))
    exact List.append_cancel_left (String.ofList_injective hsame)
  | source =>
    obtain ⟨below, htext, htail⟩ := h.exists_below (hend rfl)
    obtain ⟨below', htext', htail'⟩ := h'.exists_below (hend' rfl)
    obtain rfl := Except.ok.inj (h.relative.symm.trans hk)
    obtain rfl := Except.ok.inj (h'.relative.symm.trans hk')
    rw [keep_source, keep_source] at hparts
    rw [Path.ofString_ofList, Path.ofString_ofList, htail, htail'] at hparts
    have hsame := Location.eq_of_parts hparts
    exact Utf8.encode_injective (by rw [htext, htext', hsame])

end Marker

theorem Planned.components_destinationFile {request : Request} {resolved : Except Cause Path}
    {plan : Plan} {name : Path} (h : Planned request resolved plan name) (ho : request.outdir ≠ "") :
    plan.destinationFile.components = (Path.ofString request.outdir).lead ::
      ((Path.ofString request.outdir).parts ++ (Path.ofString plan.relativeDir).parts ++
        [name.bytes]) := by
  have hempty := not_isEmpty_outputPath request.outdir plan.relativeDir
  obtain ⟨hname, hone, -⟩ := Path.name_of_fileName? h.fileName
  rw [h.destinationFile, h.destinationDir, Path.components_join hempty hname, lead_outputPath ho,
    parts_outputPath, hone]

/-- Two files whose directories agree up to the last marker are planned to go to the same place if
and only if they are in the same directory and are asked for by the same name. -/
theorem components_destinationFile_eq_iff {fs gs : FileSystem} {cwd cwd' : WorkingDirectory}
    {request request' : Request} {plan plan' : Plan} {dir dir' : Path}
    {before after after' : List Char} (ho : request.outdir ≠ "")
    (houtdir : request'.outdir = request.outdir) (hmarker : request'.marker = request.marker)
    (hp : (((disk cwd).plan request).run fs).1 = .ok plan)
    (hp' : (((disk cwd').plan request').run gs).1 = .ok plan')
    (hdir : plan.canonicalSource.parent? = some dir)
    (hdir' : plan'.canonicalSource.parent? = some dir')
    (hd : request.marker.Divides dir before after)
    (hd' : request.marker.Divides dir' before after')
    (hend : request.marker = .source → after = [] ∨ after.head? = some '/')
    (hend' : request.marker = .source → after' = [] ∨ after'.head? = some '/') :
    plan.destinationFile.components = plan'.destinationFile.components ↔
      dir = dir' ∧ request.infile.fileName? = request'.infile.fileName? := by
  obtain ⟨name, h⟩ := planned_of_plan hp
  obtain ⟨name', h'⟩ := planned_of_plan hp'
  obtain ⟨dir₁, hparent, hk⟩ := h.relative_directory
  obtain ⟨dir₂, hparent', hk'⟩ := h'.relative_directory
  obtain rfl := Option.some.inj (hparent.symm.trans hdir)
  obtain rfl := Option.some.inj (hparent'.symm.trans hdir')
  rw [hmarker] at hk'
  rw [h.components_destinationFile ho, h'.components_destinationFile (houtdir ▸ ho), houtdir,
    h.fileName, h'.fileName, List.append_assoc, List.append_assoc]
  constructor
  · intro hsame
    have htail := List.append_cancel_left (List.cons.inj hsame).2
    obtain ⟨hparts, hname⟩ := List.append_inj' htail rfl
    obtain rfl := hd.eq_of_parts hd' hend hend' hk hk' hparts
    have hbytes : name.bytes = name'.bytes := (List.cons.inj hname).1
    exact ⟨hd.1.trans hd'.1.symm, congrArg (fun bytes => some (Path.mk bytes)) hbytes⟩
  · rintro ⟨hdirs, hnames⟩
    rw [← hdirs] at hk'
    rw [Option.some.inj hnames, Except.ok.inj (hk.symm.trans hk')]

def packageFiles (package : String) : FileSystem :=
  ofEntries [("/p/src/" ++ package ++ "/f", .file ⟨#[1, 2, 3]⟩ .forFile)]

def packageRequest (package : String) : Request where
  infile := .ofString ("/p/src/" ++ package ++ "/f")
  outdir := "/out"
  marker := .source
  dryRun := false

def packagePlan (package : String) : Plan where
  source := .ofString ("/p/src/" ++ package ++ "/f")
  canonicalSource := .ofString ("/p/src/" ++ package ++ "/f")
  marker := .source
  relativeDir := package
  relativeFile := package ++ "/f"
  destinationDir := .ofString ("/out/" ++ package)
  destinationFile := .ofString ("/out/" ++ package ++ "/f")

theorem components_destinationFile_ne_packages :
    (((disk (.ofLocation [])).plan (packageRequest "a")).run (packageFiles "a")).1 =
        .ok (packagePlan "a") ∧
      (((disk (.ofLocation [])).plan (packageRequest "a/b")).run (packageFiles "a/b")).1 =
        .ok (packagePlan "a/b") ∧
      (packagePlan "a").destinationFile.components ≠
        (packagePlan "a/b").destinationFile.components := by
  have hp : (((disk (.ofLocation [])).plan (packageRequest "a")).run (packageFiles "a")).1 =
      .ok (packagePlan "a") := by decide +kernel
  have hp' : (((disk (.ofLocation [])).plan (packageRequest "a/b")).run (packageFiles "a/b")).1 =
      .ok (packagePlan "a/b") := by decide +kernel
  have hdir : (packagePlan "a").canonicalSource.parent? = some (.ofString "/p/src/a") := by
    decide +kernel
  have hdir' : (packagePlan "a/b").canonicalSource.parent? = some (.ofString "/p/src/a/b") := by
    decide +kernel
  have hd : Marker.source.Divides (.ofString "/p/src/a") "/p/".toList "/a".toList :=
    ⟨by decide +kernel, by decide⟩
  have hd' : Marker.source.Divides (.ofString "/p/src/a/b") "/p/".toList "/a/b".toList :=
    ⟨by decide +kernel, by decide⟩
  have ho : (packageRequest "a").outdir ≠ "" := by decide
  have houtdir : (packageRequest "a/b").outdir = (packageRequest "a").outdir := rfl
  have hmarker : (packageRequest "a/b").marker = (packageRequest "a").marker := rfl
  have hiff := components_destinationFile_eq_iff ho houtdir hmarker hp hp' hdir hdir' hd hd'
    (fun _ => .inr rfl) (fun _ => .inr rfl)
  have hne : Path.ofString "/p/src/a" ≠ .ofString "/p/src/a/b" := by decide +kernel
  exact ⟨hp, hp', fun he => hne (hiff.mp he).1⟩

end MarkerCopy
