import MarkerCopy.Proofs.CanonicalDescent
import MarkerCopy.Proofs.Occurring

/-! What is kept of a file beside what is kept of its directory. The two are cut on their own, and
go together unless the marker is in the name of the file, or all that follows the marker in the
directory is the one character that is dropped. -/

namespace MarkerCopy

open FileSystem

namespace Marker

variable {marker : Marker} {dir : Location} {last : Name} {kept file : String}
  {before after text : List Char}

theorem Divides.relative {p : Path} (h : marker.Divides p before after) :
    marker.relative p = .ok (String.ofList (marker.keep (marker.text.toList ++ after))) :=
  relative_eq_ok_iff_exists_divides.mpr ⟨before, after, h, rfl⟩

theorem Divides.text_eq (h : marker.Divides dir.path before after) :
    dir.text = Utf8.encode (before ++ marker.text.toList ++ after) := by
  have hpath := h.1
  rw [Location.path, if_neg (ne_nil_of_relative h.relative), Path.ofString_ofList] at hpath
  exact congrArg Path.bytes hpath

/-- If there is no marker in the last name, then the last one of the directory is the last one. -/
theorem Divides.of_directory (h : marker.Divides dir.path before after)
    (hl : last.bytes = Utf8.encode text) (ho : ¬ marker.OccursIn ⟨last.bytes⟩) :
    marker.Divides (Location.path (last :: dir)) before (after ++ '/' :: text) := by
  have hname : ¬ marker.text.toList <:+: text := by
    intro hin
    have hpath : Path.mk last.bytes = .ofString (String.ofList text) := by
      rw [Path.ofString_ofList, hl]
    rw [hpath, occursIn_ofString_iff, String.toList_ofList] at ho
    exact ho hin
  refine ⟨?_, ?_⟩
  · rw [Location.path_cons_eq_ofString h.text_eq hl, List.append_assoc]
  · rw [← List.append_assoc, List.tail_append_of_ne_nil (by simp [marker.text_ne_nil]),
      infix_append_cons_iff marker.char_slash_not_mem, not_or]
    exact ⟨h.2, hname⟩

/-- A marker in the last name comes after all that are in the directory. -/
theorem Divides.of_name (h : marker.Divides ⟨last.bytes⟩ before after) (hd : dir.path.IsText) :
    ∃ above, marker.Divides (Location.path (last :: dir)) above after := by
  obtain ⟨above, habove⟩ := Location.path_isText_iff.mp hd
  have hl : last.bytes = Utf8.encode (before ++ marker.text.toList ++ after) :=
    congrArg Path.bytes (h.1.trans (Path.ofString_ofList _))
  refine ⟨above ++ '/' :: before, ?_, h.2⟩
  rw [Location.path_cons_eq_ofString habove hl]
  simp

/-- If the marker is in the last name, nothing of the directory is kept. -/
theorem relative_name (hf : marker.relative (Location.path (last :: dir)) = .ok file)
    (ho : marker.OccursIn ⟨last.bytes⟩) : marker.relative ⟨last.bytes⟩ = .ok file := by
  obtain ⟨hdir, hlast⟩ := Location.isText_path_cons_iff.mp (exists_relative_iff.mp ⟨file, hf⟩).1
  obtain ⟨kept, hk⟩ := exists_relative_iff.mpr ⟨hlast, ho⟩
  obtain ⟨before, after, hdivides, rfl⟩ := relative_eq_ok_iff_exists_divides.mp hk
  obtain ⟨above, habove⟩ := hdivides.of_name hdir
  obtain rfl := Except.ok.inj (habove.relative.symm.trans hf)
  exact hk

theorem join_name (hk : marker.relative dir.path = .ok kept) (last : Name) :
    (Path.ofString kept).join ⟨last.bytes⟩ =
      if kept = "" then ⟨last.bytes⟩
      else ⟨(Path.ofString kept).bytes ++ Path.slash :: last.bytes⟩ := by
  have hlast := getLast?_of_relative hk
  unfold Path.join
  rw [if_neg (Location.not_isAbsolute last)]
  by_cases hempty : kept = ""
  · subst hempty
    rfl
  · have hne := Path.not_isEmpty_ofString hempty
    rw [if_neg (by simp [hne, hlast]), if_neg hempty]

theorem keep_source (after : List Char) :
    source.keep (source.text.toList ++ after) = after.tail :=
  List.drop_one

/-- If the marker is in the directory alone, the name is kept with what is kept of that, unless
the character that is dropped is all that comes before the name. -/
theorem relative_join (hd : marker.Divides dir.path before after)
    (hk : marker.relative dir.path = .ok kept)
    (hf : marker.relative (Location.path (last :: dir)) = .ok file)
    (ho : ¬ marker.OccursIn ⟨last.bytes⟩) :
    Path.ofString file =
      if marker = .source ∧ after.length = 1 then ⟨Path.slash :: last.bytes⟩
      else (Path.ofString kept).join ⟨last.bytes⟩ := by
  obtain ⟨-, hlast⟩ := Location.isText_path_cons_iff.mp (exists_relative_iff.mp ⟨file, hf⟩).1
  obtain ⟨text, hl⟩ := Path.isText_iff_exists_encode.mp hlast
  have hbytes : last.bytes = Utf8.encode text := hl
  have hslash : Utf8.encode ('/' :: text) = Path.slash :: last.bytes := by rw [hbytes]; rfl
  obtain rfl := Except.ok.inj ((hd.of_directory hbytes ho).relative.symm.trans hf)
  rw [join_name hk]
  obtain rfl := Except.ok.inj (hd.relative.symm.trans hk)
  cases marker with
  | external =>
    -- the kept text starts with the marker, so it is never empty
    have hne : String.ofList (external.keep (external.text.toList ++ after)) ≠ "" := by
      simp [keep, Marker.text]
    rw [if_neg (by simp), if_neg hne]
    simp only [keep, Path.ofString_ofList]
    rw [← List.append_assoc, Utf8.encode_append, hslash]
  | source =>
    rw [keep_source, keep_source]
    cases after with
    | nil => simp [Path.ofString, hbytes]
    | cons c after =>
      cases after with
      | nil => simp [Path.ofString, hslash]
      | cons d after =>
        have happend : Utf8.encode (d :: (after ++ '/' :: text)) =
            Utf8.encode (d :: after) ++ Path.slash :: last.bytes := by
          rw [← List.cons_append, Utf8.encode_append, hslash]
        simp [Path.ofString, happend]

theorem parts_join_name (kept : String) (last : Name) :
    ((Path.ofString kept).join ⟨last.bytes⟩).parts = (Path.ofString kept).parts ++ [last.bytes] := by
  have hone : (Path.mk last.bytes).parts = [last.bytes] := by
    rw [Path.parts, Path.segments, pieces_of_not_mem last.valid.2.2.2.1]
    simp [Location.not_isIdle last]
  by_cases hempty : kept = ""
  · subst hempty
    unfold Path.join
    rw [if_neg (Location.not_isAbsolute last)]
    exact hone
  · rw [Path.parts_join (Path.not_isEmpty_ofString hempty) (Location.not_isAbsolute last), hone]

theorem length_of_source {p : Path} (h : source.relative p = .ok file) :
    (Path.ofString file).bytes.length < p.bytes.length := by
  obtain ⟨before, after, ⟨rfl, -⟩, rfl⟩ := relative_eq_ok_iff_exists_divides.mp h
  obtain ⟨dropped, hdropped⟩ := List.tail_suffix after
  have hmarker : 0 < (Utf8.encode source.text.toList).length := by decide
  have hafter : Utf8.encode after = Utf8.encode dropped ++ Utf8.encode after.tail := by
    rw [← Utf8.encode_append, hdropped]
  rw [keep_source]
  simp only [Path.ofString_ofList, Utf8.encode_append, hafter, List.length_append]
  omega

/-- A marker in the last name loses what was kept of the directory. -/
theorem length_relative_lt (hk : marker.relative dir.path = .ok kept)
    (hf : marker.relative ⟨last.bytes⟩ = .ok file) :
    (Path.ofString file).bytes.length <
      ((Path.ofString kept).join ⟨last.bytes⟩).bytes.length := by
  have hjoin : last.bytes.length ≤ ((Path.ofString kept).join ⟨last.bytes⟩).bytes.length := by
    rw [join_name hk]
    split
    · exact Nat.le_refl _
    · rw [List.length_append, List.length_cons]
      omega
  cases marker with
  | source => exact Nat.lt_of_lt_of_le (length_of_source hf) hjoin
  | external =>
    have hne : kept ≠ "" := by
      rintro rfl
      exact (bytes_of_external hk).1 rfl
    have hle : (Path.ofString file).bytes.length ≤ last.bytes.length :=
      (suffix_of_relative hf).length_le
    rw [join_name hk, if_neg hne]
    simp only [List.length_append, List.length_cons]
    omega

theorem components_ne_join (hk : marker.relative dir.path = .ok kept)
    (hf : marker.relative ⟨last.bytes⟩ = .ok file) :
    (Path.ofString file).components ≠
      ((Path.ofString kept).join ⟨last.bytes⟩).components := by
  intro h
  have hparts := (Path.components_eq_iff.mp h).2
  rw [parts_join_name] at hparts
  have hsuffix : (Path.ofString file).bytes <:+ last.bytes := suffix_of_relative hf
  have hslash : Path.slash ∉ (Path.ofString file).bytes := fun hm =>
    last.valid.2.2.2.1 (hsuffix.subset hm)
  have hsegments : (Path.ofString file).segments = [(Path.ofString file).bytes] :=
    pieces_of_not_mem hslash
  cases marker with
  | source =>
    have hmem : last.bytes ∈ (Path.ofString file).segments :=
      List.mem_of_mem_filter (hparts ▸ List.mem_append_right _ List.mem_cons_self)
    rw [hsegments, List.mem_singleton] at hmem
    have hlt : (Path.ofString file).bytes.length < last.bytes.length := length_of_source hf
    rw [hmem] at hlt
    exact Nat.lt_irrefl _ hlt
  | external =>
    obtain ⟨hne, hbytes⟩ := bytes_of_external hk
    have hkept : Path.ofString kept = ⟨Location.relativeText _⟩ := congrArg Path.mk hbytes
    have hpos : 0 < (Path.ofString kept).parts.length := by
      rw [hkept, Location.parts_relativeText, List.length_reverse, List.length_map]
      exact List.length_pos_of_ne_nil hne
    have hle : (Path.ofString file).parts.length ≤ 1 := by
      rw [Path.parts, hsegments]
      exact List.length_filter_le _ _
    rw [hparts, List.length_append, List.length_singleton] at hle
    omega

theorem components_slash_ne_join (hk : marker.relative dir.path = .ok "") :
    (Path.mk (Path.slash :: last.bytes)).components ≠
      ((Path.ofString "").join ⟨last.bytes⟩).components := by
  intro h
  have hlead := (Path.components_eq_iff.mp h).1
  rw [join_name hk, if_pos rfl] at hlead
  exact Location.not_isAbsolute last (Path.isAbsolute_iff_lead.mpr hlead.symm)

theorem components_eq_join_iff (hd : marker.Divides dir.path before after)
    (hk : marker.relative dir.path = .ok kept)
    (hf : marker.relative (Location.path (last :: dir)) = .ok file) :
    (Path.ofString file).components = ((Path.ofString kept).join ⟨last.bytes⟩).components ↔
      ¬ marker.OccursIn ⟨last.bytes⟩ ∧ ¬ (marker = .source ∧ after.length = 1) := by
  constructor
  · intro h
    have ho : ¬ marker.OccursIn ⟨last.bytes⟩ := fun ho =>
      components_ne_join hk (relative_name hf ho) h
    refine ⟨ho, fun hone => ?_⟩
    rw [relative_join hd hk hf ho, if_pos hone] at h
    obtain ⟨rfl, hlen⟩ := hone
    obtain ⟨c, rfl⟩ := List.length_eq_one_iff.mp hlen
    obtain rfl : "" = kept := Except.ok.inj (hd.relative.symm.trans hk)
    exact components_slash_ne_join hk h
  · rintro ⟨ho, hone⟩
    rw [relative_join hd hk hf ho, if_neg hone]

end Marker

/-- The two relative paths of a plan go together if and only if the marker is in the directory
alone and something else than one character is after it there. -/
theorem relativeFile_eq_join_iff {fs : FileSystem} {cwd : WorkingDirectory} {request : Request}
    {plan : Plan} (h : (((disk cwd).plan request).run fs).1 = .ok plan) :
    ∃ dir last before after, plan.canonicalSource.parent? = some dir ∧
      plan.canonicalSource.fileName? = some last ∧ request.marker.Divides dir before after ∧
      let file := Path.ofString plan.relativeFile
      let joined := (Path.ofString plan.relativeDir).join last
      let goTogether := ¬ request.marker.OccursIn last ∧
        ¬ (request.marker = .source ∧ after.length = 1)
      (file = joined ↔ goTogether) ∧ (file.components = joined.components ↔ goTogether) ∧
      (request.marker.OccursIn last → request.marker.relative last = .ok plan.relativeFile ∧
        file.bytes.length < joined.bytes.length) := by
  obtain ⟨name, hplanned⟩ := planned_of_plan h
  obtain ⟨last, dir, hsource, hk⟩ := hplanned.exists_location
  obtain ⟨before, after, hd, -⟩ := Marker.relative_eq_ok_iff_exists_divides.mp hk
  have hf := hplanned.relativeFile
  rw [hsource] at hf ⊢
  have hiff := Marker.components_eq_join_iff hd hk hf
  refine ⟨_, _, before, after, Location.parent?_path last dir, Location.fileName?_path last dir,
    hd, ⟨fun he => hiff.mp (congrArg Path.components he), ?_⟩, hiff, fun ho => ?_⟩
  · rintro ⟨ho, hone⟩
    exact (Marker.relative_join hd hk hf ho).trans (if_neg hone)
  · have hname := Marker.relative_name hf ho
    exact ⟨hname, Marker.length_relative_lt hk hname⟩

def markedNameFiles : FileSystem :=
  ofEntries [("/p/cpwn_extern/cpwn_extern.rs", .file ⟨#[1, 2, 3]⟩ .forFile)]

def markedNameRequest : Request where
  infile := .ofString "/p/cpwn_extern/cpwn_extern.rs"
  outdir := "/out"
  marker := .external
  dryRun := false

def markedNamePlan : Plan where
  source := .ofString "/p/cpwn_extern/cpwn_extern.rs"
  canonicalSource := .ofString "/p/cpwn_extern/cpwn_extern.rs"
  marker := .external
  relativeDir := "cpwn_extern"
  relativeFile := "cpwn_extern.rs"
  destinationDir := .ofString "/out/cpwn_extern"
  destinationFile := .ofString "/out/cpwn_extern/cpwn_extern.rs"

theorem relativeFile_ne_join_markedName :
    (((disk (.ofLocation [])).plan markedNameRequest).run markedNameFiles).1 = .ok markedNamePlan ∧
      (Path.ofString markedNamePlan.relativeFile).components ≠
        ((Path.ofString markedNamePlan.relativeDir).join (.ofString "cpwn_extern.rs")).components ∧
      Marker.external.relative (.ofString "cpwn_extern.rs") = .ok markedNamePlan.relativeFile := by
  have hp : (((disk (.ofLocation [])).plan markedNameRequest).run markedNameFiles).1 =
      .ok markedNamePlan := by decide +kernel
  have hname : markedNamePlan.canonicalSource.fileName? = some (.ofString "cpwn_extern.rs") := by
    decide +kernel
  have ho : Marker.external.OccursIn (.ofString "cpwn_extern.rs") := by decide +kernel
  obtain ⟨_, last, _, after, -, hlast, -, -, hcomponents, hcut⟩ := relativeFile_eq_join_iff hp
  obtain rfl := Option.some.inj (hname.symm.trans hlast)
  exact ⟨hp, fun he => (hcomponents.mp he).1 ho, (hcut ho).1⟩

end MarkerCopy
