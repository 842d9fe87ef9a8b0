import MarkerCopy.Proofs.Cutting
import MarkerCopy.Proofs.Execution

/-! Whether a copy stays in the output directory. A marker that is followed by one more character
and two dots in the name of a directory is cut off with that character, and leaves a way up. -/

namespace MarkerCopy

open MarkerCopy.Path

namespace Path

def parts (p : Path) : List (List UInt8) :=
  p.segments.filter fun segment => !isIdle segment

/-- Whether a path leads, by its text alone, from another one only down. -/
def IsBelow (p root : Path) : Prop :=
  p.isAbsolute = root.isAbsolute ∧
    ∃ names, p.parts = root.parts ++ names ∧ [dot, dot] ∉ names

/-- Whether a name in a path ends in the last source marker, one more character and two dots. -/
def HasDotsAfterMarker (p : Path) : Prop :=
  ∃ before c after, p = .ofString (String.ofList
      (before ++ Marker.source.text.toList ++ c :: '.' :: '.' :: after)) ∧ c ≠ '/' ∧
    (after = [] ∨ ∃ below, after = '/' :: below) ∧
    ¬ Marker.source.text.toList <:+: c :: '.' :: '.' :: after

theorem parts_append_slash (xs ys : List UInt8) :
    parts ⟨xs ++ slash :: ys⟩ = parts ⟨xs⟩ ++ parts ⟨ys⟩ := by
  rw [parts, segments, pieces_append_cons, List.filter_append]
  rfl

theorem parts_append_of_slash {xs : List UInt8} (h : xs.getLast? = some slash)
    (ys : List UInt8) : parts ⟨xs ++ ys⟩ = parts ⟨xs⟩ ++ parts ⟨ys⟩ := by
  obtain ⟨start, rfl⟩ := List.getLast?_eq_some_iff.mp h
  have hempty : parts ⟨[]⟩ = [] := rfl
  rw [List.append_assoc, List.singleton_append, parts_append_slash, parts_append_slash, hempty,
    List.append_nil]

theorem parts_join {dir name : Path} (hd : ¬ dir.isEmpty) (hn : ¬ name.isAbsolute) :
    (dir.join name).parts = dir.parts ++ name.parts := by
  unfold join
  rw [if_neg hn]
  split
  · next h =>
    have hslash : dir.bytes.getLast? = some slash := by simpa [hd] using h
    exact parts_append_of_slash hslash name.bytes
  · exact parts_append_slash dir.bytes name.bytes

theorem isAbsolute_join {dir name : Path} (hd : ¬ dir.isEmpty) (hn : ¬ name.isAbsolute) :
    (dir.join name).isAbsolute = dir.isAbsolute := by
  obtain ⟨bytes⟩ := dir
  cases bytes with
  | nil => simp [isEmpty] at hd
  | cons b bytes =>
    unfold join
    rw [if_neg hn]
    split <;> rfl

theorem name_of_fileName? {p name : Path} (h : p.fileName? = some name) :
    ¬ name.isAbsolute ∧ name.parts = [name.bytes] ∧ name.bytes ≠ [dot, dot] := by
  have hslash : slash ∉ name.bytes := not_mem_of_mem_pieces (mem_body_of_fileName? h)
  unfold fileName? at h
  split at h
  · cases h
  · next segment rest hd =>
    split at h
    · cases h
    · next hdots =>
      cases h
      have hidle : ¬ isIdle segment := by
        have hne : p.body.reverse.dropWhile isIdle ≠ [] := by simp [hd]
        have hhead := List.head_dropWhile_not isIdle hne
        simpa [hd] using hhead
      refine ⟨?_, ?_, hdots⟩
      · cases segment with
        | nil => simp [isAbsolute]
        | cons b bytes => simpa [isAbsolute, Ne.symm] using (List.ne_of_not_mem_cons hslash).symm
      · rw [parts, segments, pieces_of_not_mem hslash]
        simp [hidle]

theorem dots_mem_parts_iff {p : Path} : [dot, dot] ∈ p.parts ↔ [dot, dot] ∈ p.segments := by
  simp [parts, isIdle]

end Path

theorem Location.dots_not_mem_segments (loc : Location) : [dot, dot] ∉ loc.path.segments := by
  intro h
  rcases valid_of_mem_segments h with he | hv
  · cases he
  · exact hv.2.2.1 rfl

namespace Marker

variable {marker : Marker} {dir : Location} {kept : String}

/-- Segments of the kept part are names of the path, except for the first one, which may be the end
of a name. -/
theorem valid_of_mem_tail {segment : List UInt8} (h : marker.relative dir.path = .ok kept)
    (hm : segment ∈ (Path.ofString kept).segments.tail) : segment = [] ∨ Name.Valid segment := by
  obtain ⟨before, hb⟩ := suffix_of_relative h
  have hmem : segment ∈ dir.path.segments := by
    rw [segments, ← hb]
    exact mem_pieces_append before hm
  exact Location.valid_of_mem_segments hmem

theorem dots_not_mem_tail (h : marker.relative dir.path = .ok kept) :
    [dot, dot] ∉ (Path.ofString kept).segments.tail := by
  intro hm
  rcases valid_of_mem_tail h hm with he | hv
  · cases he
  · exact hv.2.2.1 rfl

theorem eq_dots_of_segments {kept : List Char} {rest : List (List UInt8)}
    (h : (Path.ofString (String.ofList kept)).segments = [dot, dot] :: rest) :
    ∃ after, kept = '.' :: '.' :: after ∧ (after = [] ∨ ∃ below, after = '/' :: below) := by
  have hdots : Utf8.encode ['.', '.'] = [dot, dot] := rfl
  have hslash : Utf8.encode ['.', '.', '/'] = [dot, dot, slash] := rfl
  simp only [Path.ofString, segments, String.toList_ofList] at h
  rcases pieces_cases slash (Utf8.encode kept) with hp | ⟨p, below, hk, hp⟩
  · rw [hp, List.cons.injEq, ← hdots] at h
    exact ⟨[], Utf8.encode_injective h.1, .inl rfl⟩
  · obtain rfl : p = [dot, dot] := (List.cons.inj (hp.symm.trans h)).1
    have hk' : Utf8.encode kept = Utf8.encode ['.', '.', '/'] ++ below := hk
    obtain ⟨below, rfl, -⟩ := Utf8.eq_append_of_encode hk'
    exact ⟨'/' :: below, rfl, .inr ⟨below, rfl⟩⟩

theorem infix_tail_iff {rest : List Char} :
    source.text.toList <:+: (source.text.toList ++ rest).tail ↔ source.text.toList <:+: rest := by
  have he : (source.text.toList ++ rest).tail = 'r' :: 'c' :: rest := rfl
  have hs : source.text.toList = ['s', 'r', 'c'] := rfl
  rw [he, hs, List.infix_cons_iff, List.infix_cons_iff]
  simp

theorem segments_eq_dots_cons (h : marker.relative dir.path = .ok kept)
    (hm : [dot, dot] ∈ (Path.ofString kept).segments) :
    ∃ rest, (Path.ofString kept).segments = [dot, dot] :: rest := by
  cases hs : (Path.ofString kept).segments with
  | nil => simp [hs] at hm
  | cons first rest =>
    have hrest : [dot, dot] ∉ rest := by simpa [hs] using dots_not_mem_tail h
    obtain rfl : [dot, dot] = first := by simpa [hs, hrest] using hm
    exact ⟨rest, rfl⟩

theorem hasDotsAfterMarker_of_mem (h : marker.relative dir.path = .ok kept)
    (hm : [dot, dot] ∈ (Path.ofString kept).segments) :
    marker = .source ∧ dir.path.HasDotsAfterMarker := by
  obtain ⟨rest, hs⟩ := segments_eq_dots_cons h hm
  obtain ⟨before, found, hdir, ⟨found, rfl⟩, hlast, rfl⟩ := relative_eq_ok_iff.mp h
  obtain ⟨after, hkeep, hafter⟩ := eq_dots_of_segments hs
  cases marker with
  | external =>
    -- what is kept begins with the marker
    cases hkeep
  | source =>
    cases found with
    | nil => cases hkeep
    | cons c kept =>
      obtain rfl : kept = '.' :: '.' :: after := hkeep
      refine ⟨rfl, before, c, after, by rw [hdir, List.append_assoc], ?_, hafter, ?_⟩
      · -- after a slash the dots would be a name in a canonical path
        rintro rfl
        have hmem := List.mem_append_right
          (Path.ofString (String.ofList (before ++ source.text.toList))).segments hm
        refine dir.dots_not_mem_segments ?_
        rw [hdir, ← List.append_assoc, segments_append_slash]
        exact hmem
      · exact fun hin => hlast (infix_tail_iff.mpr hin)

theorem dots_mem_of_hasDotsAfterMarker (h : source.relative dir.path = .ok kept)
    (hd : dir.path.HasDotsAfterMarker) : [dot, dot] ∈ (Path.ofString kept).segments := by
  obtain ⟨before, c, after, hdir, -, hafter, hlast⟩ := hd
  have hr : source.relative dir.path = .ok (String.ofList ('.' :: '.' :: after)) :=
    relative_eq_ok_iff.mpr ⟨before, _, by rw [hdir, List.append_assoc], List.prefix_append _ _,
      fun hin => hlast (infix_tail_iff.mp hin), rfl⟩
  obtain rfl : String.ofList ('.' :: '.' :: after) = kept := Except.ok.inj (hr.symm.trans h)
  have hdots : [dot, dot] ∈ (Path.ofString (String.ofList ['.', '.'])).segments := by decide
  rcases hafter with rfl | ⟨below, rfl⟩
  · exact hdots
  · have hsplit := segments_append_slash ['.', '.'] below
    rw [List.cons_append, List.singleton_append] at hsplit
    rw [hsplit]
    exact List.mem_append_left _ hdots

end Marker

namespace Path

theorem isBelow_iff {p root : Path} {names : List (List UInt8)}
    (ha : p.isAbsolute = root.isAbsolute) (hp : p.parts = root.parts ++ names) :
    p.IsBelow root ↔ [dot, dot] ∉ names := by
  constructor
  · rintro ⟨-, names', hp', hn⟩
    obtain rfl : names = names' := List.append_cancel_left (hp.symm.trans hp')
    exact hn
  · exact fun hn => ⟨ha, names, hp, hn⟩

end Path

theorem parts_outputPath (outdir relativeDir : String) :
    (outputPath outdir relativeDir).parts =
      (Path.ofString outdir).parts ++ (Path.ofString relativeDir).parts := by
  obtain ⟨root, hslash, hroot, hbytes⟩ := outputPath_eq outdir relativeDir
  have hparts : parts ⟨root⟩ = (Path.ofString outdir).parts := by
    rcases hroot with rfl | rfl
    · rfl
    · rw [parts_append_slash]
      exact List.append_nil _
  rw [← hparts, ← parts_append_of_slash hslash, ← hbytes]

theorem isAbsolute_outputPath {outdir : String} (h : outdir ≠ "") (relativeDir : String) :
    (outputPath outdir relativeDir).isAbsolute = (Path.ofString outdir).isAbsolute := by
  obtain ⟨root, -, hroot, hbytes⟩ := outputPath_eq outdir relativeDir
  have hne := not_isEmpty_ofString h
  unfold isAbsolute
  rw [hbytes]
  cases ho : (Path.ofString outdir).bytes with
  | nil => simp [isEmpty, ho] at hne
  | cons b bytes => rcases hroot with rfl | rfl <;> simp [ho]

/-- A planned copy leaves the output directory only if a name that ends in two dots is cut right
before them, and then by one level. -/
theorem isBelow_outdir_iff {fs : FileSystem} {cwd : WorkingDirectory} {request : Request}
    {plan : Plan} (ho : request.outdir ≠ "")
    (hp : request.plan (fs.canonical cwd request.infile) = .ok plan) :
    ([dot, dot] ∈ (Path.ofString plan.relativeDir).segments ↔
      plan.marker = .source ∧
        ∃ dir, plan.canonicalSource.parent? = some dir ∧ dir.HasDotsAfterMarker) ∧
    [dot, dot] ∉ (Path.ofString plan.relativeDir).segments.tail ∧
    (plan.destinationDir.IsBelow (.ofString request.outdir) ↔
      [dot, dot] ∉ (Path.ofString plan.relativeDir).segments) ∧
    (plan.destinationFile.IsBelow (.ofString request.outdir) ↔
      [dot, dot] ∉ (Path.ofString plan.relativeDir).segments) := by
  obtain ⟨name, h⟩ := planned_of_plan hp
  obtain ⟨dir, hparent, hrel⟩ := h.relative_directory
  obtain ⟨hname, hone, hdots⟩ := name_of_fileName? h.fileName
  have hempty := not_isEmpty_outputPath request.outdir plan.relativeDir
  have hparts := parts_outputPath request.outdir plan.relativeDir
  have habs := isAbsolute_outputPath ho plan.relativeDir
  rw [h.marker, h.destinationFile, h.destinationDir, hparent]
  refine ⟨?_, Marker.dots_not_mem_tail hrel, ?_, ?_⟩
  · constructor
    · intro hm
      obtain ⟨hsource, hdots'⟩ := Marker.hasDotsAfterMarker_of_mem hrel hm
      exact ⟨hsource, dir.path, rfl, hdots'⟩
    · rintro ⟨hsource, _, ⟨⟩, hdots'⟩
      rw [hsource] at hrel
      exact Marker.dots_mem_of_hasDotsAfterMarker hrel hdots'
  · rw [isBelow_iff habs hparts, dots_mem_parts_iff]
  · have hfile : ((outputPath request.outdir plan.relativeDir).join name).parts =
        (Path.ofString request.outdir).parts ++
          ((Path.ofString plan.relativeDir).parts ++ [name.bytes]) := by
      rw [parts_join hempty hname, hparts, hone, List.append_assoc]
    rw [isBelow_iff ((isAbsolute_join hempty hname).trans habs) hfile, List.mem_append,
      dots_mem_parts_iff]
    simp [hdots.symm]

def dottedFiles : FileSystem :=
  FileSystem.ofEntries [("/p/srcx../f", .file ⟨#[1, 2, 3]⟩ .forFile)]

def dottedRequest : Request :=
  { infile := .ofString "/p/srcx../f", outdir := "/out", marker := .source, dryRun := false }

def dottedPlan : Plan where
  source := .ofString "/p/srcx../f"
  canonicalSource := .ofString "/p/srcx../f"
  marker := .source
  relativeDir := ".."
  relativeFile := "../f"
  destinationDir := .ofString "/out/.."
  destinationFile := .ofString "/out/../f"

theorem plan_dottedRequest :
    dottedRequest.plan (dottedFiles.canonical (.ofLocation []) dottedRequest.infile) =
      .ok dottedPlan := by
  decide +kernel

theorem plan_leads_out_of_outdir :
    ¬ ∀ (fs : FileSystem) (cwd : WorkingDirectory) (request : Request) (plan : Plan),
      request.outdir ≠ "" → request.plan (fs.canonical cwd request.infile) = .ok plan →
      [dot, dot] ∉ (Path.ofString plan.relativeDir).segments := by
  intro h
  exact h _ _ _ _ (by decide) plan_dottedRequest (by decide)

theorem not_isBelow_outdir_dotted :
    ¬ dottedPlan.destinationFile.IsBelow (.ofString "/out") ∧
      (Path.ofString "/p/srcx..").HasDotsAfterMarker := by
  have hdots : [dot, dot] ∈ (Path.ofString dottedPlan.relativeDir).segments := by decide
  obtain ⟨hiff, -, -, hfile⟩ := isBelow_outdir_iff (by decide) plan_dottedRequest
  obtain ⟨-, dir, hparent, hdir⟩ := hiff.mp hdots
  have he : dottedPlan.canonicalSource.parent? = some (.ofString "/p/srcx..") := by decide +kernel
  obtain rfl := Option.some.inj (hparent.symm.trans he)
  exact ⟨fun hb => hfile.mp hb hdots, hdir⟩

end MarkerCopy
