import MarkerCopy.Proofs.Distinctness

/-! How the path of a copy is laid out: the output directory as it is spelled, below it the kept
part of the input's directory, and in that the name that the input was asked for by. -/

namespace MarkerCopy

open FileSystem

namespace Path

variable {dir name : Path}

theorem exists_last_of_join (hd : ¬ dir.isEmpty) (hn : ¬ name.isAbsolute) :
    ∃ start, (dir.join name).bytes = start ++ slash :: name.bytes := by
  unfold join
  rw [if_neg hn]
  split
  · next h =>
    have hslash : dir.bytes.getLast? = some slash := by simpa [hd] using h
    obtain ⟨start, hstart⟩ := List.getLast?_eq_some_iff.mp hslash
    exact ⟨start, by simp [hstart]⟩
  · exact ⟨dir.bytes, rfl⟩

/-- A name that was taken from a path is the last name of what it is joined to. -/
theorem fileName?_join {p : Path} (hd : ¬ dir.isEmpty) (hn : p.fileName? = some name) :
    (dir.join name).fileName? = some name := by
  obtain ⟨habs, hparts, hdots⟩ := name_of_fileName? hn
  have hslash : slash ∉ name.bytes := not_mem_of_mem_pieces (mem_body_of_fileName? hn)
  have hidle : ¬ isIdle name.bytes := by
    have hm : name.bytes ∈ name.parts := hparts ▸ List.mem_singleton_self _
    simpa using (List.mem_filter.mp hm).2
  exact fileName?_of_last (exists_last_of_join hd habs) hslash hidle hdots

theorem getLast?_ofString_iff {text : String} :
    (ofString text).bytes.getLast? = some slash ↔ text.toList.getLast? = some '/' := by
  have hslash : Utf8.encode ['/'] = [slash] := rfl
  constructor
  · intro h
    obtain ⟨start, hstart⟩ := List.getLast?_eq_some_iff.mp h
    obtain ⟨first, last, htext, -, hlast⟩ := Utf8.eq_encode_of_low (by decide) hstart
    obtain rfl : ['/'] = last := Utf8.encode_injective (hslash.trans hlast)
    simp [htext]
  · intro h
    obtain ⟨start, hstart⟩ := List.getLast?_eq_some_iff.mp h
    simp [ofString, hstart, Utf8.encode_append, hslash]

/-- The components of a path say whether it is absolute, and what its parts are. -/
theorem isAbsolute_and_parts_of_components {p root : Path} {parts : List (List UInt8)}
    (h : p.components = root.lead :: parts) :
    p.isAbsolute = root.isAbsolute ∧ p.parts = parts := by
  rw [components_eq, List.cons.injEq] at h
  obtain ⟨hlead, hparts⟩ := h
  refine ⟨Bool.eq_iff_iff.mpr ?_, hparts⟩
  rw [isAbsolute_iff_lead, isAbsolute_iff_lead, hlead]

end Path

theorem bytes_outputPath (outdir relativeDir : String) :
    (outputPath outdir relativeDir).bytes =
      if (Path.ofString outdir).bytes.getLast? = some Path.slash then
        (Path.ofString outdir).bytes ++ (Path.ofString relativeDir).bytes
      else (Path.ofString outdir).bytes ++ Path.slash :: (Path.ofString relativeDir).bytes := by
  have hslash : Utf8.encode ('/' :: relativeDir.toList) =
      Path.slash :: Utf8.encode relativeDir.toList := rfl
  simp only [outputPath, Path.getLast?_ofString_iff]
  split
  · simp [Path.ofString, Utf8.encode_append]
  · simp [Path.ofString, Utf8.encode_append, hslash]

/-- A kept directory that is not absolute goes below the output directory as any path would. -/
theorem outputPath_eq_join {outdir relativeDir : String} (ho : outdir ≠ "")
    (hr : ¬ (Path.ofString relativeDir).isAbsolute) :
    outputPath outdir relativeDir = (Path.ofString outdir).join (.ofString relativeDir) := by
  have hbytes := bytes_outputPath outdir relativeDir
  have hempty := Path.not_isEmpty_ofString ho
  generalize outputPath outdir relativeDir = p at hbytes ⊢
  obtain ⟨bytes⟩ := p
  unfold Path.join
  rw [if_neg hr]
  split
  · next h =>
    have hslash : (Path.ofString outdir).bytes.getLast? = some Path.slash := by
      simpa [hempty] using h
    rw [if_pos hslash] at hbytes
    exact congrArg Path.mk hbytes
  · next h =>
    have hslash : (Path.ofString outdir).bytes.getLast? ≠ some Path.slash := by
      simpa [hempty] using h
    rw [if_neg hslash] at hbytes
    exact congrArg Path.mk hbytes

/-- Two slashes come together where texts do only if one ends and the other begins in a slash. -/
theorem doubled_append_iff {xs ys : List UInt8}
    (h : xs.getLast? = some Path.slash → ys.head? ≠ some Path.slash) :
    [Path.slash, Path.slash] <:+: xs ++ ys ↔
      [Path.slash, Path.slash] <:+: xs ∨ [Path.slash, Path.slash] <:+: ys := by
  constructor
  · intro hin
    rcases List.infix_append_iff.mp hin with hx | hy | ⟨before, after, heq, hbefore, hafter⟩
    · exact .inl hx
    · exact .inr hy
    · rcases List.append_eq_cons_iff.mp heq.symm with ⟨rfl, rfl⟩ | ⟨before, rfl, hone⟩
      · exact .inr hafter.isInfix
      · rcases List.append_eq_cons_iff.mp hone.symm with ⟨rfl, rfl⟩ | ⟨_, rfl, hnil⟩
        · obtain ⟨start, rfl⟩ := hbefore
          obtain ⟨rest, rfl⟩ := hafter
          exact absurd rfl (h (by simp))
        · obtain ⟨rfl, rfl⟩ := List.append_eq_nil_iff.mp hnil.symm
          exact .inl hbefore.isInfix
  · rintro (hx | hy)
    · exact hx.trans (List.prefix_append xs ys).isInfix
    · exact hy.trans (List.suffix_append xs ys).isInfix

theorem doubled_outputPath_iff {outdir relativeDir : String}
    (hr : ¬ (Path.ofString relativeDir).isAbsolute) :
    [Path.slash, Path.slash] <:+: (outputPath outdir relativeDir).bytes ↔
      [Path.slash, Path.slash] <:+: (Path.ofString outdir).bytes ∨
        [Path.slash, Path.slash] <:+: (Path.ofString relativeDir).bytes := by
  have hhead : (Path.ofString relativeDir).bytes.head? ≠ some Path.slash := fun he =>
    hr (beq_iff_eq.mpr he)
  rw [bytes_outputPath]
  split
  · exact doubled_append_iff fun _ => hhead
  · next hslash =>
    have hone : ¬ [Path.slash, Path.slash] <:+: [Path.slash] := by decide
    have hrest : [Path.slash, Path.slash] <:+: [Path.slash] ++ (Path.ofString relativeDir).bytes ↔
        [Path.slash, Path.slash] <:+: (Path.ofString relativeDir).bytes := by
      rw [doubled_append_iff fun _ => hhead, or_iff_right hone]
    rw [doubled_append_iff fun he => absurd he hslash]
    exact or_congr_right hrest

/-- In an output directory, a copy goes to where the segments of its kept directory lead, under the
name that it was asked for by, whatever slashes there are around these. -/
theorem destination_layout {outdir : String} (ho : outdir ≠ "") :
    (∀ relativeDir, ¬ (Path.ofString relativeDir).isAbsolute →
      outputPath outdir relativeDir = (Path.ofString outdir).join (.ofString relativeDir) ∧
      ([Path.slash, Path.slash] <:+: (outputPath outdir relativeDir).bytes ↔
        [Path.slash, Path.slash] <:+: (Path.ofString outdir).bytes ∨
          [Path.slash, Path.slash] <:+: (Path.ofString relativeDir).bytes)) ∧
    ∀ (fs : FileSystem) (cwd : WorkingDirectory) (request : Request) (plan : Plan),
      request.outdir = outdir → (((disk cwd).plan request).run fs).1 = .ok plan →
      plan.destinationFile.isAbsolute = (Path.ofString outdir).isAbsolute ∧
      (∃ rest, plan.destinationDir = .ofString (outdir ++ rest)) ∧
      ∃ name, request.infile.fileName? = some name ∧ plan.destinationFile.fileName? = some name ∧
        plan.destinationFile.parts = (Path.ofString outdir).parts ++
          (Path.ofString plan.relativeDir).parts ++ [name.bytes] := by
  refine ⟨fun relativeDir hr => ⟨outputPath_eq_join ho hr, doubled_outputPath_iff hr⟩, ?_⟩
  rintro fs cwd request plan rfl hp
  obtain ⟨name, h⟩ := planned_of_plan hp
  obtain ⟨habs, hparts⟩ :=
    Path.isAbsolute_and_parts_of_components (h.components_destinationFile ho)
  refine ⟨habs, ?_, name, h.fileName, ?_, hparts⟩
  · rw [h.destinationDir, outputPath]
    split
    · exact ⟨plan.relativeDir, rfl⟩
    · exact ⟨"/" ++ plan.relativeDir, by rw [String.append_assoc]⟩
  · rw [h.destinationFile, Path.fileName?_join h.not_isEmpty_destinationDir h.fileName]

def slashedFiles : FileSystem :=
  ofEntries [("/p/srcs/pkg/f", .file ⟨#[1, 2, 3]⟩ .forFile)]

def slashedRequest : Request where
  infile := .ofString "/p/./srcs//pkg/f"
  outdir := "./out//"
  marker := .source
  dryRun := false

def slashedPlan : Plan where
  source := .ofString "/p/./srcs//pkg/f"
  canonicalSource := .ofString "/p/srcs/pkg/f"
  marker := .source
  relativeDir := "/pkg"
  relativeFile := "/pkg/f"
  destinationDir := .ofString "./out///pkg"
  destinationFile := .ofString "./out///pkg/f"

theorem destination_layout_slashed :
    (((disk (.ofLocation [])).plan slashedRequest).run slashedFiles).1 = .ok slashedPlan ∧
      slashedPlan.destinationFile.isAbsolute = (Path.ofString "./out//").isAbsolute ∧
      slashedPlan.destinationFile.parts =
        (Path.ofString "./out//").parts ++ (Path.ofString "/pkg").parts ++ [[0x66]] ∧
      outputPath "./out//" "a/b" = (Path.ofString "./out//").join (.ofString "a/b") := by
  have hp : (((disk (.ofLocation [])).plan slashedRequest).run slashedFiles).1 =
      .ok slashedPlan := by decide +kernel
  have hname : slashedRequest.infile.fileName? = some ⟨[0x66]⟩ := by decide +kernel
  obtain ⟨hmap, hplan⟩ := destination_layout (show "./out//" ≠ "" by decide)
  obtain ⟨habs, -, name, hn, -, hparts⟩ := hplan _ _ slashedRequest slashedPlan rfl hp
  obtain rfl := Option.some.inj (hname.symm.trans hn)
  exact ⟨hp, habs, hparts, (hmap "a/b" (by decide +kernel)).1⟩

end MarkerCopy
