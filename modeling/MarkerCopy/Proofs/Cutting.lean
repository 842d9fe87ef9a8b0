import MarkerCopy.Proofs.Planning
import MarkerCopy.Proofs.Resolving
import MarkerCopy.Proofs.Spelling

/-! How a text is cut at its last marker. Whatever the marker, what is kept is the end of the
text. -/

namespace MarkerCopy

section Occurrence

variable {α : Type} [BEq α] [LawfulBEq α]

theorem fromLast?_eq_none_iff {part list : List α} :
    fromLast? part list = none ↔ ¬ part <:+: list := by
  induction list with
  | nil => simp [fromLast?]
  | cons x xs ih =>
    rw [fromLast?, List.infix_cons_iff, not_or, ← ih, ← List.isPrefixOf_iff_prefix]
    cases fromLast? part xs <;> simp

theorem fromLast?_eq_some_iff {part list found : List α} (hp : part ≠ []) :
    fromLast? part list = some found ↔
      ∃ before, list = before ++ found ∧ part <+: found ∧ ¬ part <:+: found.tail := by
  induction list with
  | nil =>
    constructor
    · simp [fromLast?, hp]
    · rintro ⟨before, he, hpre, -⟩
      obtain ⟨-, rfl⟩ := List.append_eq_nil_iff.mp he.symm
      exact absurd (List.prefix_nil.mp hpre) hp
  | cons x xs ih =>
    rw [fromLast?]
    cases hx : fromLast? part xs with
    | some found' =>
      constructor
      · intro h
        obtain rfl : found' = found := Option.some.inj h
        obtain ⟨before, rfl, hpre, hlast⟩ := ih.mp hx
        exact ⟨x :: before, rfl, hpre, hlast⟩
      · rintro ⟨_ | ⟨y, before⟩, he, hpre, hlast⟩
        · -- the part does not occur again after the last place
          obtain rfl : x :: xs = found := he
          cases hx.symm.trans (fromLast?_eq_none_iff.mpr hlast)
        · obtain ⟨rfl, rfl⟩ := List.cons.inj he
          exact hx.symm.trans (ih.mpr ⟨before, rfl, hpre, hlast⟩)
    | none =>
      have hnone := fromLast?_eq_none_iff.mp hx
      constructor
      · intro h
        simp only [Option.ite_none_right_eq_some, Option.some.injEq] at h
        obtain ⟨hpre, rfl⟩ := h
        exact ⟨[], rfl, List.isPrefixOf_iff_prefix.mp hpre, hnone⟩
      · rintro ⟨_ | ⟨y, before⟩, he, hpre, -⟩
        · obtain rfl : x :: xs = found := he
          exact if_pos (List.isPrefixOf_iff_prefix.mpr hpre)
        · obtain ⟨rfl, rfl⟩ := List.cons.inj he
          exact absurd (hpre.isInfix.trans (List.suffix_append before found).isInfix) hnone

end Occurrence

namespace Marker

variable {marker : Marker} {p : Path} {text kept : String}

theorem text_ne_nil (marker : Marker) : marker.text.toList ≠ [] := by
  cases marker <;> decide

theorem cut?_eq_none_iff :
    marker.cut? text = none ↔ ¬ marker.text.toList <:+: text.toList := by
  rw [cut?, Option.map_eq_none_iff, fromLast?_eq_none_iff]

theorem cut?_eq_some_iff :
    marker.cut? text = some kept ↔
      ∃ before found, text.toList = before ++ found ∧ marker.text.toList <+: found ∧
        ¬ marker.text.toList <:+: found.tail ∧ kept = String.ofList (marker.keep found) := by
  rw [cut?, Option.map_eq_some_iff]
  constructor
  · rintro ⟨found, hf, rfl⟩
    obtain ⟨before, he, hpre, hlast⟩ := (fromLast?_eq_some_iff marker.text_ne_nil).mp hf
    exact ⟨before, found, he, hpre, hlast, rfl⟩
  · rintro ⟨before, found, he, hpre, hlast, rfl⟩
    have hf := (fromLast?_eq_some_iff marker.text_ne_nil).mpr ⟨before, he, hpre, hlast⟩
    exact ⟨found, hf, rfl⟩

/-- A path is cut where its last marker begins. -/
theorem relative_eq_ok_iff :
    marker.relative p = .ok kept ↔
      ∃ before found, p = .ofString (String.ofList (before ++ found)) ∧
        marker.text.toList <+: found ∧ ¬ marker.text.toList <:+: found.tail ∧
        kept = String.ofList (marker.keep found) := by
  constructor
  · intro h
    unfold relative at h
    split at h
    · cases h
    · next text ht =>
      split at h
      · cases h
      · next kept' hk =>
        cases h
        obtain ⟨before, found, he, hpre, hlast, rfl⟩ := cut?_eq_some_iff.mp hk
        refine ⟨before, found, ?_, hpre, hlast, rfl⟩
        rw [← he, String.ofList_toList]
        exact Path.text?_eq_some_iff.mp ht
  · rintro ⟨before, found, rfl, hpre, hlast, rfl⟩
    have hk : marker.cut? (String.ofList (before ++ found)) = _ :=
      cut?_eq_some_iff.mpr ⟨before, found, String.toList_ofList, hpre, hlast, rfl⟩
    simp only [relative, Path.text?_eq_some_iff.mpr rfl, hk]

theorem exists_relative (h : marker.text.toList <:+: text.toList) :
    ∃ kept, marker.relative (.ofString text) = .ok kept := by
  cases hk : marker.cut? text with
  | none => exact absurd h (cut?_eq_none_iff.mp hk)
  | some kept =>
    refine ⟨kept, ?_⟩
    simp only [relative, Path.text?_eq_some_iff.mpr rfl, hk]

theorem keep_suffix (marker : Marker) (found : List Char) : marker.keep found <:+ found := by
  cases marker with
  | source => exact List.drop_suffix _ _
  | external => exact List.suffix_rfl

theorem suffix_of_relative (h : marker.relative p = .ok kept) :
    (Path.ofString kept).bytes <:+ p.bytes := by
  obtain ⟨before, found, rfl, -, -, rfl⟩ := relative_eq_ok_iff.mp h
  obtain ⟨dropped, hk⟩ := marker.keep_suffix found
  refine ⟨Utf8.encode (before ++ dropped), ?_⟩
  simp only [Path.ofString, String.toList_ofList]
  rw [← Utf8.encode_append, List.append_assoc, hk]

theorem infix_of_relative (h : marker.relative p = .ok kept) :
    (Path.ofString marker.text).bytes <:+: p.bytes := by
  obtain ⟨before, found, rfl, ⟨rest, rfl⟩, -, -⟩ := relative_eq_ok_iff.mp h
  refine ⟨Utf8.encode before, Utf8.encode rest, ?_⟩
  simp only [Path.ofString, String.toList_ofList, Utf8.encode_append, List.append_assoc]

theorem not_infix_root (marker : Marker) :
    ¬ (Path.ofString marker.text).bytes <:+: [Path.slash] := by
  cases marker <;> decide

theorem ne_nil_of_relative {dir : Location} (h : marker.relative dir.path = .ok kept) :
    dir ≠ [] := by
  rintro rfl
  exact marker.not_infix_root (infix_of_relative h)

theorem getLast?_of_relative {dir : Location} (h : marker.relative dir.path = .ok kept) :
    (Path.ofString kept).bytes.getLast? ≠ some Path.slash := by
  have hne := ne_nil_of_relative h
  have hbytes : dir.path.bytes = dir.text := by simp [Location.path, hne]
  obtain ⟨before, hb⟩ := suffix_of_relative h
  intro hslash
  have hlast : dir.text.getLast? = some Path.slash := by
    rw [← hbytes, ← hb, List.getLast?_append, hslash]
    rfl
  exact Location.getLast?_text dir hlast

end Marker

section

variable {fs : FileSystem} {cwd : WorkingDirectory} {request : Request} {plan : Plan} {name : Path}

theorem Planned.exists_location
    (h : Planned request (fs.canonical cwd request.infile) plan name) :
    ∃ (last : Name) (dir : Location), plan.canonicalSource = Location.path (last :: dir) ∧
      request.marker.relative dir.path = .ok plan.relativeDir := by
  obtain ⟨loc, hloc⟩ := FileSystem.eq_path_of_canonical h.resolved
  have hdir := h.relativeDir
  rw [hloc] at hdir ⊢
  cases loc with
  | nil =>
    -- the root has no parent, and the empty path in its place cannot be cut
    have hempty : (Path.ofString request.marker.text).bytes <:+: [] :=
      Marker.infix_of_relative hdir
    exact absurd (hempty.trans List.nil_infix) request.marker.not_infix_root
  | cons last dir =>
    rw [Location.parent?_path] at hdir
    exact ⟨last, dir, rfl, hdir⟩

theorem Planned.relative_directory
    (h : Planned request (fs.canonical cwd request.infile) plan name) :
    ∃ dir : Location, plan.canonicalSource.parent? = some dir.path ∧
      request.marker.relative dir.path = .ok plan.relativeDir := by
  obtain ⟨last, dir, hsource, hdir⟩ := h.exists_location
  exact ⟨dir, hsource ▸ Location.parent?_path last dir, hdir⟩

end

end MarkerCopy
