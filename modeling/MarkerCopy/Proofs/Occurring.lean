import MarkerCopy.Proofs.Cutting
import MarkerCopy.Proofs.Encoding

/-! Where markers occur in paths. There is no slash in a marker, so it occurs in a path if and only
if it occurs in a segment of it, and never at once in a directory and in a name there. -/

namespace MarkerCopy

section Infix

variable {α : Type} {sep : α} {part : List α}

/-- What has no separator in it does not reach over one. -/
theorem infix_append_cons_iff (h : sep ∉ part) {xs ys : List α} :
    part <:+: xs ++ sep :: ys ↔ part <:+: xs ∨ part <:+: ys := by
  constructor
  · intro hin
    rcases List.infix_append_iff.mp hin with hx | hy | ⟨before, after, rfl, hbefore, hafter⟩
    · exact .inl hx
    · rcases List.infix_cons_iff.mp hy with hp | hy
      · cases part with
        | nil => exact .inl List.nil_infix
        | cons x part =>
          obtain rfl : x = sep := (List.cons_prefix_cons.mp hp).1
          exact absurd List.mem_cons_self h
      · exact .inr hy
    · cases after with
      | nil => exact .inl (by simpa using hbefore.isInfix)
      | cons x after =>
        obtain rfl : x = sep := (List.cons_prefix_cons.mp hafter).1
        exact absurd (List.mem_append_right before List.mem_cons_self) h
  · rintro (hx | hy)
    · exact hx.trans (List.prefix_append xs _).isInfix
    · exact hy.trans ((List.suffix_cons sep ys).trans (List.suffix_append xs _)).isInfix

theorem infix_iff_exists_piece [DecidableEq α] (h : sep ∉ part) (xs : List α) :
    part <:+: xs ↔ ∃ piece ∈ pieces sep xs, part <:+: piece := by
  induction hn : xs.length using Nat.strongRecOn generalizing xs with
  | ind n ih =>
    rcases pieces_cases sep xs with hp | ⟨first, rest, rfl, hp⟩
    · simp [hp]
    · have hlen : rest.length < n := by
        rw [← hn, List.length_append, List.length_cons]
        omega
      rw [infix_append_cons_iff h, hp, ih rest.length hlen rest rfl]
      simp

end Infix

namespace Marker

variable {marker : Marker} {p : Path}

/-- Whether a marker occurs in a path, maybe inside a longer name. -/
def OccursIn (marker : Marker) (p : Path) : Prop :=
  (Path.ofString marker.text).bytes <:+: p.bytes

instance (marker : Marker) (p : Path) : Decidable (marker.OccursIn p) :=
  inferInstanceAs (Decidable (_ <:+: _))

theorem slash_not_mem (marker : Marker) : Path.slash ∉ (Path.ofString marker.text).bytes := by
  cases marker <;> decide

theorem char_slash_not_mem (marker : Marker) : '/' ∉ marker.text.toList := by
  cases marker <;> decide

theorem exists_low_cons (marker : Marker) :
    ∃ b rest, (Path.ofString marker.text).bytes = b :: rest ∧ b.toNat < 128 := by
  cases marker with
  | source => exact ⟨0x73, _, rfl, by decide⟩
  | external => exact ⟨0x63, _, rfl, by decide⟩

theorem occursIn_ofString_iff {text : String} :
    marker.OccursIn (.ofString text) ↔ marker.text.toList <:+: text.toList := by
  constructor
  · rintro ⟨start, rest, h⟩
    obtain ⟨b, tail, hb, hlow⟩ := marker.exists_low_cons
    have hsplit : Utf8.encode text.toList = start ++ b :: (tail ++ rest) := by
      have hbytes : (Path.ofString text).bytes = Utf8.encode text.toList := rfl
      rw [← hbytes, ← h, hb, List.append_assoc, List.cons_append]
    obtain ⟨first, second, htext, -, hsecond⟩ := Utf8.eq_encode_of_low hlow hsplit
    have hmarker : Utf8.encode second = Utf8.encode marker.text.toList ++ rest := by
      rw [← hsecond, ← List.cons_append, ← hb]
      rfl
    obtain ⟨third, rfl, -⟩ := Utf8.eq_append_of_encode hmarker
    exact ⟨first, third, by rw [htext, List.append_assoc]⟩
  · rintro ⟨first, third, h⟩
    refine ⟨Utf8.encode first, Utf8.encode third, ?_⟩
    simp only [Path.ofString]
    rw [← h, Utf8.encode_append, Utf8.encode_append]

theorem exists_relative_iff :
    (∃ kept, marker.relative p = .ok kept) ↔ p.IsText ∧ marker.OccursIn p := by
  constructor
  · rintro ⟨kept, h⟩
    obtain ⟨before, found, hp, -⟩ := relative_eq_ok_iff.mp h
    exact ⟨⟨_, hp⟩, infix_of_relative h⟩
  · rintro ⟨⟨text, rfl⟩, h⟩
    exact exists_relative (occursIn_ofString_iff.mp h)

theorem relative_eq_error_iff {failure : Failure} :
    marker.relative p = .error failure ↔
      ¬ p.IsText ∧ failure = .notUtf8 p ∨
      p.IsText ∧ ¬ marker.OccursIn p ∧ failure = .markerNotFound marker p := by
  by_cases ht : p.IsText
  · obtain ⟨text, rfl⟩ := ht
    have htext : (Path.ofString text).IsText := ⟨text, rfl⟩
    by_cases ho : marker.OccursIn (.ofString text)
    · obtain ⟨kept, hk⟩ := exists_relative_iff.mpr ⟨htext, ho⟩
      simp [hk, htext, ho]
    · have hcut : marker.cut? text = none :=
        cut?_eq_none_iff.mpr fun hin => ho (occursIn_ofString_iff.mpr hin)
      simp only [relative, Path.text?_eq_some_iff.mpr rfl, hcut]
      simp [htext, ho, eq_comm]
  · have hnone : p.text? = none := by
      rwa [Path.isText_iff, Option.not_isSome_iff_eq_none] at ht
    simp [relative, hnone, ht, eq_comm]

/-- Whether the last marker in a path stands between two texts. -/
def Divides (marker : Marker) (p : Path) (before after : List Char) : Prop :=
  p = .ofString (String.ofList (before ++ marker.text.toList ++ after)) ∧
    ¬ marker.text.toList <:+: (marker.text.toList ++ after).tail

theorem relative_eq_ok_iff_exists_divides {kept : String} :
    marker.relative p = .ok kept ↔ ∃ before after, marker.Divides p before after ∧
      kept = String.ofList (marker.keep (marker.text.toList ++ after)) := by
  rw [relative_eq_ok_iff]
  constructor
  · rintro ⟨before, found, rfl, ⟨after, rfl⟩, hlast, rfl⟩
    exact ⟨before, after, ⟨by rw [List.append_assoc], hlast⟩, rfl⟩
  · rintro ⟨before, after, ⟨rfl, hlast⟩, rfl⟩
    exact ⟨before, marker.text.toList ++ after, by rw [List.append_assoc],
      List.prefix_append _ _, hlast, rfl⟩

end Marker

namespace Location

variable {marker : Marker} {name : Name} {dir : Location}

theorem occursIn_path_iff : marker.OccursIn dir.path ↔
    (Path.ofString marker.text).bytes <:+: dir.text := by
  by_cases h : dir = []
  · subst h
    have hroot : ¬ marker.OccursIn (path []) := marker.not_infix_root
    exact iff_of_false hroot fun hin => hroot (hin.trans List.nil_infix)
  · rw [path, if_neg h]
    rfl

theorem occursIn_path_cons_iff : marker.OccursIn (path (name :: dir)) ↔
    marker.OccursIn dir.path ∨ marker.OccursIn ⟨name.bytes⟩ := by
  rw [occursIn_path_iff, occursIn_path_iff]
  exact infix_append_cons_iff marker.slash_not_mem

theorem dropLast_segments_path (name : Name) (dir : Location) :
    (path (name :: dir)).segments.dropLast = pieces Path.slash dir.text := by
  have hslash : Path.slash ∉ name.bytes := name.valid.2.2.2.1
  have hpath : (path (name :: dir)).bytes = dir.text ++ Path.slash :: name.bytes := rfl
  rw [Path.segments, hpath, pieces_append_cons, pieces_of_not_mem hslash, List.dropLast_concat]

/-- The segments before the last one are those of the directory. -/
theorem exists_occursIn_segment_iff (marker : Marker) (name : Name) (dir : Location) :
    (∃ segment ∈ (path (name :: dir)).segments.dropLast, marker.OccursIn ⟨segment⟩) ↔
      marker.OccursIn dir.path := by
  rw [dropLast_segments_path, occursIn_path_iff]
  exact (infix_iff_exists_piece marker.slash_not_mem dir.text).symm

end Location

end MarkerCopy
