import MarkerCopy.FileSystem.Location
import MarkerCopy.Path.Components
import MarkerCopy.Text.Utf8.Lemmas

/-! How paths are spelled: their segments where texts are put together, and the spelling of
canonical paths, in which every segment but the first is a name. -/

namespace MarkerCopy

theorem joinPieces_cons {α : Type} {sep : α} {p : List α} {ps : List (List α)} (h : ps ≠ []) :
    joinPieces sep (p :: ps) = p ++ sep :: joinPieces sep ps := by
  cases ps with
  | nil => exact absurd rfl h
  | cons q qs => rfl

section Pieces

variable {α : Type} [DecidableEq α]

theorem pieces_append_cons (sep : α) (xs ys : List α) :
    pieces sep (xs ++ sep :: ys) = pieces sep xs ++ pieces sep ys := by
  induction xs with
  | nil => simp [pieces]
  | cons x xs ih =>
    by_cases h : x = sep
    · simp [pieces, h, ih]
    · cases hp : pieces sep xs with
      | nil => exact absurd hp (pieces_ne_nil sep xs)
      | cons p ps => simp [pieces, h, ih, hp]

theorem pieces_cons_of_ne {sep x : α} (h : x ≠ sep) (xs : List α) :
    ∃ p ps, pieces sep (x :: xs) = (x :: p) :: ps := by
  cases hp : pieces sep xs with
  | nil => exact absurd hp (pieces_ne_nil sep xs)
  | cons p ps => exact ⟨p, ps, by simp [pieces, h, hp]⟩

theorem pieces_of_not_mem {sep : α} {xs : List α} (h : sep ∉ xs) : pieces sep xs = [xs] := by
  induction xs with
  | nil => rfl
  | cons x xs ih =>
    obtain ⟨hx, hxs⟩ := List.ne_and_not_mem_of_not_mem_cons h
    simp [pieces, Ne.symm hx, ih hxs]

theorem pieces_cases (sep : α) (xs : List α) :
    pieces sep xs = [xs] ∨
      ∃ p rest, xs = p ++ sep :: rest ∧ pieces sep xs = p :: pieces sep rest := by
  by_cases h : sep ∈ xs
  · obtain ⟨p, rest, rfl, hp⟩ := List.eq_append_cons_of_mem h
    refine .inr ⟨p, rest, rfl, ?_⟩
    rw [pieces_append_cons, pieces_of_not_mem hp]
    rfl
  · exact .inl (pieces_of_not_mem h)

/-- The stretches after the first one stay the same whatever is put before the text. -/
theorem mem_pieces_append {sep : α} {ys p : List α} (xs : List α)
    (h : p ∈ (pieces sep ys).tail) : p ∈ pieces sep (xs ++ ys) := by
  rcases pieces_cases sep ys with hy | ⟨q, rest, rfl, hy⟩
  · simp [hy] at h
  · rw [hy, List.tail_cons] at h
    rw [← List.append_assoc, pieces_append_cons]
    exact List.mem_append_right _ h

end Pieces

theorem Utf8.encode_injective {s t : List Char} (h : encode s = encode t) : s = t := by
  have hs := decode?_encode s
  rw [h, decode?_encode] at hs
  exact (Option.some.inj hs).symm

theorem Utf8.eq_append_of_encode {text first : List Char} {rest : List UInt8}
    (h : encode text = encode first ++ rest) :
    ∃ second, text = first ++ second ∧ rest = encode second := by
  have hscan : text.map some = first.map some ++ scan rest := by
    rw [← scan_encode, h, scan_encode_append]
  obtain ⟨first', second, rfl, hfirst, -⟩ := List.map_eq_append_iff.mp hscan
  obtain rfl : first' = first := (List.map_inj_right fun _ _ => Option.some.inj).mp hfirst
  refine ⟨second, rfl, ?_⟩
  rw [encode_append] at h
  exact (List.append_cancel_left h).symm

namespace Path

theorem text?_eq_some_iff {p : Path} {text : String} :
    p.text? = some text ↔ p = .ofString text := by
  unfold text? ofString
  rw [Option.map_eq_some_iff]
  constructor
  · rintro ⟨chars, hd, rfl⟩
    rw [String.toList_ofList, ← Utf8.decode?_eq_some_iff.mp hd]
  · rintro rfl
    exact ⟨text.toList, Utf8.decode?_encode _, String.ofList_toList⟩

@[simp] theorem ofString_inj {s t : String} : ofString s = ofString t ↔ s = t := by
  constructor
  · intro h
    have hs : (ofString t).text? = some s := text?_eq_some_iff.mpr h.symm
    rw [text?_eq_some_iff.mpr rfl] at hs
    exact (Option.some.inj hs).symm
  · rintro rfl
    rfl

theorem ofString_ofList (text : List Char) : ofString (String.ofList text) = ⟨Utf8.encode text⟩ := by
  rw [ofString, String.toList_ofList]

theorem not_isEmpty_ofString {text : String} (h : text ≠ "") : ¬ (ofString text).isEmpty := by
  intro he
  have hb : Utf8.encode text.toList = Utf8.encode [] := List.isEmpty_iff.mp he
  exact h (String.toList_eq_nil_iff.mp (Utf8.encode_injective hb))

theorem segments_append_slash (s t : List Char) :
    (ofString (String.ofList (s ++ '/' :: t))).segments =
      (ofString (String.ofList s)).segments ++ (ofString (String.ofList t)).segments := by
  have hslash : Utf8.encode ('/' :: t) = slash :: Utf8.encode t := rfl
  simp only [ofString, segments, String.toList_ofList]
  rw [Utf8.encode_append, hslash, pieces_append_cons]

theorem mem_body_of_fileName? {p name : Path} (h : p.fileName? = some name) :
    name.bytes ∈ p.body := by
  unfold fileName? at h
  split at h
  · cases h
  · next segment rest hd =>
    split at h
    · cases h
    · cases h
      have hin := (List.dropWhile_suffix isIdle).mem (hd ▸ List.mem_cons_self)
      exact List.mem_reverse.mp hin

end Path

namespace Location

theorem pieces_text (loc : Location) :
    pieces Path.slash loc.text = [] :: (loc.map Name.bytes).reverse := by
  induction loc with
  | nil => rfl
  | cons name dir ih =>
    have hname : Path.slash ∉ name.bytes := name.valid.2.2.2.1
    rw [text, pieces_append_cons, ih, pieces_of_not_mem hname]
    simp

theorem text_eq {loc : Location} (h : loc ≠ []) :
    loc.text = Path.slash :: joinPieces Path.slash (loc.map Name.bytes).reverse := by
  rw [← joinPieces_pieces Path.slash loc.text, pieces_text, joinPieces_cons (by simpa using h)]
  rfl

theorem getLast?_text (loc : Location) : loc.text.getLast? ≠ some Path.slash := by
  cases loc with
  | nil => simp [text]
  | cons name dir =>
    intro h
    obtain ⟨hne, -, -, hslash, -⟩ := name.valid
    cases hb : name.bytes with
    | nil => exact hne hb
    | cons b bytes =>
      rw [text, hb, List.getLast?_append, List.getLast?_cons_cons] at h
      have hlast : (b :: bytes).getLast? = some Path.slash := by simpa using h
      exact hslash (hb ▸ List.mem_of_getLast? hlast)

theorem valid_of_mem_segments {loc : Location} {segment : List UInt8}
    (h : segment ∈ loc.path.segments) : segment = [] ∨ Name.Valid segment := by
  unfold path at h
  split at h
  · simp_all [Path.segments, pieces]
  · rw [Path.segments, pieces_text, List.mem_cons, List.mem_reverse, List.mem_map] at h
    rcases h with rfl | ⟨name, -, rfl⟩
    · exact .inl rfl
    · exact .inr name.valid

theorem not_isIdle (name : Name) : ¬ Path.isIdle name.bytes := by
  obtain ⟨hn, hd, -⟩ := name.valid
  simp [Path.isIdle, hn, hd]

theorem not_isAbsolute (name : Name) : ¬ (Path.mk name.bytes).isAbsolute := by
  intro ha
  exact name.valid.2.2.2.1 (List.mem_of_head? (beq_iff_eq.mp ha))

theorem dropWhile_isIdle (loc : Location) :
    (loc.map Name.bytes).dropWhile Path.isIdle = loc.map Name.bytes := by
  cases loc with
  | nil => rfl
  | cons name dir => simp [not_isIdle name]

theorem parent?_path (name : Name) (dir : Location) :
    (path (name :: dir)).parent? = some dir.path := by
  have hbytes : (path (name :: dir)).bytes =
      Path.slash :: joinPieces Path.slash ((name :: dir).map Name.bytes).reverse := by
    simp [path, text_eq]
  have hlead : (path (name :: dir)).lead = [Path.slash] := by
    rw [Path.lead, hbytes]
    rfl
  have hbody : (path (name :: dir)).body = ((name :: dir).map Name.bytes).reverse := by
    have hp := pieces_text (name :: dir)
    rw [text_eq (List.cons_ne_nil _ _)] at hp
    rw [Path.body, hbytes, hlead]
    exact (List.cons.inj hp).2
  rw [Path.parent?, hbody, List.reverse_reverse, dropWhile_isIdle, hlead]
  simp only [List.map_cons, Path.upTo, dropWhile_isIdle]
  cases dir with
  | nil => rfl
  | cons name' above => simp [path, text_eq]

end Location

end MarkerCopy
