import MarkerCopy.Proofs.RelativePaths

/-! What is kept of a text, said without a search. Where it stands in the text determines it, and
where markers stand in place of whole names only, it is what follows the last of these names. -/

namespace MarkerCopy

section Lists

variable {α : Type} {sep : α} {part p : List α} {ps : List (List α)}

theorem infix_tail_iff_exists {list : List α} (hp : part ≠ []) :
    part <:+: list.tail ↔ ∃ start rest, list = start ++ part ++ rest ∧ start ≠ [] := by
  constructor
  · rintro ⟨start, rest, h⟩
    cases list with
    | nil =>
      have hnil : start = [] ∧ part = [] ∧ rest = [] := by simpa using h
      exact absurd hnil.2.1 hp
    | cons x xs => exact ⟨x :: start, rest, congrArg (x :: ·) h.symm, List.cons_ne_nil x start⟩
  · rintro ⟨_ | ⟨x, start⟩, rest, rfl, hstart⟩
    · exact absurd rfl hstart
    · exact ⟨start, rest, rfl⟩

theorem exists_last_of_mem {x : α} {list : List α} (h : x ∈ list) :
    ∃ before after, list = before ++ x :: after ∧ x ∉ after := by
  obtain ⟨after, before, hrev, hlast⟩ := List.eq_append_cons_of_mem (List.mem_reverse.mpr h)
  refine ⟨before.reverse, after.reverse, ?_, by simpa using hlast⟩
  simpa using congrArg List.reverse hrev

theorem joinPieces_cons_eq (sep : α) (p : List α) (ps : List (List α)) :
    joinPieces sep (p :: ps) = p ++ if ps = [] then [] else sep :: joinPieces sep ps := by
  cases ps with
  | nil => simp [joinPieces]
  | cons q qs => rfl

theorem tail_joinPieces_cons (hp : p ≠ []) (ps : List (List α)) :
    (joinPieces sep (p :: ps)).tail = joinPieces sep (p.tail :: ps) := by
  rw [joinPieces_cons_eq, joinPieces_cons_eq, List.tail_append_of_ne_nil hp]

theorem infix_joinPieces_iff (hsep : sep ∉ part) (hp : part ≠ []) :
    part <:+: joinPieces sep ps ↔ ∃ p ∈ ps, part <:+: p := by
  induction ps with
  | nil => simp [joinPieces, hp]
  | cons p ps ih =>
    by_cases hps : ps = []
    · subst hps
      simp [joinPieces]
    · rw [joinPieces_cons hps, infix_append_cons_iff hsep, ih]
      simp

end Lists

namespace Marker

variable {marker : Marker} {text kept : String}

/-- Whether a marker stands somewhere in a text. -/
def StandsIn (marker : Marker) (text : String) : Prop :=
  ∃ before after, text = before ++ marker.text ++ after

/-- Whether a text is what is kept of another one, by the place of the last marker in that. -/
def IsKept : Marker → String → String → Prop
  | source, text, kept => ∃ before skipped, text = before ++ source.text ++ skipped ++ kept ∧
      skipped.length ≤ 1 ∧ (skipped = "" → kept = "") ∧ ¬ source.StandsIn (skipped ++ kept)
  | external, text, kept => ∃ before, text = before ++ kept ∧
      (∃ after, kept = external.text ++ after) ∧
      ∀ start rest, kept = start ++ external.text ++ rest → start = ""

theorem standsIn_iff : marker.StandsIn text ↔ marker.text.toList <:+: text.toList := by
  constructor
  · rintro ⟨before, after, rfl⟩
    exact ⟨before.toList, after.toList, by simp⟩
  · rintro ⟨before, after, h⟩
    refine ⟨String.ofList before, String.ofList after, String.toList_inj.mp ?_⟩
    simp [← h]

theorem isKept_source_iff : source.IsKept text kept ↔ ∃ before after,
    text.toList = before ++ source.text.toList ++ after ∧ ¬ source.text.toList <:+: after ∧
      kept = String.ofList after.tail := by
  simp only [IsKept, standsIn_iff]
  constructor
  · rintro ⟨before, skipped, rfl, hlen, hempty, hlast⟩
    refine ⟨before.toList, (skipped ++ kept).toList, by simp, hlast, ?_⟩
    cases hs : skipped.toList with
    | nil =>
      obtain rfl := String.toList_eq_nil_iff.mp hs
      obtain rfl := hempty rfl
      rfl
    | cons c rest =>
      obtain rfl : rest = [] := by
        rw [← String.length_toList, hs, List.length_cons] at hlen
        exact List.length_eq_zero_iff.mp (by omega)
      simp [hs]
  · rintro ⟨before, after, htext, hlast, rfl⟩
    refine ⟨String.ofList before, String.ofList (after.take 1), ?_, ?_, ?_, ?_⟩
    · refine String.toList_inj.mp (htext.trans ?_)
      simp [← List.drop_one]
    · rw [← String.length_toList, String.toList_ofList, List.length_take]
      exact Nat.min_le_left 1 after.length
    · intro hs
      cases after with
      | nil => rfl
      | cons c after => simp at hs
    · simpa [← List.drop_one] using hlast

theorem isKept_external_iff : external.IsKept text kept ↔ ∃ before,
    text.toList = before ++ kept.toList ∧ external.text.toList <+: kept.toList ∧
      ¬ external.text.toList <:+: kept.toList.tail := by
  have hlast : (∀ start rest, kept = start ++ external.text ++ rest → start = "") ↔
      ¬ external.text.toList <:+: kept.toList.tail := by
    rw [infix_tail_iff_exists external.text_ne_nil]
    constructor
    · rintro h ⟨start, rest, hkept, hstart⟩
      refine hstart (String.ofList_eq_empty_iff.mp (h (String.ofList start) (String.ofList rest) ?_))
      exact String.toList_inj.mp (by simp [hkept])
    · rintro h start rest rfl
      by_contra hstart
      exact h ⟨start.toList, rest.toList, by simp, fun he => hstart (String.toList_eq_nil_iff.mp he)⟩
  rw [IsKept, hlast]
  constructor
  · rintro ⟨before, rfl, ⟨after, rfl⟩, h⟩
    exact ⟨before.toList, String.toList_append, ⟨after.toList, by simp⟩, h⟩
  · rintro ⟨before, htext, ⟨after, hkept⟩, h⟩
    refine ⟨String.ofList before, String.toList_inj.mp ?_, ⟨String.ofList after, ?_⟩, h⟩
    · simpa using htext
    · exact String.toList_inj.mp (by simp [← hkept])

theorem cut?_eq_some_iff_isKept : marker.cut? text = some kept ↔ marker.IsKept text kept := by
  rw [cut?_eq_some_iff]
  cases marker with
  | source =>
    rw [isKept_source_iff]
    constructor
    · rintro ⟨before, found, htext, ⟨after, rfl⟩, hlast, rfl⟩
      refine ⟨before, after, by rw [htext, List.append_assoc], ?_, by rw [keep_source]⟩
      exact fun hin => hlast (infix_tail_iff.mpr hin)
    · rintro ⟨before, after, htext, hlast, rfl⟩
      refine ⟨before, _, by rw [htext, List.append_assoc], List.prefix_append _ after, ?_,
        by rw [keep_source]⟩
      exact fun hin => hlast (infix_tail_iff.mp hin)
  | external =>
    rw [isKept_external_iff]
    constructor
    · rintro ⟨before, found, htext, hfirst, hlast, rfl⟩
      rw [keep, String.toList_ofList]
      exact ⟨before, htext, hfirst, hlast⟩
    · rintro ⟨before, htext, hfirst, hlast⟩
      exact ⟨before, kept.toList, htext, hfirst, hlast, String.ofList_toList.symm⟩

theorem not_standsIn_of_isKept_source (h : source.IsKept text kept) : ¬ source.StandsIn kept := by
  obtain ⟨before, skipped, -, -, -, hlast⟩ := h
  rintro ⟨start, rest, rfl⟩
  exact hlast ⟨skipped ++ start, rest, by simp only [String.append_assoc]⟩

theorem isKept_self_of_isKept_external (h : external.IsKept text kept) :
    external.IsKept kept kept := by
  obtain ⟨-, -, hfirst, hlast⟩ := h
  exact ⟨"", by simp, hfirst, hlast⟩

/-- A text is cut if and only if a marker stands in it, and what is kept is the only text that can
be: the end of it after the last source marker and one more character, or from the last external
marker on. It has no source marker left in it, or only the external marker that it begins with. -/
theorem cut?_specified (marker : Marker) (text : String) :
    (marker.cut? text = none ↔ ¬ marker.StandsIn text) ∧
    (∀ kept, marker.cut? text = some kept ↔ marker.IsKept text kept) ∧
    (∀ kept kept', marker.IsKept text kept → marker.IsKept text kept' → kept = kept') ∧
    (marker.cut? text).bind marker.cut? =
      match marker with
      | source => none
      | external => external.cut? text := by
  have hnone : ∀ text, marker.cut? text = none ↔ ¬ marker.StandsIn text := fun text => by
    rw [cut?_eq_none_iff, standsIn_iff]
  refine ⟨hnone text, fun kept => cut?_eq_some_iff_isKept, fun kept kept' h h' => ?_, ?_⟩
  · rw [← cut?_eq_some_iff_isKept] at h h'
    exact Option.some.inj (h.symm.trans h')
  · cases hcut : marker.cut? text with
    | none =>
      cases marker with
      | source => rfl
      | external => exact hcut.symm
    | some kept =>
      have hkept := cut?_eq_some_iff_isKept.mp hcut
      cases marker with
      | source => exact (hnone kept).mpr (not_standsIn_of_isKept_source hkept)
      | external =>
        rw [hcut]
        exact cut?_eq_some_iff_isKept.mpr (isKept_self_of_isKept_external hkept)

theorem cut?_specified_accented : source.IsKept "/srcs/srcé/x" "/x" ∧
    (∀ kept, source.IsKept "/srcs/srcé/x" kept → kept = "/x") ∧ source.cut? "/x" = none := by
  have hcut : source.cut? "/srcs/srcé/x" = some "/x" := by decide +kernel
  obtain ⟨-, hsome, hunique, hagain⟩ := cut?_specified .source "/srcs/srcé/x"
  have hkept := (hsome "/x").mp hcut
  rw [hcut] at hagain
  exact ⟨hkept, fun kept h => hunique kept "/x" h hkept, hagain⟩

/-- The segments that are kept, by those that come after the last marker. -/
def keptSegments : Marker → List (List Char) → List (List Char)
  | source, after => after
  | external, after => external.text.toList :: after

theorem keep_joinPieces (marker : Marker) (after : List (List Char)) :
    marker.keep (joinPieces '/' (marker.text.toList :: after)) =
      joinPieces '/' (marker.keptSegments after) := by
  cases marker with
  | source =>
    rw [joinPieces_cons_eq, keep_source, keptSegments]
    by_cases hafter : after = []
    · simp [hafter, joinPieces]
    · rw [if_neg hafter, List.tail_cons]
  | external => rfl

theorem cut?_of_segments {before after : List (List Char)}
    (h : ∀ segment ∈ pieces '/' text.toList,
      marker.text.toList <:+: segment → segment = marker.text.toList)
    (hsegments : pieces '/' text.toList = before ++ marker.text.toList :: after)
    (hlast : marker.text.toList ∉ after) :
    marker.cut? text = some (String.ofList (joinPieces '/' (marker.keptSegments after))) := by
  have hfound : ∃ start, text.toList = start ++ joinPieces '/' (marker.text.toList :: after) := by
    rw [← joinPieces_pieces '/' text.toList, hsegments]
    by_cases hbefore : before = []
    · exact ⟨[], by rw [hbefore]; rfl⟩
    · refine ⟨joinPieces '/' before ++ ['/'], ?_⟩
      rw [joinPieces_append hbefore (List.cons_ne_nil _ after), List.append_assoc]
      rfl
  obtain ⟨start, htext⟩ := hfound
  refine cut?_eq_some_iff.mpr ⟨start, _, htext, ?_, ?_, by rw [keep_joinPieces]⟩
  · rw [joinPieces_cons_eq]
    exact List.prefix_append _ _
  · rw [tail_joinPieces_cons marker.text_ne_nil,
      infix_joinPieces_iff marker.char_slash_not_mem marker.text_ne_nil]
    rintro ⟨segment, hm, hin⟩
    rcases List.mem_cons.mp hm with rfl | hm
    · -- the rest of a marker is too short for another one
      have hle := hin.length_le
      have hpos := List.length_pos_of_ne_nil marker.text_ne_nil
      rw [List.length_tail] at hle
      omega
    · have hsegment : segment ∈ pieces '/' text.toList := by simp [hsegments, hm]
      exact hlast (h segment hsegment hin ▸ hm)

/-- If markers stand in a text as whole segments only, then what is kept are the segments after the
last source marker, or those from the last external marker on. -/
theorem cut?_eq_joinPieces_iff
    (h : ∀ segment ∈ pieces '/' text.toList,
      marker.text.toList <:+: segment → segment = marker.text.toList) :
    (marker.cut? text = none ↔ marker.text.toList ∉ pieces '/' text.toList) ∧
    ∀ kept, marker.cut? text = some kept ↔ ∃ before after,
      pieces '/' text.toList = before ++ marker.text.toList :: after ∧
      marker.text.toList ∉ after ∧
      kept = String.ofList (joinPieces '/' (marker.keptSegments after)) := by
  have hnone : marker.cut? text = none ↔ marker.text.toList ∉ pieces '/' text.toList := by
    constructor
    · intro hcut hm
      obtain ⟨before, after, hsegments, hlast⟩ := exists_last_of_mem hm
      cases hcut.symm.trans (cut?_of_segments h hsegments hlast)
    · intro hm
      rw [cut?_eq_none_iff, infix_iff_exists_piece marker.char_slash_not_mem]
      rintro ⟨segment, hsegment, hin⟩
      exact hm (h segment hsegment hin ▸ hsegment)
  refine ⟨hnone, fun kept => ⟨fun hcut => ?_, ?_⟩⟩
  · have hm : marker.text.toList ∈ pieces '/' text.toList := by
      by_contra hm
      cases hcut.symm.trans (hnone.mpr hm)
    obtain ⟨before, after, hsegments, hlast⟩ := exists_last_of_mem hm
    have hkept := cut?_of_segments h hsegments hlast
    exact ⟨before, after, hsegments, hlast, Option.some.inj (hcut.symm.trans hkept)⟩
  · rintro ⟨before, after, hsegments, hlast, rfl⟩
    exact cut?_of_segments h hsegments hlast

theorem cut?_eq_joinPieces_doubled :
    (∀ segment ∈ pieces '/' "/src/a/src//é/".toList,
      source.text.toList <:+: segment → segment = source.text.toList) ∧
    source.cut? "/src/a/src//é/" = some "/é/" := by
  have h : ∀ segment ∈ pieces '/' "/src/a/src//é/".toList,
      source.text.toList <:+: segment → segment = source.text.toList := by decide +kernel
  have hsegments : pieces '/' "/src/a/src//é/".toList =
      [[], ['s', 'r', 'c'], ['a']] ++ source.text.toList :: [[], ['é'], []] := by decide +kernel
  exact ⟨h, ((cut?_eq_joinPieces_iff h).2 "/é/").mpr ⟨_, _, hsegments, by decide, by decide +kernel⟩⟩

end Marker

end MarkerCopy
