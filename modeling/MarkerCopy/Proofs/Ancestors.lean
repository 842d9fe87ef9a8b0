import MarkerCopy.Proofs.Growth
import MarkerCopy.Proofs.Spelling

/-! The paths above a path. Each is spelled as the beginning of the path, so a walk along the path
begins with a walk to each of them, and a path to a directory passes through directories only. -/

namespace MarkerCopy

theorem joinPieces_append {α : Type} {sep : α} {ps qs : List (List α)} (hp : ps ≠ [])
    (hq : qs ≠ []) :
    joinPieces sep (ps ++ qs) = joinPieces sep ps ++ sep :: joinPieces sep qs := by
  induction ps with
  | nil => exact absurd rfl hp
  | cons p ps ih =>
    by_cases hps : ps = []
    · subst hps
      simp [joinPieces_cons hq, joinPieces]
    · have happ : ps ++ qs ≠ [] := by simp [hps]
      rw [List.cons_append, joinPieces_cons happ, ih hps, joinPieces_cons hps]
      simp

namespace Path

theorem lead_prefix (p : Path) : p.lead <+: p.bytes := by
  unfold lead
  cases p.bytes with
  | nil => simp
  | cons b rest =>
    by_cases hs : b = slash
    · simp [hs]
    · by_cases hd : b = dot ∧ (rest = [] ∨ rest.head? = some slash)
      · simp only [if_neg hs, if_pos hd]
        simp [hd.1]
      · simp [hs, hd]

theorem lead_cases (p : Path) : p.lead = [] ∨ p.lead = [slash] ∨ p.lead = [dot] := by
  unfold lead
  split
  · exact .inl rfl
  · split
    · exact .inr (.inl rfl)
    · split
      · exact .inr (.inr rfl)
      · exact .inl rfl

theorem lead_append_body (p : Path) : p.lead ++ joinPieces slash p.body = p.bytes := by
  obtain ⟨rest, hr⟩ := p.lead_prefix
  have hbody : p.body = pieces slash rest := by
    rw [body, ← hr, List.drop_left]
  rw [hbody, joinPieces_pieces, hr]

theorem mem_above {lead : List UInt8} {reversed : List (List UInt8)} {q : Path}
    (h : q ∈ above lead reversed) :
    q.isEmpty ∨ ∃ last kept, last ≠ [] ∧ reversed = last ++ kept ∧
      q.bytes = lead ++ joinPieces slash kept.reverse := by
  induction reversed with
  | nil =>
    by_cases hl : lead = [dot]
    · have hq : q = ⟨[]⟩ := by simpa [above, hl] using h
      simp [hq, isEmpty]
    · simp [above, hl] at h
  | cons segment reversed ih =>
    -- what is higher up has lost this segment as well
    have habove : q ∈ above lead reversed → q.isEmpty ∨ ∃ last kept, last ≠ [] ∧
        segment :: reversed = last ++ kept ∧ q.bytes = lead ++ joinPieces slash kept.reverse := by
      intro hq
      rcases ih hq with he | ⟨last, kept, -, hr, hb⟩
      · exact .inl he
      · exact .inr ⟨segment :: last, kept, by simp, by simp [hr], hb⟩
    by_cases hi : isIdle segment
    · exact habove (by simpa [above, hi] using h)
    · have hq : q = upTo lead reversed ∨ q ∈ above lead reversed := by simpa [above, hi] using h
      rcases hq with rfl | hq
      · have hsplit : reversed.takeWhile isIdle ++ reversed.dropWhile isIdle = reversed :=
          List.takeWhile_append_dropWhile
        exact .inr ⟨segment :: reversed.takeWhile isIdle, reversed.dropWhile isIdle, by simp,
          by simp [hsplit], rfl⟩
      · exact habove hq

/-- A path above another one is spelled as its beginning, up to a slash. -/
theorem bytes_of_mem_ancestors {p q : Path} (h : q ∈ p.ancestors) :
    q.isEmpty ∨ q.bytes = p.lead ∨ ∃ rest, p.bytes = q.bytes ++ slash :: rest := by
  rcases mem_above h with he | ⟨last, kept, hlast, hr, hb⟩
  · exact .inl he
  · by_cases hk : kept = []
    · exact .inr (.inl (by simpa [hk, joinPieces] using hb))
    · have hbody : p.body = kept.reverse ++ last.reverse := by
        rw [← List.reverse_append, ← hr, List.reverse_reverse]
      have hjoin : joinPieces slash (kept.reverse ++ last.reverse) =
          joinPieces slash kept.reverse ++ slash :: joinPieces slash last.reverse :=
        joinPieces_append (by simpa using hk) (by simpa using hlast)
      refine .inr (.inr ⟨joinPieces slash last.reverse, ?_⟩)
      rw [← p.lead_append_body, hbody, hjoin, hb, List.append_assoc]

theorem prefix_of_mem_ancestors {p q : Path} (h : q ∈ p.ancestors) : q.bytes <+: p.bytes := by
  rcases bytes_of_mem_ancestors h with he | hl | ⟨rest, hr⟩
  · have hnil : q.bytes = [] := List.isEmpty_iff.mp he
    simp [hnil]
  · exact hl ▸ p.lead_prefix
  · exact ⟨_, hr.symm⟩

theorem steps_append (p : Path) (rest : List UInt8) :
    (Path.mk (p.bytes ++ slash :: rest)).steps = p.steps ++ (Path.mk rest).steps := by
  simp [steps, segments, pieces_append_cons]

theorem steps_ne_nil (p : Path) : p.steps ≠ [] := by
  simpa [steps, segments] using pieces_ne_nil slash p.bytes

theorem walk?_append {p q : Path} {cwd : WorkingDirectory} {w : Walk} {rest : List UInt8}
    (h : p.walk? cwd = some w) (hq : q.bytes = p.bytes ++ slash :: rest) (hnul : 0 ∉ q.bytes)
    (hlen : ¬ pathLimit ≤ q.bytes.length) :
    q.walk? cwd = some (w.append (Path.mk rest).steps) := by
  obtain ⟨-, hne, -⟩ := usable_of_walk? h
  obtain ⟨bytes⟩ := q
  obtain rfl : bytes = p.bytes ++ slash :: rest := hq
  have habs : (Path.mk (p.bytes ++ slash :: rest)).isAbsolute = p.isAbsolute := by
    cases hb : p.bytes with
    | nil => exact absurd hb hne
    | cons b bytes => simp [isAbsolute, hb]
  have husable : ¬ (0 ∈ p.bytes ++ slash :: rest ∨ (Path.mk (p.bytes ++ slash :: rest)).isEmpty ∨
      pathLimit ≤ (p.bytes ++ slash :: rest).length) := by
    have hempty : ¬ (Path.mk (p.bytes ++ slash :: rest)).isEmpty := by simp [isEmpty]
    simp only [not_or]
    exact ⟨hnul, hempty, hlen⟩
  unfold Path.walk? at h ⊢
  rw [if_neg husable, habs, steps_append]
  split at h
  · cases h
  · split at h
    · next ha =>
      cases h
      rw [if_pos ha]
      rfl
    · next ha =>
      obtain ⟨left, hr, rfl⟩ := Option.map_eq_some_iff.mp h
      rw [if_neg ha, emerge_append hr]
      rfl

end Path

namespace FileSystem

variable {fs : FileSystem} {cwd : WorkingDirectory} {p q : Path}

theorem reaches_of_lead {w : Walk} (hc : fs.isDirectory cwd.above) (hq : q.bytes = p.lead)
    (hw : q.walk? cwd = some w) : ∃ n loc, Reaches fs w ⟨n, loc, []⟩ ∧ fs.isDirectory loc := by
  obtain ⟨-, hne, -⟩ := Path.usable_of_walk? hw
  obtain ⟨bytes⟩ := q
  obtain rfl : bytes = p.lead := hq
  rcases p.lead_cases with hl | hl | hl
  · exact absurd hl hne
  · rw [hl] at hw
    have hroot : Path.walk? ⟨[Path.slash]⟩ cwd = some ⟨linkLimit, [], [.blank, .blank]⟩ := rfl
    obtain rfl := Option.some.inj (hroot.symm.trans hw)
    exact ⟨linkLimit, [], reaches_blanks fs.isDirectory_root (by simp), fs.isDirectory_root⟩
  · rw [hl] at hw
    have hdot : Path.walk? ⟨[Path.dot]⟩ cwd =
        (emerge cwd.removed [.here]).map (⟨linkLimit, cwd.above, ·⟩) := rfl
    rw [hdot] at hw
    cases hr : cwd.removed with
    | zero =>
      rw [hr] at hw
      cases hw
      exact ⟨linkLimit, cwd.above, .single (.idle rfl hc), hc⟩
    | succ removed =>
      rw [hr] at hw
      cases hw

/-- A path above one that leads to a directory leads to a directory too, if it is one that can be
walked. -/
theorem reaches_of_mem_ancestors {loc : Location} {w : Walk} (hc : fs.isDirectory cwd.above)
    (hl : fs.locate cwd .find p = .ok (.occupied loc)) (hq : q ∈ p.ancestors)
    (hw : q.walk? cwd = some w) : ∃ n loc, Reaches fs w ⟨n, loc, []⟩ ∧ fs.isDirectory loc := by
  obtain ⟨v, n, hv, hr⟩ := locate_find_eq_occupied_iff.mp hl
  obtain ⟨hnul, -, hlen⟩ := Path.usable_of_walk? hv
  rcases Path.bytes_of_mem_ancestors hq with he | hlead | ⟨rest, hrest⟩
  · obtain ⟨-, hne, -⟩ := Path.usable_of_walk? hw
    exact absurd (List.isEmpty_iff.mp he) hne
  · exact reaches_of_lead hc hlead hw
  · -- the walk to `q` is the beginning of the walk to `p`
    obtain rfl : w.append (Path.mk rest).steps = v :=
      Option.some.inj ((Path.walk?_append hw hrest hnul hlen).symm.trans hv)
    obtain ⟨⟨m, above, left⟩, hu, hwu, huv⟩ := hr.split rfl
    obtain rfl : left = [] := hu
    have hd : fs.isDirectory above :=
      huv.isDirectory_of_rest_ne_nil rfl (Path.steps_ne_nil ⟨rest⟩)
    exact ⟨m, above, hwu, hd⟩

end FileSystem

end MarkerCopy
