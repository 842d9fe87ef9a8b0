import MarkerCopy.Proofs.Containment
import MarkerCopy.Proofs.Descent

/-! When two paths are the same. Slashes that stand together count as one, and a single dot counts
only where it leads a path. -/

namespace MarkerCopy

open MarkerCopy.Path

namespace Path

/-- What leads a path, and after it the segments that name something. The same path is spelled
with the same components. -/
def components (p : Path) : List (List UInt8) :=
  p.lead :: p.body.filter fun segment => !isIdle segment

theorem segments_cases (p : Path) :
    p.segments = p.body ∨ p.segments = [] :: p.body ∨
      ∃ rest, p.segments = [dot] :: rest ∧ p.body = [] :: rest := by
  obtain ⟨_ | ⟨b, rest⟩⟩ := p
  · exact .inl rfl
  · by_cases hs : b = slash
    · subst hs
      exact .inr (.inl rfl)
    · by_cases hd : b = dot ∧ (rest = [] ∨ rest.head? = some slash)
      · obtain ⟨rfl, rfl | hr⟩ := hd
        · exact .inr (.inr ⟨[], rfl, rfl⟩)
        · obtain ⟨tail, rfl⟩ := List.head?_eq_some_iff.mp hr
          exact .inr (.inr ⟨pieces slash tail, rfl, rfl⟩)
      · have hlead : (Path.mk (b :: rest)).lead = [] := by simp [lead, hs, hd]
        rw [body, hlead]
        exact .inl rfl

/-- Nothing but idle segments comes after the last name. -/
theorem segments_of_fileName? {p last : Path} (h : p.fileName? = some last) :
    ∃ init tail, p.segments = init ++ last.bytes :: tail ∧ (∀ segment ∈ tail, isIdle segment) ∧
      ¬ isIdle last.bytes := by
  have hidle : ¬ isIdle last.bytes := by
    obtain ⟨-, hparts, -⟩ := name_of_fileName? h
    have hm : last.bytes ∈ last.parts := hparts ▸ List.mem_singleton_self _
    simpa using (List.mem_filter.mp hm).2
  obtain ⟨init, tail, hbody, htail⟩ : ∃ init tail, p.body = init ++ last.bytes :: tail ∧
      ∀ segment ∈ tail, isIdle segment := by
    unfold fileName? at h
    split at h
    · cases h
    · next segment rest hd =>
      have hsplit := List.takeWhile_append_dropWhile (p := isIdle) (l := p.body.reverse)
      rw [hd] at hsplit
      split at h
      · cases h
      · cases h
        refine ⟨rest.reverse, (p.body.reverse.takeWhile isIdle).reverse, ?_, ?_⟩
        · simpa using congrArg List.reverse hsplit.symm
        · exact fun segment hm => List.mem_takeWhile_imp (List.mem_reverse.mp hm)
  rcases p.segments_cases with hs | hs | ⟨rest, hs, hb⟩
  · exact ⟨init, tail, hs.trans hbody, htail, hidle⟩
  · exact ⟨[] :: init, tail, by rw [hs, hbody]; rfl, htail, hidle⟩
  · rw [hb] at hbody
    cases init with
    | nil =>
      have hempty : last.bytes = [] := (List.cons.inj hbody).1.symm
      rw [hempty] at hidle
      exact absurd rfl hidle
    | cons first init =>
      refine ⟨[dot] :: init, tail, ?_, htail, hidle⟩
      rw [hs, (List.cons.inj hbody).2]
      rfl

theorem components_eq (p : Path) : p.components = p.lead :: p.parts := by
  have hdot : isIdle [dot] := by decide
  have hempty : isIdle [] := by decide
  unfold components parts
  rcases p.segments_cases with hs | hs | ⟨rest, hs, hb⟩
  · rw [hs]
  · simp [hs, hempty]
  · simp [hs, hb, hdot, hempty]

theorem components_eq_iff {p q : Path} :
    p.components = q.components ↔ p.lead = q.lead ∧ p.parts = q.parts := by
  rw [components_eq, components_eq, List.cons.injEq]

theorem isAbsolute_iff_lead {p : Path} : p.isAbsolute ↔ p.lead = [slash] := by
  obtain ⟨_ | ⟨b, rest⟩⟩ := p
  · simp [isAbsolute, lead]
  · have hdot : dot ≠ slash := by decide
    by_cases hs : b = slash
    · simp [isAbsolute, lead, hs]
    · simp only [isAbsolute, lead, if_neg hs]
      split <;> simp [hs, hdot]

theorem lead_append_of_slash {xs : List UInt8} (h : xs.getLast? = some slash)
    (rest : List UInt8) : lead ⟨xs ++ rest⟩ = lead ⟨xs⟩ := by
  obtain ⟨start, rfl⟩ := List.getLast?_eq_some_iff.mp h
  by_cases hs : start = []
  · subst hs
    rfl
  · rw [List.append_assoc, List.singleton_append]
    calc
      lead ⟨start ++ slash :: rest⟩ = lead ⟨start⟩ := lead_append_slash (p := ⟨start⟩) hs rest
      _ = lead ⟨start ++ [slash]⟩ := (lead_append_slash (p := ⟨start⟩) hs []).symm

theorem lead_join {dir name : Path} (hd : ¬ dir.isEmpty) (hn : ¬ name.isAbsolute) :
    (dir.join name).lead = dir.lead := by
  unfold join
  rw [if_neg hn]
  split
  · next h =>
    have hslash : dir.bytes.getLast? = some slash := by simpa [hd] using h
    exact lead_append_of_slash hslash name.bytes
  · exact lead_append_slash (fun he => hd (List.isEmpty_iff.mpr he)) name.bytes

theorem components_join {dir name : Path} (hd : ¬ dir.isEmpty) (hn : ¬ name.isAbsolute) :
    (dir.join name).components = dir.lead :: (dir.parts ++ name.parts) := by
  rw [components_eq, lead_join hd hn, parts_join hd hn]

end Path

theorem Location.parts_relativeText (loc : Location) :
    (Path.mk loc.relativeText).parts = (loc.map Name.bytes).reverse := by
  by_cases h : loc = []
  · subst h
    rfl
  · rw [parts, segments_relativeText h, List.filter_eq_self]
    intro segment hm
    obtain ⟨name, -, rfl⟩ := List.mem_map.mp (List.mem_reverse.mp hm)
    simp [not_isIdle name]

theorem lead_outputPath {outdir : String} (h : outdir ≠ "") (relativeDir : String) :
    (outputPath outdir relativeDir).lead = (Path.ofString outdir).lead := by
  obtain ⟨root, hslash, hroot, hbytes⟩ := outputPath_eq outdir relativeDir
  have hne : (Path.ofString outdir).bytes ≠ [] := fun he =>
    not_isEmpty_ofString h (List.isEmpty_iff.mpr he)
  calc
    (outputPath outdir relativeDir).lead = lead ⟨root ++ (Path.ofString relativeDir).bytes⟩ := by
      rw [← hbytes]
    _ = lead ⟨root⟩ := lead_append_of_slash hslash _
    _ = (Path.ofString outdir).lead := by
      rcases hroot with rfl | rfl
      · rfl
      · exact lead_append_slash hne []

end MarkerCopy
