import MarkerCopy.Proofs.Completion

/-! The canonical paths of what is below a directory. They go on from the canonical path of the
directory, however that is spelled, as long as they are not too long. -/

namespace MarkerCopy

open FileSystem

namespace Location

theorem path_eq_below {loc : Location} (h : loc ≠ []) : loc.path = Path.below [Path.slash] loc := by
  rw [path, if_neg h, text_eq_cons h]
  rfl

theorem names_path (loc : Location) : loc.path.names = loc.reverse := by
  by_cases h : loc = []
  · subst h
    rfl
  · rw [path_eq_below h]
    exact names_slash_relativeText loc

@[simp] theorem path_inj {loc loc' : Location} : loc.path = loc'.path ↔ loc = loc' := by
  constructor
  · intro h
    have hnames := congrArg Path.names h
    rwa [names_path, names_path, List.reverse_inj] at hnames
  · rintro rfl
    rfl

theorem path_append {below : Location} (h : below ≠ []) (dir : Location) :
    path (below ++ dir) = ⟨dir.text ++ Path.slash :: below.relativeText⟩ := by
  rw [path, if_neg (by simp [h]), text_append, text_eq_cons h]

end Location

namespace Path

/-- However the slashes at the end of `root` came about, what follows them comes in the place of
idle segments. -/
theorem steps_append_of_slashes {p : Path} {root : List UInt8} {k : Nat}
    (h : root = p.bytes ++ List.replicate k slash) (hr : root.getLast? = some slash) :
    ∃ steps tail j, p.steps = steps ++ tail ∧ (∀ step ∈ tail, step.isIdle) ∧
      ∀ rest, (Path.mk (root ++ rest)).steps =
        steps ++ (List.replicate j .blank ++ (Path.mk rest).steps) := by
  obtain ⟨bytes⟩ := p
  subst h
  cases k with
  | zero =>
    rw [List.replicate_zero, List.append_nil] at hr
    obtain ⟨start, rfl⟩ := List.getLast?_eq_some_iff.mp hr
    refine ⟨(Path.mk start).steps, [.blank], 0, steps_append ⟨start⟩ [], by simp [Step.isIdle], ?_⟩
    intro rest
    simpa using steps_append ⟨start⟩ rest
  | succ k =>
    refine ⟨(Path.mk bytes).steps, [], k, by simp, by simp, ?_⟩
    intro rest
    rw [← steps_slashes_append, ← steps_append, List.replicate_succ, List.append_assoc,
      List.cons_append]

theorem fileName?_of_last {p : Path} {segment : List UInt8}
    (hp : ∃ start, p.bytes = start ++ slash :: segment) (hs : slash ∉ segment)
    (hi : ¬ isIdle segment) (hd : segment ≠ [dot, dot]) : p.fileName? = some ⟨segment⟩ := by
  obtain ⟨init, hinit⟩ := body_of_last hp hs
  rw [fileName?, hinit, List.reverse_append, List.reverse_singleton, List.singleton_append,
    List.dropWhile_cons_of_neg hi]
  simp only [if_neg hd]

theorem fileName?_below {root : List UInt8} (hr : root.getLast? = some slash) (name : Name)
    (dir : Location) : (below root (name :: dir)).fileName? = some ⟨name.bytes⟩ :=
  fileName?_of_last (exists_last_of_below hr name dir) name.valid.2.2.2.1
    (Location.not_isIdle name) name.valid.2.2.1

end Path

theorem Location.fileName?_path (name : Name) (dir : Location) :
    (path (name :: dir)).fileName? = some ⟨name.bytes⟩ := by
  rw [path_eq_below (List.cons_ne_nil name dir)]
  exact Path.fileName?_below rfl name dir

namespace FileSystem

variable {fs : FileSystem} {cwd : WorkingDirectory} {base dir : Location}

/-- The canonical path of what is below a directory goes on from the canonical path of that. -/
theorem canonical_below {p : Path} {root : List UInt8} {k : Nat}
    (hp : fs.canonical cwd p = .ok base.path)
    (hroot : root = p.bytes ++ List.replicate k Path.slash)
    (hr : root.getLast? = some Path.slash) (hne : dir ≠ []) (hs : fs.Stands (dir ++ base))
    (hlen : (Location.path (dir ++ base)).bytes.length < pathLimit) :
    fs.canonical cwd (Path.below root dir) = .ok (Location.path (dir ++ base)) := by
  obtain ⟨hnul, hempty, hremoved, loc, hf, hloc⟩ := canonical_eq_ok_iff.mp hp
  obtain rfl : base = loc := Location.path_inj.mp hloc
  obtain ⟨steps, tail, j, hsteps, htail, hbelow⟩ := Path.steps_append_of_slashes hroot hr
  obtain ⟨first, others, hfirst⟩ : ∃ first others, dir.reverse = first :: others :=
    List.exists_cons_of_ne_nil (by simpa using hne)
  have htext : (Location.text (dir ++ base)).length < pathLimit := by
    rwa [Location.path, if_neg (by simp [hne])] at hlen
  have hgo : fs.advanceCanonically base (List.replicate j Step.blank ++ dir.reverse.map .name) =
      .ok (.done (dir ++ base)) := by
    have hdown : fs.advanceCanonically base (dir.reverse.map .name ++ []) =
        fs.advanceCanonically (dir ++ base) [] := advanceCanonically_down hs htext rfl
    rw [List.append_nil] at hdown
    rw [advanceCanonically_blanks, hdown]
    rfl
  have hname : (List.replicate j Step.blank ++ dir.reverse.map Step.name).dropWhile Step.isIdle =
      .name first :: others.map .name := by
    rw [List.dropWhile_append, List.dropWhile_replicate, hfirst]
    rfl
  have habs : (Path.below root dir).isAbsolute = p.isAbsolute := by
    obtain ⟨_ | ⟨b, bytes⟩⟩ := p
    · exact absurd rfl hempty
    · simp [Path.below, hroot, Path.isAbsolute]
  refine canonical_eq_ok_iff.mpr ⟨?_, ?_, ?_, dir ++ base, ?_, rfl⟩
  · have hslash : (0 : UInt8) ≠ Path.slash := by decide
    simp [Path.below, hroot, hnul, hslash, dir.not_mem_zero_relativeText]
  · obtain ⟨start, hstart⟩ := List.getLast?_eq_some_iff.mp hr
    simp [Path.isEmpty, Path.below, hstart]
  · rwa [habs]
  · rw [habs, Path.below, hbelow, Location.steps_relativeText hne]
    rw [hsteps] at hf
    exact follow_append hname htail hgo hf

theorem canonical_of_locate {p q : Path} (h : fs.canonical cwd p = .ok q)
    (hc : fs.isDirectory cwd.above) (hl : fs.locate cwd .find p = .ok (.occupied base)) :
    q = base.path := by
  obtain ⟨w, n, hw, -⟩ := locate_find_eq_occupied_iff.mp hl
  obtain ⟨loc, rfl, hloc⟩ :=
    locate_of_canonical h hc (Nat.not_le.mp (Path.usable_of_walk? hw).2.2)
  cases hl.symm.trans hloc
  rfl

end FileSystem

end MarkerCopy
