import MarkerCopy.Disk
import MarkerCopy.Proofs.Growth

/-! What the operations that change files do. Each changes the entry at one location, and the path
it was given leads there afterwards. -/

namespace MarkerCopy.FileSystem

variable {fs gs : FileSystem} {cwd : WorkingDirectory} {p : Path} {loc : Location}

/-- The last name of a path that can be written to is a name of the path itself or of a link, but
never followed by a slash. -/
theorem reaches_of_writable (h : fs.writable cwd p = .ok loc) :
    ∃ w n, p.walk? cwd = some w ∧ (Reaches fs w ⟨n, loc, []⟩ ∧ ¬ fs.isDirectory loc ∨
      ∃ name dir, loc = name :: dir ∧ Reaches fs w ⟨n, dir, [.name name]⟩ ∧
        fs.isDirectory dir ∧ fs.get? loc = none) := by
  unfold writable at h
  split at h
  · cases h
  · next found hl =>
    split at h
    · cases h
    · next hd =>
      cases h
      rcases arrives_of_locate hl with ⟨w, hw, hr⟩ | ⟨_, hp, -⟩
      · obtain ⟨n, hr⟩ := hr (by decide)
        exact ⟨w, n, hw, .inl ⟨hr, hd⟩⟩
      · cases hp
  · next dir name hl =>
    cases h
    rcases arrives_of_locate hl with ⟨w, hw, -, n, rest, he, hr, hd, hn⟩ | ⟨_, hp, -⟩
    · have hrest : rest = [] := by simpa [Purpose.endsBefore] using he
      subst hrest
      exact ⟨w, n, hw, .inr ⟨name, dir, rfl, hr, hd, hn⟩⟩
    · cases hp
  · cases h

theorem isFile_or_free_of_writable (h : fs.writable cwd p = .ok loc)
    (hc : fs.isDirectory cwd.above) : fs.isFile loc ∨ fs.get? loc = none := by
  obtain ⟨w, n, hw, ⟨hr, hd⟩ | ⟨name, dir, -, -, -, hn⟩⟩ := reaches_of_writable h
  · have hw' := stands_of_isDirectory (Path.isDirectory_of_walk? hw hc)
    exact .inl ((hr.stands hw').isFile hd)
  · exact .inr hn

theorem admits_of_writable (h : fs.writable cwd p = .ok loc) (hc : fs.isDirectory cwd.above) :
    fs.Admits loc := by
  obtain ⟨w, n, hw, ⟨hr, hd⟩ | ⟨name, dir, rfl, -, hd, hn⟩⟩ := reaches_of_writable h
  · have hw' := stands_of_isDirectory (Path.isDirectory_of_walk? hw hc)
    exact admits_of_isFile ((hr.stands hw').isFile hd)
  · exact admits_of_get?_eq_none hd hn

theorem locate_of_writable (h : fs.writable cwd p = .ok loc) (hg : fs.Grows gs)
    (hf : gs.isFile loc) : gs.locate cwd .find p = .ok (.occupied loc) := by
  obtain ⟨w, n, hw, ⟨hr, -⟩ | ⟨name, dir, rfl, hr, hd, -⟩⟩ := reaches_of_writable h
  · exact locate_find_eq_occupied_iff.mpr ⟨w, n, hw, hr.mono hg⟩
  · obtain ⟨content, permissions, he⟩ := isFile_iff.mp hf
    have hs : Stride gs ⟨n, dir, [.name name]⟩ ⟨n, name :: dir, []⟩ :=
      .enter (hg.isDirectory hd) he (by simp [Entry.isLink])
    exact locate_find_eq_occupied_iff.mpr ⟨w, n, hw, (hr.mono hg).tail hs⟩

theorem writable_of_locate (h : fs.locate cwd .find p = .ok (.occupied loc))
    (hf : ¬ fs.isDirectory loc) : fs.writable cwd p = .ok loc := by
  obtain ⟨w, n, hw, hr⟩ := locate_find_eq_occupied_iff.mp h
  have hend : w.finish fs .write = .ok (.occupied loc) :=
    (hr.finish_write rfl hf).trans (Walk.finish_nil fs .write n loc)
  have hl : fs.locate cwd .write p = .ok (.occupied loc) := by
    rw [locate_of_walk? hw, hend]
    rfl
  simp [writable, hl, hf]

theorem kind?_eq_directory (h : fs.locate cwd .find p = .ok (.occupied loc))
    (hd : fs.isDirectory loc) : fs.kind? cwd p = some .directory := by
  obtain ⟨permissions, hg⟩ := isDirectory_iff.mp hd
  simp [kind?, h, hg]

theorem kind?_eq_file (h : fs.locate cwd .find p = .ok (.occupied loc)) (hf : fs.isFile loc) :
    fs.kind? cwd p = some .file := by
  obtain ⟨content, permissions, hg⟩ := isFile_iff.mp hf
  simp [kind?, h, hg]

theorem kind?_cases (fs : FileSystem) (p : Path) (hc : fs.isDirectory cwd.above) :
    (∃ place, fs.locate cwd .find p = .ok place) ∧
      (fs.kind? cwd p = some .file ∨ fs.kind? cwd p = some .directory) ∨
    (∀ place, fs.locate cwd .find p ≠ .ok place) ∧ fs.kind? cwd p = none := by
  cases hl : fs.locate cwd .find p with
  | error cause => exact .inr ⟨by simp, by simp [kind?, hl]⟩
  | ok place =>
    refine .inl ⟨⟨place, rfl⟩, ?_⟩
    rcases locate_find_cases hl with ⟨loc, rfl⟩ | ⟨dir, rfl, -⟩
    · by_cases hd : fs.isDirectory loc
      · exact .inr (kind?_eq_directory hl hd)
      · exact .inl (kind?_eq_file hl ((stands_of_locate hl hc).isFile hd))
    · exact .inr (by simp [kind?, hl])

theorem kind?_ne_other (fs : FileSystem) (p : Path) (hc : fs.isDirectory cwd.above) :
    fs.kind? cwd p ≠ some .other := by
  rcases kind?_cases fs p hc with ⟨-, hk | hk⟩ | ⟨-, hk⟩
  · simp [hk]
  · simp [hk]
  · simp [hk]

theorem kind?_directory_cases (h : fs.kind? cwd p = some .directory) :
    (∃ loc, fs.locate cwd .find p = .ok (.occupied loc) ∧ fs.isDirectory loc) ∨
      ∀ gs : FileSystem, gs.kind? cwd p = some .directory := by
  unfold kind? at h
  split at h
  · next loc hl =>
    refine .inl ⟨loc, hl, ?_⟩
    split at h
    · cases h
    · next permissions he => exact isDirectory_iff.mpr ⟨permissions, he⟩
    · cases h
    · cases h
  · next dir hl =>
    rcases locate_find_cases hl with ⟨loc, hp⟩ | ⟨dir', -, hall⟩
    · cases hp
    · exact .inr fun gs => by simp [kind?, hall gs]
  · cases h

theorem kind?_directory_mono (h : fs.kind? cwd p = some .directory) (hg : fs.Grows gs) :
    gs.kind? cwd p = some .directory := by
  rcases kind?_directory_cases h with ⟨loc, hl, hd⟩ | hall
  · exact kind?_eq_directory (locate_find_mono hl hg) (hg.isDirectory hd)
  · exact hall gs

/-- `gs` is `fs` with a new directory, made under the last name of a path that may be spelled with
slashes at its end. -/
structure Made (fs gs : FileSystem) (cwd : WorkingDirectory) (p : Path) (dir : Location)
    (name : Name) : Prop where
  parent : fs.isDirectory dir
  free : fs.get? (name :: dir) = none
  made : gs.get? (name :: dir) = some (.directory .forDirectory)
  others : ∀ other, name :: dir ≠ other → gs.get? other = fs.get? other
  reached : ∃ w n rest, p.walk? cwd = some w ∧ Reaches fs w ⟨n, dir, .name name :: rest⟩ ∧
    ∀ step ∈ rest, step = .blank

theorem Made.adds {name : Name} {dir : Location} (h : Made fs gs cwd p dir name) :
    fs.AddsDirectories gs := by
  intro other
  by_cases he : name :: dir = other
  · subst he
    exact .inr ⟨h.free, h.made⟩
  · exact .inl (h.others other he)

theorem Made.isDirectory {name : Name} {dir : Location} (h : Made fs gs cwd p dir name) :
    gs.isDirectory (name :: dir) :=
  isDirectory_iff.mpr ⟨_, h.made⟩

theorem Made.locate {name : Name} {dir : Location} (h : Made fs gs cwd p dir name) :
    gs.locate cwd .find p = .ok (.occupied (name :: dir)) := by
  obtain ⟨w, n, rest, hw, hr, hb⟩ := h.reached
  have hg := h.adds.grows
  have hs : Stride gs ⟨n, dir, .name name :: rest⟩ ⟨n, name :: dir, rest⟩ :=
    .enter (hg.isDirectory h.parent) h.made (by simp [Entry.isLink])
  -- the slashes at the end lead on only now
  have hblanks : Reaches gs ⟨n, name :: dir, rest⟩ ⟨n, name :: dir, []⟩ :=
    reaches_blanks h.isDirectory hb
  exact locate_find_eq_occupied_iff.mpr ⟨w, n, hw, ((hr.mono hg).tail hs).trans hblanks⟩

theorem Made.kind? {name : Name} {dir : Location} (h : Made fs gs cwd p dir name) :
    gs.kind? cwd p = some .directory :=
  kind?_eq_directory h.locate h.isDirectory

theorem made_of_locate {name : Name} {dir : Location}
    (h : fs.locate cwd .make p = .ok (.vacant dir name)) :
    Made fs (fs.put (name :: dir) (.directory .forDirectory)) cwd p dir name := by
  rcases arrives_of_locate h with ⟨w, hw, -, n, rest, he, hr, hd, hn⟩ | ⟨_, hp, -⟩
  · have hget := get?_put (admits_of_get?_eq_none hd hn) (.directory .forDirectory)
    have hb : ∀ step ∈ rest, step = .blank := by
      cases rest with
      | nil => simp
      | cons step rest => simpa [Purpose.endsBefore] using he
    refine ⟨hd, hn, ?_, ?_, w, n, rest, hw, hr, hb⟩
    · rw [hget, if_pos rfl]
    · intro other hne
      rw [hget, if_neg hne]
  · cases hp

theorem makeDirectory_cases (fs : FileSystem) (cwd : WorkingDirectory) (p : Path) :
    (∃ gs dir name, fs.makeDirectory cwd p = (.ok (), gs) ∧ Made fs gs cwd p dir name) ∨
    ∃ cause, fs.makeDirectory cwd p = (.error cause, fs) := by
  unfold makeDirectory make
  split
  · exact .inr ⟨_, rfl⟩
  · next dir name hl => exact .inl ⟨_, dir, name, rfl, made_of_locate hl⟩
  · exact .inr ⟨_, rfl⟩

theorem readable_eq_ok {permissions : Permissions}
    (h : fs.readable cwd p = .ok (loc, permissions)) :
    fs.locate cwd .find p = .ok (.occupied loc) ∧
      ∃ content, fs.get? loc = some (.file content permissions) := by
  unfold readable at h
  split at h
  · cases h
  · next found hl =>
    split at h
    · next content permissions' hg =>
      cases h
      exact ⟨hl, content, hg⟩
    · cases h
  · cases h

theorem readable_of_locate {content : ByteArray} {permissions : Permissions}
    (h : fs.locate cwd .find p = .ok (.occupied loc))
    (hg : fs.get? loc = some (.file content permissions)) :
    fs.readable cwd p = .ok (loc, permissions) := by
  simp [readable, h, hg]

/-- `gs` is `fs` after a copy of the file at `src`, which has the given content, to `loc`. -/
structure Copied (fs gs : FileSystem) (src loc : Location) (content copied : ByteArray)
    (permissions : Permissions) : Prop where
  read : fs.get? src = some (.file content permissions)
  /-- What the target was before does not matter, unless it is the file that is copied. -/
  copied_eq : copied = if loc = src then ByteArray.empty else content
  written : gs.get? loc = some (.file copied permissions)
  others : ∀ other, loc ≠ other → gs.get? other = fs.get? other

theorem Copied.grows {src : Location} {content copied : ByteArray} {permissions : Permissions}
    (h : Copied fs gs src loc content copied permissions)
    (hl : fs.isFile loc ∨ fs.get? loc = none) : fs.Grows gs := by
  intro other old ho
  by_cases he : loc = other
  · subst he
    refine ⟨_, h.written, .inr ⟨?_, rfl⟩⟩
    rcases hl with hf | hn
    · simpa [isFile, ho] using hf
    · simp [ho] at hn
  · exact ⟨old, (h.others other he).trans ho, .inl rfl⟩

theorem content_put_file {src : Location} {content : ByteArray} {permissions : Permissions}
    (ha : fs.Admits loc) (hs : fs.get? src = some (.file content permissions)) :
    (fs.put loc (.file ByteArray.empty permissions)).content src =
      if loc = src then ByteArray.empty else content := by
  unfold FileSystem.content
  rw [get?_put ha]
  by_cases he : loc = src
  · simp only [if_pos he]
  · simp only [if_neg he, hs]

/-- A file is copied, or nothing is done. -/
theorem copyFile_cases (hc : fs.isDirectory cwd.above) (source target : Path) :
    (∃ src loc content copied permissions gs,
      fs.copyFile cwd source target = (.ok copied.size, gs) ∧
      fs.locate cwd .find source = .ok (.occupied src) ∧ fs.writable cwd target = .ok loc ∧
      Copied fs gs src loc content copied permissions) ∨
    ∃ cause, fs.copyFile cwd source target = (.error cause, fs) := by
  unfold copyFile
  split
  · next cause hr => exact .inr ⟨cause, rfl⟩
  · next src permissions hr =>
    split
    · next cause hw => exact .inr ⟨cause, rfl⟩
    · next loc hw =>
      obtain ⟨hl, content, hs⟩ := readable_eq_ok hr
      have ha := admits_of_writable hw hc
      have hopened : (fs.put loc (.file ByteArray.empty permissions)).Admits loc := by
        apply admits_of_isFile
        exact isFile_iff.mpr ⟨_, _, by rw [get?_put ha, if_pos rfl]⟩
      refine .inl ⟨src, loc, content, _, permissions, _, rfl, hl, hw, hs,
        content_put_file ha hs, ?_, ?_⟩
      · rw [get?_put hopened, if_pos rfl]
      · intro other he
        rw [get?_put hopened, if_neg he, get?_put ha, if_neg he]

theorem copyFile_of_writable {source target : Path} {src : Location} {content : ByteArray}
    {permissions : Permissions} (hc : fs.isDirectory cwd.above)
    (hs : fs.locate cwd .find source = .ok (.occupied src))
    (hf : fs.get? src = some (.file content permissions))
    (hw : fs.writable cwd target = .ok loc) :
    ∃ copied gs, fs.copyFile cwd source target = (.ok copied.size, gs) ∧
      Copied fs gs src loc content copied permissions := by
  rcases copyFile_cases hc source target with
    ⟨src', loc', content', copied, permissions', gs, hcopy, hs', hw', hcop⟩ | ⟨cause, hcopy⟩
  · obtain rfl : src = src' := by simpa [hs] using hs'
    obtain rfl : loc = loc' := by simpa [hw] using hw'
    cases hf.symm.trans hcop.read
    exact ⟨copied, gs, hcopy, hcop⟩
  · simp [copyFile, readable_of_locate hs hf, hw] at hcopy

end MarkerCopy.FileSystem
