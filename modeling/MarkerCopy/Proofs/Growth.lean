import MarkerCopy.FileSystem.Change
import MarkerCopy.Proofs.Reaching

/-! File systems that grow: entries are added and files are rewritten, but directories and links
stay. Whatever a path means, it means the same after any growth. A process is always in a place
from which the way up leads to a directory of the tree, since a removal leaves it in such a place
and growth takes nothing away. -/

namespace MarkerCopy

namespace FileSystem

/-- `gs` has the directories and links of `fs`, and a file wherever `fs` has one. -/
def Grows (fs gs : FileSystem) : Prop :=
  ∀ loc old, fs.get? loc = some old →
    ∃ new, gs.get? loc = some new ∧ (new = old ∨ old.isFile ∧ new.isFile)

/-- `gs` is `fs` with new directories. -/
def AddsDirectories (fs gs : FileSystem) : Prop :=
  ∀ loc, gs.get? loc = fs.get? loc ∨
    fs.get? loc = none ∧ gs.get? loc = some (.directory .forDirectory)

def Stands (fs : FileSystem) (loc : Location) : Prop :=
  ∃ entry, fs.get? loc = some entry ∧ ¬ entry.isLink

theorem isDirectory_iff {fs : FileSystem} {loc : Location} :
    fs.isDirectory loc ↔ ∃ permissions, fs.get? loc = some (.directory permissions) := by
  unfold isDirectory
  cases hg : fs.get? loc with
  | none => simp
  | some entry => cases entry <;> simp [Entry.isDirectory]

theorem isFile_iff {fs : FileSystem} {loc : Location} :
    fs.isFile loc ↔ ∃ content permissions, fs.get? loc = some (.file content permissions) := by
  unfold isFile
  cases hg : fs.get? loc with
  | none => simp
  | some entry => cases entry <;> simp [Entry.isFile]

theorem not_isDirectory_of_isFile {fs : FileSystem} {loc : Location} (h : fs.isFile loc) :
    ¬ fs.isDirectory loc := by
  obtain ⟨content, permissions, hg⟩ := isFile_iff.mp h
  simp [isDirectory, hg, Entry.isDirectory]

theorem Grows.refl (fs : FileSystem) : fs.Grows fs :=
  fun _ old h => ⟨old, h, .inl rfl⟩

theorem Grows.trans {fs gs hs : FileSystem} (h : fs.Grows gs) (h' : gs.Grows hs) :
    fs.Grows hs := by
  intro loc old ho
  obtain ⟨mid, hm, hom⟩ := h loc old ho
  obtain ⟨new, hn, hmn⟩ := h' loc mid hm
  refine ⟨new, hn, ?_⟩
  rcases hom with rfl | ⟨ho, hm⟩
  · exact hmn
  · rcases hmn with rfl | ⟨_, hn⟩
    · exact .inr ⟨ho, hm⟩
    · exact .inr ⟨ho, hn⟩

theorem Grows.get?_of_not_isFile {fs gs : FileSystem} (h : fs.Grows gs) {loc : Location}
    {entry : Entry} (hg : fs.get? loc = some entry) (hf : ¬ entry.isFile) :
    gs.get? loc = some entry := by
  obtain ⟨new, hn, rfl | ⟨hold, _⟩⟩ := h loc entry hg
  · exact hn
  · exact absurd hold hf

theorem Grows.isDirectory {fs gs : FileSystem} (h : fs.Grows gs) {loc : Location}
    (hd : fs.isDirectory loc) : gs.isDirectory loc := by
  obtain ⟨permissions, hg⟩ := isDirectory_iff.mp hd
  exact isDirectory_iff.mpr ⟨permissions, h.get?_of_not_isFile hg (by simp [Entry.isFile])⟩

theorem Grows.get?_of_not_isLink {fs gs : FileSystem} (h : fs.Grows gs) {loc : Location}
    {entry : Entry} (hg : fs.get? loc = some entry) (hl : ¬ entry.isLink) :
    ∃ new, gs.get? loc = some new ∧ ¬ new.isLink ∧ new.isDirectory = entry.isDirectory := by
  obtain ⟨new, hn, rfl | ⟨hold, hnew⟩⟩ := h loc entry hg
  · exact ⟨new, hn, hl, rfl⟩
  · refine ⟨new, hn, ?_, ?_⟩
    · cases new <;> simp_all [Entry.isFile, Entry.isLink]
    · cases entry <;> cases new <;> simp_all [Entry.isFile, Entry.isDirectory]

theorem Grows.isFile {fs gs : FileSystem} (h : fs.Grows gs) {loc : Location}
    (hf : fs.isFile loc) : gs.isFile loc := by
  obtain ⟨content, permissions, hg⟩ := isFile_iff.mp hf
  obtain ⟨new, hn, rfl | ⟨-, hnew⟩⟩ := h loc _ hg
  · exact isFile_iff.mpr ⟨content, permissions, hn⟩
  · simpa [FileSystem.isFile, hn] using hnew

theorem AddsDirectories.refl (fs : FileSystem) : fs.AddsDirectories fs :=
  fun _ => .inl rfl

theorem AddsDirectories.trans {fs gs hs : FileSystem} (h : fs.AddsDirectories gs)
    (h' : gs.AddsDirectories hs) : fs.AddsDirectories hs := by
  intro loc
  rcases h loc with he | ⟨hn, hd⟩
  · simpa only [he] using h' loc
  · rcases h' loc with he' | ⟨hn', _⟩
    · exact .inr ⟨hn, he'.trans hd⟩
    · simp [hd] at hn'

theorem AddsDirectories.get?_eq {fs gs : FileSystem} (h : fs.AddsDirectories gs)
    {loc : Location} {entry : Entry} (hg : fs.get? loc = some entry) :
    gs.get? loc = some entry := by
  rcases h loc with he | ⟨hn, _⟩
  · exact he.trans hg
  · simp [hg] at hn

theorem AddsDirectories.get?_file {fs gs : FileSystem} (h : fs.AddsDirectories gs)
    {loc : Location} {content : ByteArray} {permissions : Permissions}
    (hg : gs.get? loc = some (.file content permissions)) :
    fs.get? loc = some (.file content permissions) := by
  rcases h loc with he | ⟨_, hd⟩
  · exact he.symm.trans hg
  · simp [hd] at hg

theorem AddsDirectories.grows {fs gs : FileSystem} (h : fs.AddsDirectories gs) : fs.Grows gs :=
  fun _ old hg => ⟨old, h.get?_eq hg, .inl rfl⟩

theorem admits_of_get?_eq_none {fs : FileSystem} {name : Name} {dir : Location}
    (hd : fs.isDirectory dir) (hn : fs.get? (name :: dir) = none) : fs.Admits (name :: dir) := by
  have hnd : ¬ fs.isDirectory (name :: dir) := by simp [isDirectory, hn]
  exact ⟨hd, hnd⟩

theorem admits_of_isFile {fs : FileSystem} {loc : Location} (h : fs.isFile loc) :
    fs.Admits loc := by
  cases loc with
  | nil => exact absurd fs.isDirectory_root (not_isDirectory_of_isFile h)
  | cons name dir =>
    obtain ⟨content, permissions, hg⟩ := isFile_iff.mp h
    have hs : (fs.get? (name :: dir)).isSome := by simp [hg]
    exact ⟨isDirectory_of_get?_cons hs, not_isDirectory_of_isFile h⟩

theorem stands_of_isDirectory {fs : FileSystem} {loc : Location} (h : fs.isDirectory loc) :
    fs.Stands loc := by
  obtain ⟨permissions, hg⟩ := isDirectory_iff.mp h
  exact ⟨_, hg, by simp [Entry.isLink]⟩

theorem Stands.isFile {fs : FileSystem} {loc : Location} (h : fs.Stands loc)
    (hd : ¬ fs.isDirectory loc) : fs.isFile loc := by
  obtain ⟨entry, hg, hl⟩ := h
  cases entry <;> simp_all [FileSystem.isFile, FileSystem.isDirectory, Entry.isFile,
    Entry.isDirectory, Entry.isLink]

end FileSystem

open FileSystem

theorem Stride.stands {fs : FileSystem} {w v : Walk} (h : Stride fs w v) : fs.Stands v.loc := by
  cases h with
  | idle _ hd => exact stands_of_isDirectory hd
  | up hd => exact stands_of_isDirectory (isDirectory_of_suffix (List.tail_suffix _) hd)
  | enter _ hg hl => exact ⟨_, hg, hl⟩
  | link hd _ =>
    apply stands_of_isDirectory
    dsimp only
    split
    · exact fs.isDirectory_root
    · exact hd

theorem Reaches.stands {fs : FileSystem} {w v : Walk} (h : Reaches fs w v)
    (hw : fs.Stands w.loc) : fs.Stands v.loc := by
  cases h with
  | refl => exact hw
  | tail _ hs => exact hs.stands

theorem Stride.mono {fs gs : FileSystem} {w v : Walk} (h : Stride fs w v) (hg : fs.Grows gs) :
    Stride gs w v := by
  cases h with
  | idle hs hd => exact .idle hs (hg.isDirectory hd)
  | up hd => exact .up (hg.isDirectory hd)
  | enter hd he hl =>
    obtain ⟨new, hn, hnl, -⟩ := hg.get?_of_not_isLink he hl
    exact .enter (hg.isDirectory hd) hn hnl
  | link hd he =>
    exact .link (hg.isDirectory hd) (hg.get?_of_not_isFile he (by simp [Entry.isFile]))

theorem Reaches.mono {fs gs : FileSystem} {w v : Walk} (h : Reaches fs w v) (hg : fs.Grows gs) :
    Reaches gs w v := by
  induction h with
  | refl => exact .refl
  | tail _ hs ih => exact ih.tail (hs.mono hg)

theorem Path.isDirectory_of_walk? {p : Path} {cwd : WorkingDirectory} {w : Walk}
    (h : p.walk? cwd = some w) {fs : FileSystem} (hc : fs.isDirectory cwd.above) :
    fs.isDirectory w.loc := by
  unfold Path.walk? at h
  split at h
  · cases h
  · split at h
    · cases h
      exact fs.isDirectory_root
    · obtain ⟨rest, _, rfl⟩ := Option.map_eq_some_iff.mp h
      exact hc

namespace FileSystem

variable {fs gs : FileSystem} {cwd : WorkingDirectory} {p : Path} {loc : Location}

theorem stands_of_locate (h : fs.locate cwd .find p = .ok (.occupied loc))
    (hc : fs.isDirectory cwd.above) : fs.Stands loc := by
  obtain ⟨w, n, hw, hr⟩ := locate_find_eq_occupied_iff.mp h
  exact hr.stands (stands_of_isDirectory (Path.isDirectory_of_walk? hw hc))

theorem locate_find_mono {place : Place} (h : fs.locate cwd .find p = .ok place)
    (hg : fs.Grows gs) : gs.locate cwd .find p = .ok place := by
  rcases locate_find_cases h with ⟨loc, rfl⟩ | ⟨dir, rfl, hl⟩
  · obtain ⟨w, n, hw, hr⟩ := locate_find_eq_occupied_iff.mp h
    exact locate_find_eq_occupied_iff.mpr ⟨w, n, hw, hr.mono hg⟩
  · exact hl gs

end FileSystem

end MarkerCopy
