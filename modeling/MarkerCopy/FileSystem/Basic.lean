import MarkerCopy.FileSystem.Entry
import MarkerCopy.FileSystem.Location

/-! A file system is a finite tree of directories, links and files, known by what stands at each
location. The root is a directory, and so is whatever holds an entry.

An operation fails for what stands in the tree, for the spelling of a path or for where the process
is, and for nothing else: no permission refuses it, nothing is mounted or read-only, and room never
runs out. Nothing but the operations of one process changes the tree. -/

namespace MarkerCopy

structure FileSystem where
  entries : Std.ExtTreeMap Location Entry
  root : (entries[([] : Location)]?).any Entry.isDirectory
  parents : ∀ name dir, (name :: dir) ∈ entries → (entries[dir]?).any Entry.isDirectory

namespace FileSystem

def get? (fs : FileSystem) (loc : Location) : Option Entry :=
  fs.entries[loc]?

@[ext] theorem ext {fs gs : FileSystem} (h : ∀ loc, fs.get? loc = gs.get? loc) : fs = gs := by
  have : fs.entries = gs.entries := Std.ExtTreeMap.ext_getElem? h
  cases fs
  cases gs
  simp_all

def isDirectory (fs : FileSystem) (loc : Location) : Bool :=
  (fs.get? loc).any Entry.isDirectory

def isFile (fs : FileSystem) (loc : Location) : Bool :=
  (fs.get? loc).any Entry.isFile

theorem isDirectory_root (fs : FileSystem) : fs.isDirectory [] :=
  fs.root

theorem isDirectory_of_get?_cons {fs : FileSystem} {name : Name} {dir : Location}
    (h : (fs.get? (name :: dir)).isSome) : fs.isDirectory dir :=
  fs.parents name dir (Std.ExtTreeMap.mem_iff_isSome_getElem?.mpr h)

theorem isDirectory_of_suffix {fs : FileSystem} {loc above : Location} (hs : above <:+ loc)
    (h : fs.isDirectory loc) : fs.isDirectory above := by
  induction loc with
  | nil => exact List.suffix_nil.mp hs ▸ h
  | cons name dir ih =>
    rcases List.suffix_cons_iff.mp hs with rfl | hs
    · exact h
    · have hsome : (fs.get? (name :: dir)).isSome := by
        cases hg : fs.get? (name :: dir) with
        | none => simp [isDirectory, hg] at h
        | some entry => rfl
      exact ih hs (isDirectory_of_get?_cons hsome)

/-- The file system with nothing in it. -/
def empty : FileSystem where
  entries := Std.ExtTreeMap.empty.insert [] (.directory .forDirectory)
  root := by simp [Entry.isDirectory]
  parents name dir h := by simp at h

/-- Whether a new entry may stand at a location, possibly in the place of a file or a link. -/
def Admits (fs : FileSystem) : Location → Prop
  | [] => False
  | name :: dir => fs.isDirectory dir ∧ ¬ fs.isDirectory (name :: dir)

instance (fs : FileSystem) (loc : Location) : Decidable (fs.Admits loc) :=
  match loc with
  | [] => inferInstanceAs (Decidable False)
  | _ :: _ => inferInstanceAs (Decidable (_ ∧ _))

/-- Puts an entry at a location that admits one, and changes nothing otherwise. -/
def put (fs : FileSystem) (loc : Location) (entry : Entry) : FileSystem :=
  if h : fs.Admits loc then
    { entries := fs.entries.insert loc entry
      root := by
        cases loc with
        | nil => exact h.elim
        | cons name dir => simpa [Std.ExtTreeMap.getElem?_insert] using fs.root
      parents := by
        intro name dir hmem
        cases loc with
        | nil => exact h.elim
        | cons name' dir' =>
          rw [Std.ExtTreeMap.getElem?_insert]
          rcases Std.ExtTreeMap.mem_insert.mp hmem with heq | hmem
          · obtain ⟨rfl, rfl⟩ := List.cons.inj (Std.LawfulEqOrd.eq_of_compare heq)
            rw [if_neg (by simp)]
            exact h.1
          · have hdir := fs.parents name dir hmem
            rw [if_neg]
            · exact hdir
            · intro heq
              have := Std.LawfulEqOrd.eq_of_compare heq
              subst this
              exact h.2 hdir }
  else fs

theorem get?_put {fs : FileSystem} {loc : Location} (h : fs.Admits loc) (entry : Entry)
    (other : Location) :
    (fs.put loc entry).get? other = if loc = other then some entry else fs.get? other := by
  simp [put, h, get?, Std.ExtTreeMap.getElem?_insert]

theorem put_of_not_admits {fs : FileSystem} {loc : Location} (h : ¬ fs.Admits loc)
    (entry : Entry) : fs.put loc entry = fs := by
  simp [put, h]

/-- The entries that are neither at a location nor below it. -/
def entriesOutside (fs : FileSystem) (loc : Location) : Std.ExtTreeMap Location Entry :=
  fs.entries.filter fun other _ => ¬ loc <:+ other

theorem getElem?_entriesOutside (fs : FileSystem) (loc other : Location) :
    (fs.entriesOutside loc)[other]? = if loc <:+ other then none else fs.get? other := by
  by_cases h : loc <:+ other <;> cases hg : fs.entries[other]? <;>
    simp [entriesOutside, get?, h, hg]

/-- Removes the entry at a location and all that is below it. The root stays. -/
def remove (fs : FileSystem) (loc : Location) : FileSystem :=
  if h : loc = [] then fs
  else
    { entries := fs.entriesOutside loc
      root := by
        rw [getElem?_entriesOutside, if_neg (by simpa using h)]
        exact fs.root
      parents := by
        intro name dir hmem
        rw [Std.ExtTreeMap.mem_iff_isSome_getElem?, getElem?_entriesOutside] at hmem
        by_cases hs : loc <:+ name :: dir
        · simp [hs] at hmem
        · rw [if_neg hs] at hmem
          rw [getElem?_entriesOutside, if_neg fun h => hs (h.trans (List.suffix_cons _ _))]
          exact isDirectory_of_get?_cons hmem }

theorem get?_remove {fs : FileSystem} {loc : Location} (h : loc ≠ []) (other : Location) :
    (fs.remove loc).get? other = if loc <:+ other then none else fs.get? other := by
  rw [← getElem?_entriesOutside]
  simp [remove, h, get?]

end FileSystem

end MarkerCopy
