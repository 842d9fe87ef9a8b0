import MarkerCopy.Path.Basic
import Std.Data.ExtTreeMap

/-! Places in a tree of directories. A location lists the names on the way from an entry up to the
root, so its tail is the directory that holds the entry. -/

namespace MarkerCopy

/-- Whether an entry can have these bytes as its name. -/
def Name.Valid (bytes : List UInt8) : Prop :=
  bytes ≠ [] ∧ bytes ≠ [Path.dot] ∧ bytes ≠ [Path.dot, Path.dot] ∧
    Path.slash ∉ bytes ∧ 0 ∉ bytes ∧ bytes.length ≤ 255

instance (bytes : List UInt8) : Decidable (Name.Valid bytes) :=
  inferInstanceAs (Decidable (_ ∧ _ ∧ _ ∧ _ ∧ _ ∧ _))

structure Name where
  bytes : List UInt8
  valid : Name.Valid bytes
deriving DecidableEq

namespace Name

theorem ext_bytes {n m : Name} (h : n.bytes = m.bytes) : n = m := by
  cases n
  cases m
  simp_all

instance : Ord Name where
  compare := compareOn Name.bytes

instance : Std.TransOrd Name :=
  inferInstanceAs (Std.TransCmp (compareOn Name.bytes))

instance : Std.LawfulEqOrd Name where
  eq_of_compare h := ext_bytes (Std.LawfulEqOrd.eq_of_compare (α := List UInt8) h)

end Name

abbrev Location := List Name

namespace Location

/-- The names from the root down, each after a slash. -/
def text : Location → List UInt8
  | [] => []
  | name :: dir => text dir ++ Path.slash :: name.bytes

/-- The one absolute path with neither links nor idle segments. -/
def path (loc : Location) : Path :=
  if loc = [] then ⟨[Path.slash]⟩ else ⟨loc.text⟩

end Location

end MarkerCopy
