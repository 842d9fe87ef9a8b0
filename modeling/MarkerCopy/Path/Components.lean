import MarkerCopy.Path.Basic

/-! The names in a path. Empty segments and single dots name nothing, except for a single dot that
leads a relative path. A parent is always a leading part of the text of the path. -/

namespace MarkerCopy.Path

/-- Whether a segment names nothing. -/
def isIdle (segment : List UInt8) : Bool :=
  segment.isEmpty || segment == [dot]

/-- The root of an absolute path, or the single dot that leads a relative one. -/
def lead (p : Path) : List UInt8 :=
  match p.bytes with
  | [] => []
  | b :: rest =>
    if b = slash then [slash]
    else if b = dot ∧ (rest = [] ∨ rest.head? = some slash) then [dot]
    else []

/-- The segments after the lead. -/
def body (p : Path) : List (List UInt8) :=
  pieces slash (p.bytes.drop p.lead.length)

/-- The last name, unless it is a double dot. -/
def fileName? (p : Path) : Option Path :=
  match p.body.reverse.dropWhile isIdle with
  | [] => none
  | name :: _ => if name = [dot, dot] then none else some ⟨name⟩

/-- The path that consists of `lead` and the segments `reversed`, last segment first. Idle segments
at its end are left out. -/
def upTo (lead : List UInt8) (reversed : List (List UInt8)) : Path :=
  ⟨lead ++ joinPieces slash (reversed.dropWhile isIdle).reverse⟩

/-- The paths above one that consists of `lead` and the segments `reversed`, last segment first. -/
def above (lead : List UInt8) : List (List UInt8) → List Path
  | [] => if lead = [dot] then [⟨[]⟩] else []
  | segment :: reversed =>
    if isIdle segment then above lead reversed else upTo lead reversed :: above lead reversed

/-- The parent of a path, its parent, and so on. The last one is a root or empty. -/
def ancestors (p : Path) : List Path :=
  above p.lead p.body.reverse

def parent? (p : Path) : Option Path :=
  match p.body.reverse.dropWhile isIdle with
  | [] => if p.lead = [dot] then some ⟨[]⟩ else none
  | _ :: reversed => some (upTo p.lead reversed)

theorem head?_ancestors (p : Path) : p.ancestors.head? = p.parent? := by
  unfold ancestors parent?
  induction p.body.reverse with
  | nil => by_cases h : p.lead = [dot] <;> simp [above, h]
  | cons segment reversed ih => by_cases h : isIdle segment <;> simp [above, h, ih]

end MarkerCopy.Path
