/-! The last place where one list occurs in another. -/

namespace MarkerCopy

variable {α : Type} [BEq α]

/-- The rest of a list from the last occurrence of `part` on. -/
def fromLast? (part : List α) : List α → Option (List α)
  | [] => if part.isEmpty then some [] else none
  | x :: xs =>
    match fromLast? part xs with
    | some found => some found
    | none => if part.isPrefixOf (x :: xs) then some (x :: xs) else none

end MarkerCopy
