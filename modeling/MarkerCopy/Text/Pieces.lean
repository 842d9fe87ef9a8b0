/-! Lists cut at a separator: `pieces` never drops anything, so `joinPieces` undoes it. -/

namespace MarkerCopy

variable {α : Type} [DecidableEq α]

/-- The stretches between the separators, in order. There is always at least one. -/
def pieces (sep : α) : List α → List (List α)
  | [] => [[]]
  | x :: xs =>
    if x = sep then [] :: pieces sep xs
    else
      match pieces sep xs with
      | [] => [[x]]
      | p :: ps => (x :: p) :: ps

/-- The stretches with one separator between neighbours. -/
def joinPieces (sep : α) : List (List α) → List α
  | [] => []
  | [p] => p
  | p :: q :: ps => p ++ sep :: joinPieces sep (q :: ps)

theorem pieces_ne_nil (sep : α) (xs : List α) : pieces sep xs ≠ [] := by
  induction xs with
  | nil => simp [pieces]
  | cons x xs ih =>
    by_cases h : x = sep
    · simp [pieces, h]
    · cases hp : pieces sep xs with
      | nil => exact absurd hp ih
      | cons p ps => simp [pieces, h, hp]

theorem joinPieces_pieces (sep : α) (xs : List α) : joinPieces sep (pieces sep xs) = xs := by
  induction xs with
  | nil => rfl
  | cons x xs ih =>
    cases hp : pieces sep xs with
    | nil => exact absurd hp (pieces_ne_nil sep xs)
    | cons p ps =>
      rw [hp] at ih
      by_cases h : x = sep
      · simp [pieces, h, hp, joinPieces, ih]
      · cases ps with
        | nil => simpa [pieces, h, hp, joinPieces] using ih
        | cons q ps => simpa [pieces, h, hp, joinPieces] using ih

theorem not_mem_of_mem_pieces {sep : α} {xs p : List α} (hp : p ∈ pieces sep xs) : sep ∉ p := by
  induction xs generalizing p with
  | nil => simp_all [pieces]
  | cons x xs ih =>
    by_cases h : x = sep
    · simp only [pieces, h, if_true, List.mem_cons] at hp
      rcases hp with rfl | hp
      · simp
      · exact ih hp
    · cases hps : pieces sep xs with
      | nil => exact absurd hps (pieces_ne_nil sep xs)
      | cons q qs =>
        simp only [pieces, h, if_false, hps, List.mem_cons] at hp
        rcases hp with rfl | hp
        · have := ih (p := q) (by simp [hps])
          simp only [List.mem_cons, not_or]
          exact ⟨fun e => h e.symm, this⟩
        · exact ih (by simp [hps, hp])

end MarkerCopy
