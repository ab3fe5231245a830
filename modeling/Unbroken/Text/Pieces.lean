/-! Cutting a list at every element that satisfies a test. The pieces keep their order, the cutting
elements are dropped, and there is always one piece more than there are cuts. -/

namespace Unbroken

def pieces {α : Type} (cuts : α → Bool) : List α → List (List α)
  | [] => [[]]
  | head :: rest =>
    if cuts head then [] :: pieces cuts rest
    else (pieces cuts rest).modifyHead (head :: ·)

theorem pieces_ne_nil {α : Type} (cuts : α → Bool) (whole : List α) : pieces cuts whole ≠ [] := by
  induction whole with
  | nil => simp [pieces]
  | cons head rest ih =>
      unfold pieces
      split
      · simp
      · cases split : pieces cuts rest with
        | nil => exact absurd split ih
        | cons first others => simp

theorem not_cuts_of_mem_pieces {α : Type} {cuts : α → Bool} {whole piece : List α}
    (member : piece ∈ pieces cuts whole) : ∀ element ∈ piece, cuts element = false := by
  induction whole generalizing piece with
  | nil => simp_all [pieces]
  | cons head rest ih =>
      unfold pieces at member
      split at member
      next => 
        rcases List.mem_cons.mp member with rfl | later
        · simp
        · exact ih later
      next keep =>
        cases split : pieces cuts rest with
        | nil => exact absurd split (pieces_ne_nil cuts rest)
        | cons first others =>
            rw [split] at ih
            rw [split, List.modifyHead_cons] at member
            rcases List.mem_cons.mp member with rfl | later
            · intro element inside
              rcases List.mem_cons.mp inside with rfl | inside
              · simpa using keep
              · exact ih List.mem_cons_self element inside
            · exact ih (List.mem_cons_of_mem _ later)

end Unbroken
