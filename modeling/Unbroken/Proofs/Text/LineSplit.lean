import Unbroken.Text.Lines

/-! Splitting a text into lines and joining lines into a text undo each other. -/

namespace Unbroken

theorem pieces_eq_splitOnP {α : Type} (cuts : α → Bool) (whole : List α) :
    pieces cuts whole = whole.splitOnP cuts := by
  induction whole with
  | nil => rfl
  | cons head rest ih => rw [pieces, List.splitOnP_cons_eq_if_modifyHead, ih]

theorem splitLines_eq_splitOn (text : List Char) : splitLines text = text.splitOn '\n' :=
  pieces_eq_splitOnP _ text

theorem splitLines_ne_nil (text : List Char) : splitLines text ≠ [] :=
  pieces_ne_nil _ text

theorem newline_not_mem_of_mem_splitLines {text line : List Char}
    (member : line ∈ splitLines text) : '\n' ∉ line := by
  intro inside
  simpa using not_cuts_of_mem_pieces member '\n' inside

@[simp] theorem joinLines_splitLines (text : List Char) : joinLines (splitLines text) = text := by
  rw [splitLines_eq_splitOn]
  exact List.intercalate_splitOn '\n'

theorem splitLines_joinLines {lines : List (List Char)} (nonempty : lines ≠ [])
    (whole : ∀ line ∈ lines, '\n' ∉ line) : splitLines (joinLines lines) = lines := by
  rw [splitLines_eq_splitOn]
  exact List.splitOn_intercalate '\n' whole nonempty

@[simp] theorem joinLines_nil : joinLines [] = [] := rfl

@[simp] theorem joinLines_singleton (line : List Char) : joinLines [line] = line := by
  simp [joinLines]

theorem joinLines_cons_cons (line next : List Char) (below : List (List Char)) :
    joinLines (line :: next :: below) = line ++ '\n' :: joinLines (next :: below) := by
  simp [joinLines]

theorem joinLines_cons_of_ne_nil (line : List Char) {below : List (List Char)}
    (nonempty : below ≠ []) : joinLines (line :: below) = line ++ '\n' :: joinLines below := by
  obtain ⟨next, below, rfl⟩ := List.exists_cons_of_ne_nil nonempty
  exact joinLines_cons_cons line next below

theorem joinLines_append {above below : List (List Char)} (aboveNonempty : above ≠ [])
    (belowNonempty : below ≠ []) :
    joinLines (above ++ below) = joinLines above ++ '\n' :: joinLines below := by
  induction above with
  | nil => exact absurd rfl aboveNonempty
  | cons line above ih =>
      cases above with
      | nil => simpa using joinLines_cons_of_ne_nil line belowNonempty
      | cons next above =>
          simp only [List.cons_append, joinLines_cons_cons] at ih ⊢
          rw [ih (by simp), List.append_assoc, List.cons_append]

theorem joinLines_append_head (before line : List Char) (below : List (List Char)) :
    joinLines ((before ++ line) :: below) = before ++ joinLines (line :: below) := by
  cases below with
  | nil => simp
  | cons next below => simp [joinLines_cons_cons]

theorem length_splitLines (text : List Char) : (splitLines text).length = text.count '\n' + 1 := by
  induction text with
  | nil => rfl
  | cons letter rest ih =>
      rw [splitLines] at ih ⊢
      rw [pieces]
      by_cases newline : letter = '\n'
      · simp [newline, ih]
      · simp [newline, ih]

theorem count_newline_joinLines {lines : List (List Char)} (nonempty : lines ≠ [])
    (whole : ∀ line ∈ lines, '\n' ∉ line) : (joinLines lines).count '\n' + 1 = lines.length := by
  rw [← length_splitLines, splitLines_joinLines nonempty whole]

end Unbroken
