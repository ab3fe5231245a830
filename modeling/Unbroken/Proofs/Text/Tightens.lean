import Unbroken.Proofs.Text.Sheds

/-! Texts that lost blanks only. Words, which hold no blanks, come through such a loss. -/

namespace Unbroken

/-- One text comes from another by leaving out blanks and writing spaces for blanks. -/
inductive Tightens : List Char → List Char → Prop
  | nil : Tightens [] []
  | keep {new old : List Char} (letter : Char) (rest : Tightens new old) :
      Tightens (letter :: new) (letter :: old)
  | space {new old : List Char} {letter : Char} (blank : isBlank letter = true)
      (rest : Tightens new old) : Tightens (' ' :: new) (letter :: old)
  | drop {new old : List Char} {letter : Char} (blank : isBlank letter = true)
      (rest : Tightens new old) : Tightens new (letter :: old)

theorem solid_cons_of_not_blank {letter : Char} (visible : isBlank letter = false) (rest : List Char) :
    solid (letter :: rest) = letter :: solid rest := by
  simp [solid, visible]

theorem Sheds.tightens {new old : List Char} (sheds : Sheds new old)
    (whole : (solid old).length ≤ (solid new).length) : Tightens new old := by
  induction sheds with
  | @nil old =>
      induction old with
      | nil => exact .nil
      | cons letter old ih =>
          by_cases blank : isBlank letter
          · rw [solid_cons_of_blank blank] at whole
            exact .drop blank (ih whole)
          · rw [solid_cons_of_not_blank (by simpa using blank)] at whole
            simp [solid] at whole
  | @cons newLetter oldLetter new old same rest ih =>
      rcases same with rfl | ⟨rfl, blank⟩
      · refine .keep _ (ih ?_)
        by_cases blank : isBlank newLetter
        · rwa [solid_cons_of_blank blank, solid_cons_of_blank blank] at whole
        · rw [solid_cons_of_not_blank (by simpa using blank),
            solid_cons_of_not_blank (by simpa using blank)] at whole
          simpa using whole
      · rw [solid_cons_of_blank blank, solid_cons_of_blank (by decide)] at whole
        exact .space blank (ih whole)
  | @cons_right letter new old rest ih =>
      by_cases blank : isBlank letter
      · rw [solid_cons_of_blank blank] at whole
        exact .drop blank (ih whole)
      · rw [solid_cons_of_not_blank (by simpa using blank)] at whole
        have bound := (Sheds.solid_sublist rest).length_le
        simp only [List.length_cons] at whole
        omega

namespace Tightens

variable {new old : List Char}

theorem solid_eq (tightens : Tightens new old) : solid new = solid old := by
  induction tightens with
  | nil => rfl
  | keep letter _ ih =>
      simp only [solid] at ih
      simp [solid, List.filter_cons, ih]
  | space blank _ ih => rw [solid_cons_of_blank blank, solid_cons_of_blank (by decide), ih]
  | drop blank _ ih => rw [solid_cons_of_blank blank, ih]

theorem count_newline_le (tightens : Tightens new old) : new.count '\n' ≤ old.count '\n' := by
  induction tightens with
  | nil => exact Nat.le_refl _
  | keep letter _ ih =>
      rw [List.count_cons, List.count_cons]
      omega
  | space _ _ ih =>
      rw [List.count_cons_of_ne (by decide), List.count_cons]
      omega
  | drop _ _ ih =>
      rw [List.count_cons]
      omega

theorem split_old {left right : List Char} (tightens : Tightens new (left ++ right)) :
    ∃ front behind, new = front ++ behind ∧ Tightens front left ∧ Tightens behind right := by
  induction left generalizing new with
  | nil => exact ⟨[], new, rfl, .nil, tightens⟩
  | cons letter left ih =>
      cases tightens with
      | keep _ rest =>
          obtain ⟨front, behind, rfl, first, second⟩ := ih rest
          exact ⟨letter :: front, behind, rfl, .keep letter first, second⟩
      | space blank rest =>
          obtain ⟨front, behind, rfl, first, second⟩ := ih rest
          exact ⟨' ' :: front, behind, rfl, .space blank first, second⟩
      | drop blank rest =>
          obtain ⟨front, behind, rfl, first, second⟩ := ih rest
          exact ⟨front, behind, rfl, .drop blank first, second⟩

theorem split_new {front behind : List Char} {letter : Char} (visible : letter ≠ ' ')
    (tightens : Tightens (front ++ letter :: behind) old) :
    ∃ left right, old = left ++ letter :: right ∧ Tightens front left ∧ Tightens behind right := by
  generalize same : front ++ letter :: behind = new at tightens
  induction tightens generalizing front with
  | nil => simp at same
  | keep first rest ih =>
      cases front with
      | nil =>
          obtain ⟨rfl, rfl⟩ := List.cons.inj same
          exact ⟨[], _, rfl, .nil, rest⟩
      | cons other front =>
          obtain ⟨rfl, later⟩ := List.cons.inj same
          obtain ⟨left, right, rfl, first, second⟩ := ih later
          exact ⟨other :: left, right, rfl, .keep other first, second⟩
  | @space new old known blank rest ih =>
      cases front with
      | nil => exact absurd (List.cons.inj same).1 visible
      | cons other front =>
          obtain ⟨rfl, later⟩ := List.cons.inj same
          obtain ⟨left, right, rfl, first, second⟩ := ih later
          exact ⟨known :: left, right, rfl, .space blank first, second⟩
  | @drop new old known blank rest ih =>
      obtain ⟨left, right, rfl, first, second⟩ := ih same
      exact ⟨known :: left, right, rfl, .drop blank first, second⟩

theorem eq_of_word (tightens : Tightens new old) (word : ∀ letter ∈ old, isBlank letter = false) :
    new = old := by
  induction tightens with
  | nil => rfl
  | keep letter _ ih => rw [ih fun other member => word other (List.mem_cons_of_mem _ member)]
  | space blank | drop blank =>
      rw [word _ List.mem_cons_self] at blank
      cases blank

end Tightens

end Unbroken
