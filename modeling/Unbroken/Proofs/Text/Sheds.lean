import Mathlib.Algebra.Order.BigOperators.Group.List
import Mathlib.Algebra.Ring.Nat
import Unbroken.Proofs.Text.Spacing

/-! Texts that lost letters. No measure of texts grows under such a loss, be it the number of
visible letters or the size in bytes, and the visible letters that remain keep their order. -/

namespace Unbroken

/-- One text comes from another by leaving out letters and writing spaces for blanks. -/
def Sheds : List Char → List Char → Prop :=
  List.SublistForall₂ fun new old => new = old ∨ (new = ' ' ∧ isBlank old = true)

namespace Sheds

theorem refl (text : List Char) : Sheds text text := by
  induction text with
  | nil => exact .nil
  | cons letter rest ih => exact .cons (Or.inl rfl) ih

theorem of_sublist {new old : List Char} (sub : new.Sublist old) : Sheds new old := by
  induction sub with
  | slnil => exact .nil
  | cons letter _ ih => exact .cons_right ih
  | cons_cons letter _ ih => exact .cons (Or.inl rfl) ih

theorem trans {first second third : List Char} (left : Sheds first second)
    (right : Sheds second third) : Sheds first third := by
  induction right generalizing first with
  | nil =>
      cases left
      exact .nil
  | cons same _ ih =>
      cases left with
      | nil => exact .nil
      | cons earlier rest =>
          refine .cons ?_ (ih rest)
          rcases earlier with rfl | ⟨rfl, blank⟩
          · exact same
          · rcases same with rfl | ⟨rfl, old⟩
            · exact Or.inr ⟨rfl, blank⟩
            · exact Or.inr ⟨rfl, old⟩
      | cons_right rest => exact .cons_right (ih rest)
  | cons_right _ ih => exact .cons_right (ih left)

theorem append {new old more rest : List Char} (left : Sheds new old) (right : Sheds more rest) :
    Sheds (new ++ more) (old ++ rest) := by
  induction left with
  | @nil old =>
      induction old with
      | nil => exact right
      | cons letter old ih => exact .cons_right ih
  | cons same _ ih => exact .cons same ih
  | cons_right _ ih => exact .cons_right ih

theorem append_left (before : List Char) {new old : List Char} (sheds : Sheds new old) :
    Sheds (before ++ new) (before ++ old) :=
  (refl before).append sheds

theorem sum_le {weight : Char → Nat} (light : ∀ letter, isBlank letter = true → weight ' ' ≤ weight letter)
    {new old : List Char} (sheds : Sheds new old) : (new.map weight).sum ≤ (old.map weight).sum := by
  induction sheds with
  | nil => simp
  | cons same _ ih =>
      simp only [List.map_cons, List.sum_cons]
      rcases same with rfl | ⟨rfl, blank⟩
      · omega
      · have lighter := light _ blank
        omega
  | cons_right _ ih =>
      simp only [List.map_cons, List.sum_cons]
      omega

theorem solid_sublist {new old : List Char} (sheds : Sheds new old) : (solid new).Sublist (solid old) := by
  induction sheds with
  | nil => simp [solid]
  | cons same _ ih =>
      rcases same with rfl | ⟨rfl, blank⟩
      · simp only [solid, List.filter_cons]
        split
        · exact ih.cons_cons _
        · exact ih
      · have space : isBlank ' ' = true := by decide
        simpa [solid, List.filter_cons, space, blank] using ih
  | cons_right _ ih =>
      simp only [solid, List.filter_cons]
      split
      · exact ih.cons _
      · exact ih

end Sheds

theorem solid_append (left right : List Char) : solid (left ++ right) = solid left ++ solid right :=
  List.filter_append left right

theorem solid_cons_of_blank {letter : Char} (blank : isBlank letter = true) (rest : List Char) :
    solid (letter :: rest) = solid rest := by
  simp [solid, blank]

theorem solid_squeezed (inRun : Bool) (text : List Char) : solid (squeezed inRun text) = solid text := by
  induction text generalizing inRun with
  | nil => rfl
  | cons letter rest ih =>
      have space : isBlank ' ' = true := by decide
      simp only [solid] at ih
      by_cases blank : isBlank letter
      · cases inRun <;> simp [squeezed, solid, blank, space, ih]
      · simp [squeezed, solid, blank, ih]

theorem solid_trimEnd (text : List Char) : solid (trimEnd text) = solid text := by
  induction text with
  | nil => rfl
  | cons letter rest ih =>
      rw [trimEnd_cons]
      by_cases blank : isBlank letter
      · by_cases nothing : trimEnd rest = []
        · rw [if_pos ⟨blank, nothing⟩, solid_cons_of_blank blank, ← ih, nothing]
        · rw [if_neg fun both => nothing both.2, solid_cons_of_blank blank, solid_cons_of_blank blank, ih]
      · rw [if_neg fun both => blank both.1]
        simp only [solid] at ih
        simp [solid, blank, ih]

@[simp] theorem solid_singleSpaced (text : List Char) : solid (singleSpaced text) = solid text := by
  rw [singleSpaced_eq, solid_trimEnd, solid_squeezed]

theorem solid_joinLines (lines : List (List Char)) :
    solid (joinLines lines) = (lines.map solid).flatten := by
  induction lines with
  | nil => rfl
  | cons line below ih =>
      cases below with
      | nil => simp
      | cons next below =>
          rw [joinLines_cons_cons, solid_append, solid_cons_of_blank (by decide), ih]
          rfl

theorem solid_joinLines_cons (line : List Char) (lines : List (List Char)) :
    solid (joinLines (line :: lines)) = solid line ++ solid (joinLines lines) := by
  simp [solid_joinLines]

theorem length_solid_joinLines_cons_lt {line : List Char} {lower below : List (List Char)}
    (fewer : (solid (joinLines lower)).length < (solid (joinLines below)).length) :
    (solid (joinLines (line :: lower))).length < (solid (joinLines (line :: below))).length := by
  rw [solid_joinLines_cons, solid_joinLines_cons, List.length_append, List.length_append]
  exact Nat.add_lt_add_left fewer _

theorem squeezed_sheds (inRun : Bool) (text : List Char) : Sheds (squeezed inRun text) text := by
  induction text generalizing inRun with
  | nil => exact .nil
  | cons letter rest ih =>
      by_cases blank : isBlank letter
      · cases inRun with
        | true =>
            rw [squeezed_true_cons_of_blank blank]
            exact .cons_right (ih true)
        | false =>
            rw [squeezed_false_cons_of_blank blank]
            exact .cons (Or.inr ⟨rfl, blank⟩) (ih true)
      · rw [squeezed_cons_of_not_blank (by simpa using blank)]
        exact .cons (Or.inl rfl) (ih false)

theorem trimEnd_sheds (text : List Char) : Sheds (trimEnd text) text :=
  .of_sublist (trimEnd_starts text).sublist

theorem singleSpaced_sheds (text : List Char) : Sheds (singleSpaced text) text := by
  rw [singleSpaced_eq]
  exact (trimEnd_sheds _).trans (squeezed_sheds true text)

end Unbroken
