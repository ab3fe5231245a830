import Mathlib.Data.List.Infix
import Unbroken.Text.Cut

/-! Where a pattern first stands in a text, by positions and by what surrounds the text. -/

namespace Unbroken

def StandsAt (pattern text : List Char) (position : Nat) : Prop :=
  pattern <+: text.drop position

instance (pattern text : List Char) (position : Nat) : Decidable (StandsAt pattern text position) :=
  inferInstanceAs (Decidable (pattern <+: text.drop position))

theorem standsAt_take_iff {pattern text : List Char} {bound position : Nat}
    (within : position + pattern.length ≤ bound) :
    StandsAt pattern (text.take bound) position ↔ StandsAt pattern text position := by
  rw [StandsAt, StandsAt, List.drop_take, List.prefix_take_iff]
  exact and_iff_left (by omega)

theorem standsAt_of_take_eq {pattern text other : List Char} {bound position : Nat}
    (same : other.take bound = text.take bound) (within : position + pattern.length ≤ bound) :
    StandsAt pattern other position ↔ StandsAt pattern text position := by
  rw [← standsAt_take_iff within, same, standsAt_take_iff within]

theorem cut_cons_of_starts {pattern text : List Char} {letter : Char}
    (here : pattern <+: letter :: text) :
    cut pattern (letter :: text) = some ([], (letter :: text).drop pattern.length) := by
  simp [cut, here]

theorem cut_cons_of_not_starts {pattern text : List Char} {letter : Char}
    (notHere : ¬ pattern <+: letter :: text) :
    cut pattern (letter :: text) =
      (cut pattern text).map fun (before, after) => (letter :: before, after) := by
  simp [cut, notHere]

theorem cut_eq_some_iff (pattern text before after : List Char) :
    cut pattern text = some (before, after) ↔
      text = before ++ pattern ++ after ∧
        ∀ position < before.length, ¬ StandsAt pattern text position := by
  induction text generalizing before with
  | nil =>
      cases pattern with
      | nil => simp [cut, eq_comm]; intro found; simp [found]
      | cons first rest => simp [cut]
  | cons letter text ih =>
      by_cases here : pattern <+: letter :: text
      · rw [cut_cons_of_starts here]
        constructor
        · intro found
          obtain ⟨rfl, rfl⟩ := Prod.mk.inj (Option.some.inj found)
          exact ⟨by simpa using (List.prefix_iff_eq_append.mp here).symm, by simp⟩
        · rintro ⟨parts, first⟩
          cases before with
          | nil => simp [parts]
          | cons head before => exact absurd here (first 0 (by simp))
      · rw [cut_cons_of_not_starts here]
        cases before with
        | nil =>
            constructor
            · simp
            · rintro ⟨parts, _⟩
              exact absurd ⟨after, by simpa using parts.symm⟩ here
        | cons head before =>
            have later : (∀ position < before.length + 1,
                ¬ StandsAt pattern (letter :: text) position) ↔
                ∀ position < before.length, ¬ StandsAt pattern text position := by
              constructor
              · intro first position bound
                exact first (position + 1) (by omega)
              · intro first position bound
                cases position with
                | zero => exact here
                | succ position => exact first position (by omega)
            have tail := ih before
            simp only [List.length_cons, later, List.cons_append, List.cons.injEq]
            constructor
            · intro found
              obtain ⟨⟨left, right⟩, known, same⟩ := Option.map_eq_some_iff.mp found
              simp only [Prod.mk.injEq, List.cons.injEq] at same
              obtain ⟨⟨rfl, rfl⟩, rfl⟩ := same
              exact ⟨⟨rfl, (tail.mp known).1⟩, (tail.mp known).2⟩
            · rintro ⟨⟨rfl, parts⟩, first⟩
              rw [tail.mpr ⟨parts, first⟩]
              rfl

theorem cut_eq_none_iff (pattern text : List Char) :
    cut pattern text = none ↔ ¬ pattern <:+: text := by
  induction text with
  | nil => cases pattern <;> simp [cut]
  | cons letter text ih =>
      by_cases here : pattern <+: letter :: text
      · simp [cut_cons_of_starts here, here.isInfix]
      · simp [cut_cons_of_not_starts here, ih, List.infix_cons_iff, here]

theorem occurs_iff (pattern text : List Char) : occurs pattern text = true ↔ pattern <:+: text := by
  rw [occurs, Option.isSome_iff_ne_none, ne_eq, cut_eq_none_iff, not_not]

theorem not_infix_of_cut {pattern text before after : List Char} (nonempty : pattern ≠ [])
    (found : cut pattern text = some (before, after)) : ¬ pattern <:+: before := by
  rintro ⟨front, behind, rfl⟩
  obtain ⟨parts, first⟩ := (cut_eq_some_iff _ _ _ _).mp found
  have inside : front.length < (front ++ pattern ++ behind).length := by
    have size := List.length_pos_of_ne_nil nonempty
    simp only [List.length_append]
    omega
  refine first front.length inside ⟨behind ++ pattern ++ after, ?_⟩
  rw [parts]
  simp only [List.append_assoc, List.drop_left]

theorem cut_append_of_eq_some {pattern text before after : List Char}
    (found : cut pattern text = some (before, after)) (more : List Char) :
    cut pattern (text ++ more) = some (before, after ++ more) := by
  rw [cut_eq_some_iff] at found ⊢
  obtain ⟨parts, first⟩ := found
  refine ⟨by simp [parts], ?_⟩
  intro position bound stands
  have within : position ≤ text.length := by simp [parts]; omega
  have extended : pattern <+: text.drop position ++ more := by
    rwa [← List.drop_append_of_le_length within]
  refine first position bound (List.prefix_of_prefix_length_le extended (List.prefix_append _ _) ?_)
  simp [parts]
  omega

theorem starts_of_starts_append_cons (text : List Char) {pattern more : List Char} {letter : Char}
    (foreign : letter ∉ pattern) (stands : pattern <+: text ++ letter :: more) :
    pattern <+: text := by
  rcases List.prefix_or_prefix_of_prefix stands (List.prefix_append text _) with here | ⟨rest, rfl⟩
  · exact here
  · cases rest with
    | nil => simp
    | cons head rest =>
        have reaches := (List.prefix_append_right_inj text).mp stands
        obtain ⟨rfl, _⟩ := List.cons_prefix_cons.mp reaches
        simp at foreign

theorem cut_append_cons_of_eq_none {pattern text : List Char} {letter : Char}
    (foreign : letter ∉ pattern) (missing : cut pattern text = none) (more : List Char) :
    cut pattern (text ++ letter :: more) =
      (cut pattern more).map fun (before, after) => (text ++ letter :: before, after) := by
  induction text with
  | nil =>
      have notHere : ¬ pattern <+: letter :: more := by
        intro stands
        have empty := starts_of_starts_append_cons [] foreign stands
        simp [cut, List.prefix_nil.mp empty] at missing
      simp [cut_cons_of_not_starts notHere]
  | cons head text ih =>
      rw [cut_eq_none_iff, List.infix_cons_iff, not_or] at missing
      have notHere : ¬ pattern <+: head :: (text ++ letter :: more) := by
        intro stands
        exact missing.1 (starts_of_starts_append_cons (head :: text) foreign stands)
      rw [List.cons_append, cut_cons_of_not_starts notHere,
        ih ((cut_eq_none_iff _ _).mpr missing.2), Option.map_map]
      rfl

end Unbroken
