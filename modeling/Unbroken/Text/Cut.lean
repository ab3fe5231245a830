/-! The first occurrence of a pattern, as the text before it and the text after it. -/

namespace Unbroken

def cut (pattern : List Char) : List Char → Option (List Char × List Char)
  | [] => if pattern.isEmpty then some ([], []) else none
  | letter :: rest =>
    if pattern.isPrefixOf (letter :: rest) then some ([], (letter :: rest).drop pattern.length)
    else (cut pattern rest).map fun (before, after) => (letter :: before, after)

def occurs (pattern text : List Char) : Bool :=
  (cut pattern text).isSome

theorem cut_append {pattern text before after : List Char}
    (found : cut pattern text = some (before, after)) : text = before ++ pattern ++ after := by
  induction text generalizing before with
  | nil =>
      simp only [cut] at found
      split at found
      · simp_all
      · simp at found
  | cons letter rest ih =>
      simp only [cut] at found
      split at found
      next here =>
        obtain ⟨rfl, rfl⟩ := Prod.mk.inj (Option.some.inj found)
        obtain ⟨tail, whole⟩ := List.isPrefixOf_iff_prefix.mp here
        rw [← whole]
        simp
      next =>
        obtain ⟨⟨left, right⟩, later, same⟩ := Option.map_eq_some_iff.mp found
        obtain ⟨rfl, rfl⟩ := Prod.mk.inj same
        simp [ih later]

end Unbroken
