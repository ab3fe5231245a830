import Unbroken.Toml.Reader

/-! What a reader of many items finds: only items that it can read, and behind each other just those
that were written. -/

namespace Unbroken.Toml.Reader

variable {α β : Type}

theorem many_forall {item : Reader α} {holds : α → Prop}
    (read : ∀ text value rest, item text = some (value, rest) → holds value) (text : List Char) :
    ∀ value ∈ (many item text).1, holds value := by
  fun_induction many item text with
  | case1 text value rest here shorter values last later ih =>
      simp only [List.mem_cons]
      rintro _ (rfl | member)
      · exact read _ _ _ here
      · exact ih _ (by rwa [later])
  | case2 => simp
  | case3 => simp

theorem many_flatMap {item : Reader β} {written : α → List Char} {meant : α → β}
    {values : List α} (read : ∀ value ∈ values, written value ≠ [] ∧
      ∀ rest, item (written value ++ rest) = some (meant value, rest))
    {rest : List Char} (stop : item rest = none) :
    many item (values.flatMap written ++ rest) = (values.map meant, rest) := by
  induction values with
  | nil => simp [many, stop]
  | cons first others ih =>
      rw [List.forall_mem_cons] at read
      have shorter := List.length_pos_iff.mpr read.1.1
      rw [many, List.flatMap_cons, List.append_assoc, read.1.2]
      simp [ih read.2, shorter]

theorem separated_flatMap {item : Reader β} {written : α → List Char} {meant : α → β}
    {separator : Char} {values : List α} (read : ∀ value ∈ values, ∀ rest,
      item (written value ++ separator :: rest) = some (meant value, separator :: rest))
    {rest : List Char} (stop : item rest = none) :
    separated item separator true true
        (values.flatMap (fun value => written value ++ [separator]) ++ rest) =
      some (values.map meant, rest) := by
  induction values with
  | nil =>
      rw [separated]
      simp [stop]
  | cons first others ih =>
      rw [List.forall_mem_cons] at read
      rw [separated, List.flatMap_cons, List.append_assoc, List.append_assoc, List.singleton_append,
        read.1]
      simp [ih read.2, Nat.lt_add_left]

end Unbroken.Toml.Reader
