import Mathlib.Data.List.Basic

/-! Putting other text in the place of some stretches of a text. The stretches are told by positions in
the text as it was, so that it makes no difference in which order they are given. -/

namespace Unbroken

structure Splice where
  start : Nat
  stop : Nat
  text : List Char
  deriving DecidableEq, Repr

namespace Splice

def covers (splice : Splice) (position : Nat) : Bool :=
  splice.start ≤ position && position < splice.stop

def Disjoint (left right : Splice) : Prop :=
  left.stop ≤ right.start ∨ right.stop ≤ left.start

instance (left right : Splice) : Decidable (Disjoint left right) :=
  inferInstanceAs (Decidable (_ ∨ _))

def become (splices : List Splice) (letter : Char) (position : Nat) : List Char :=
  match splices.find? (·.covers position) with
  | none => [letter]
  | some splice => if position = splice.start then splice.text else []

end Splice

/-- Text that stands from some position on, with its letters replaced. -/
def splicedFrom (splices : List Splice) : (position : Nat) → List Char → List Char
  | _, [] => []
  | position, letter :: rest =>
    Splice.become splices letter position ++ splicedFrom splices (position + 1) rest

def spliced (text : List Char) (splices : List Splice) : List Char :=
  splicedFrom splices 0 text

namespace Splice

theorem covers_iff (splice : Splice) (position : Nat) :
    splice.covers position = true ↔ splice.start ≤ position ∧ position < splice.stop := by
  simp [covers]

theorem Disjoint.symm {left right : Splice} (disjoint : Disjoint left right) : Disjoint right left :=
  Or.symm disjoint

theorem find?_perm {splices others : List Splice} (perm : splices.Perm others)
    (disjoint : splices.Pairwise Disjoint) (position : Nat) :
    splices.find? (·.covers position) = others.find? (·.covers position) := by
  induction perm with
  | nil => rfl
  | cons splice _ ih => rw [List.find?_cons, List.find?_cons, ih disjoint.tail]
  | swap left right rest =>
      have apart : Disjoint right left := (List.pairwise_cons.mp disjoint).1 left List.mem_cons_self
      simp only [List.find?_cons]
      cases leftCovers : left.covers position <;> cases rightCovers : right.covers position <;>
        simp only
      rw [covers_iff] at leftCovers rightCovers
      rcases apart with before | behind <;> omega
  | trans first _ ih later =>
      rw [ih disjoint, later ((first.pairwise_iff Disjoint.symm).mp disjoint)]

theorem become_of_uncovered {splices : List Splice} {position : Nat} (letter : Char)
    (clear : ∀ splice ∈ splices, position < splice.start) : become splices letter position = [letter] := by
  have nothing : splices.find? (·.covers position) = none := by
    rw [List.find?_eq_none]
    intro splice member
    rw [covers_iff]
    have place := clear splice member
    omega
  rw [become.eq_def, nothing]

theorem become_of_covered {first : Splice} {position : Nat} (later : List Splice) (letter : Char)
    (covered : first.start ≤ position ∧ position < first.stop) :
    become (first :: later) letter position = if position = first.start then first.text else [] := by
  rw [become.eq_def, List.find?_cons, (covers_iff _ _).mpr covered]

theorem become_of_behind {first : Splice} {position : Nat} (later : List Splice) (letter : Char)
    (behind : first.stop ≤ position) :
    become (first :: later) letter position = become later letter position := by
  have uncovered : first.covers position = false := by
    rw [Bool.eq_false_iff, ne_eq, covers_iff]
    omega
  rw [become.eq_def, List.find?_cons, uncovered, become.eq_def]

end Splice

theorem spliced_perm {splices others : List Splice} (perm : splices.Perm others)
    (disjoint : splices.Pairwise Splice.Disjoint) (text : List Char) :
    spliced text splices = spliced text others := by
  rw [spliced, spliced]
  generalize 0 = position
  induction text generalizing position with
  | nil => rfl
  | cons letter rest ih =>
      rw [splicedFrom, splicedFrom, ih, Splice.become.eq_def, Splice.become.eq_def,
        Splice.find?_perm perm disjoint]

theorem splicedFrom_append (splices : List Splice) (position : Nat) (left right : List Char) :
    splicedFrom splices position (left ++ right) =
      splicedFrom splices position left ++ splicedFrom splices (position + left.length) right := by
  induction left generalizing position with
  | nil => rfl
  | cons letter rest ih =>
      have place : position + (letter :: rest).length = position + 1 + rest.length := by
        simp only [List.length_cons]
        omega
      rw [List.cons_append, splicedFrom, splicedFrom, ih, place, List.append_assoc]

theorem splicedFrom_of_uncovered {splices : List Splice} {position : Nat} (text : List Char)
    (clear : ∀ splice ∈ splices, position + text.length ≤ splice.start) :
    splicedFrom splices position text = text := by
  induction text generalizing position with
  | nil => rfl
  | cons letter rest ih =>
      simp only [List.length_cons] at clear
      have later : splicedFrom splices (position + 1) rest = rest := by
        refine ih fun splice member => ?_
        have place := clear splice member
        omega
      have here : Splice.become splices letter position = [letter] := by
        refine Splice.become_of_uncovered letter fun splice member => ?_
        have place := clear splice member
        omega
      rw [splicedFrom, later, here]
      rfl

theorem splicedFrom_of_covered {first : Splice} {position : Nat} (later : List Splice)
    (text : List Char) (start : first.start < position) (stop : position + text.length ≤ first.stop) :
    splicedFrom (first :: later) position text = [] := by
  induction text generalizing position with
  | nil => rfl
  | cons letter rest ih =>
      rw [List.length_cons] at stop
      rw [splicedFrom, ih (by omega) (by omega), Splice.become_of_covered _ _ (by omega),
        if_neg (Nat.ne_of_gt start)]
      rfl

theorem splicedFrom_of_behind {first : Splice} {position : Nat} (later : List Splice)
    (text : List Char) (behind : first.stop ≤ position) :
    splicedFrom (first :: later) position text = splicedFrom later position text := by
  induction text generalizing position with
  | nil => rfl
  | cons letter rest ih =>
      rw [splicedFrom, splicedFrom, ih (Nat.le_succ_of_le behind), Splice.become_of_behind _ _ behind]

@[simp] theorem spliced_nil (text : List Char) : spliced text [] = text :=
  splicedFrom_of_uncovered text (by simp)

theorem take_spliced {splices : List Splice} {text : List Char} {bound : Nat}
    (inside : bound ≤ text.length) (below : ∀ splice ∈ splices, bound ≤ splice.start) :
    (spliced text splices).take bound = text.take bound := by
  have size : (text.take bound).length = bound := List.length_take_of_le inside
  have clear : ∀ splice ∈ splices, 0 + (text.take bound).length ≤ splice.start := by
    intro splice member
    have place := below splice member
    omega
  conv_lhs => rw [← List.take_append_drop bound text, spliced, splicedFrom_append,
    splicedFrom_of_uncovered _ clear]
  exact List.take_left' size

theorem drop_spliced {splices : List Splice} {text : List Char} {bound : Nat}
    (inside : bound ≤ text.length) (below : ∀ splice ∈ splices, bound ≤ splice.start) :
    (spliced text splices).drop bound = splicedFrom splices bound (text.drop bound) := by
  have size : (text.take bound).length = bound := List.length_take_of_le inside
  have clear : ∀ splice ∈ splices, 0 + (text.take bound).length ≤ splice.start := by
    intro splice member
    have place := below splice member
    omega
  conv_lhs => rw [← List.take_append_drop bound text, spliced, splicedFrom_append,
    splicedFrom_of_uncovered _ clear, size, Nat.zero_add]
  exact List.drop_left' size

theorem spliced_cons {first : Splice} {later : List Splice} {text : List Char}
    (nonempty : first.start < first.stop) (inside : first.stop ≤ text.length)
    (below : ∀ splice ∈ later, first.stop ≤ splice.start) :
    spliced text (first :: later) =
      (spliced text later).take first.start ++ first.text ++ (spliced text later).drop first.stop := by
  have upper : ∀ splice ∈ first :: later, first.start ≤ splice.start := by
    intro splice member
    rcases List.mem_cons.mp member with rfl | member
    · exact Nat.le_refl _
    · exact Nat.le_trans (Nat.le_of_lt nonempty) (below splice member)
  have front : (spliced text later).take first.start = text.take first.start :=
    take_spliced (by omega) fun splice member => upper splice (List.mem_cons_of_mem _ member)
  have whole := List.take_append_drop first.start (spliced text (first :: later))
  rw [take_spliced (by omega) upper, drop_spliced (by omega) upper] at whole
  rw [← whole, front, drop_spliced inside below, List.append_assoc]
  congr 1
  -- The first letter of the stretch becomes its text, the others nothing, and the rest is as before.
  have start : first.start < text.length := by omega
  have parts : text.drop first.start = text[first.start] ::
      ((text.drop (first.start + 1)).take (first.stop - first.start - 1) ++ text.drop first.stop) := by
    have next : text.drop first.stop =
        (text.drop (first.start + 1)).drop (first.stop - first.start - 1) := by
      rw [List.drop_drop]
      congr 1
      omega
    rw [List.drop_eq_getElem_cons start, next, List.take_append_drop]
  have width : ((text.drop (first.start + 1)).take (first.stop - first.start - 1)).length =
      first.stop - first.start - 1 := by
    rw [List.length_take, List.length_drop]
    omega
  rw [parts, splicedFrom, Splice.become_of_covered _ _ ⟨Nat.le_refl _, nonempty⟩, if_pos rfl,
    splicedFrom_append, splicedFrom_of_covered _ _ (Nat.lt_succ_self _) (by omega),
    splicedFrom_of_behind _ _ (by omega), List.nil_append, width]
  congr 3
  omega

theorem starts_spliced {first : Splice} {later : List Splice} {text : List Char}
    (nonempty : first.start < first.stop) (inside : first.stop ≤ text.length)
    (below : ∀ splice ∈ later, first.stop ≤ splice.start) :
    first.text <+: (spliced text (first :: later)).drop first.start := by
  have front : (spliced text later).take first.start = text.take first.start :=
    take_spliced (by omega) fun splice member => Nat.le_trans (Nat.le_of_lt nonempty) (below splice member)
  have size : (text.take first.start).length = first.start := List.length_take_of_le (by omega)
  rw [spliced_cons nonempty inside below, front, List.append_assoc, List.drop_left' size]
  exact List.prefix_append _ _

end Unbroken
