import Unbroken.Proofs.Seam

/-! How lines end. A mended break leaves the end of its last line where it is, behind the closing marker,
and takes the ends of the lines above it away. So carriage returns stay on the lines that keep their
ends, and a text that ends with a line feed still does. -/

namespace Unbroken

def endings (lines : List (List Char)) : List (Option Char) :=
  lines.map List.getLast?

theorem dropLast_endings (lines : List (List Char)) :
    (endings lines).dropLast = lines.dropLast.map List.getLast? :=
  List.map_dropLast.symm

theorem getLast?_endings {lines : List (List Char)} (nonempty : lines ≠ []) :
    (endings lines).getLast? = some (lines.getLast nonempty).getLast? := by
  rw [endings, List.getLast?_map, List.getLast?_eq_some_getLast nonempty, Option.map_some]

/-- Lines that end as others do, of which some are left out, but not the last one. -/
structure SameEnds (left lines : List (List Char)) : Prop where
  text : (joinLines left).getLast? = (joinLines lines).getLast?
  last : (endings left).getLast? = (endings lines).getLast?
  others : (endings left).dropLast.Sublist (endings lines).dropLast

theorem SameEnds.refl (lines : List (List Char)) : SameEnds lines lines :=
  ⟨rfl, rfl, .refl _⟩

theorem SameEnds.trans {left middle lines : List (List Char)} (lower : SameEnds left middle)
    (upper : SameEnds middle lines) : SameEnds left lines where
  text := lower.text.trans upper.text
  last := lower.last.trans upper.last
  others := lower.others.trans upper.others

namespace Seam

variable {broken : Break} {lines : List (List Char)} (seam : Seam broken lines)

def behind : List Char :=
  broken.quote.closer ++ seam.after

theorem behind_ne_nil : seam.behind ≠ [] := by
  cases broken.quote <;> simp [behind, Quote.closer]

theorem getLast?_append_behind (front : List Char) :
    (front ++ seam.behind).getLast? = seam.behind.getLast? :=
  List.getLast?_append_of_ne_nil front seam.behind_ne_nil

theorem parts_behind : lines = seam.upper ++ seam.spanned ++ (seam.head ++ seam.behind) :: seam.lower := by
  have last := cut_append seam.closes
  rw [List.append_assoc] at last
  rw [behind, ← last, List.append_assoc]
  exact seam.parts

theorem united_behind : seam.united =
    seam.upper ++ (seam.before ++ broken.quote.opener ++ broken.text ++ seam.behind) :: seam.lower := by
  simp only [united, behind, List.append_assoc]

theorem getLast?_joinLines_united :
    (joinLines seam.united).getLast? = (joinLines lines).getLast? := by
  have nonempty : joinLines (seam.behind :: seam.lower) ≠ [] := by
    have parts := joinLines_append_head seam.behind [] seam.lower
    rw [List.append_nil] at parts
    rw [parts]
    exact List.append_ne_nil_of_left_ne_nil seam.behind_ne_nil _
  have ending : ∀ upper front, (joinLines (upper ++ (front ++ seam.behind) :: seam.lower)).getLast? =
      (joinLines (seam.behind :: seam.lower)).getLast? := by
    intro upper front
    rw [joinLines_append_cons, joinLines_append_head, ← List.append_assoc,
      List.getLast?_append_of_ne_nil _ nonempty]
  rw [united_behind, ending]
  conv_rhs => rw [seam.parts_behind, ending]

theorem endings_united :
    endings seam.united = endings seam.upper ++ seam.behind.getLast? :: endings seam.lower := by
  simp only [united_behind, endings, List.map_append, List.map_cons, getLast?_append_behind]

theorem endings_eq : endings lines =
    endings seam.upper ++ (endings seam.spanned ++ seam.behind.getLast? :: endings seam.lower) := by
  conv_lhs => rw [seam.parts_behind]
  simp only [endings, List.map_append, List.map_cons, getLast?_append_behind, List.append_assoc]

theorem sameEnds : SameEnds seam.united lines where
  text := seam.getLast?_joinLines_united
  last := by
    rw [seam.endings_eq, seam.endings_united]
    simp only [List.getLast?_append_of_ne_nil, ne_eq, reduceCtorEq, not_false_eq_true,
      List.append_eq_nil_iff, and_false]
  others := by
    rw [seam.endings_eq, seam.endings_united, List.dropLast_append_of_ne_nil (by simp),
      List.dropLast_append_of_ne_nil (by simp), List.dropLast_append_of_ne_nil (by simp)]
    exact (List.Sublist.refl _).append (List.sublist_append_right _ _)

end Seam

theorem Mends.sameEnds {lines left : List (List Char)} {breaks mended : List Break}
    (mends : Mends lines breaks mended left) : SameEnds left lines := by
  induction mends with
  | done => exact .refl _
  | passes _ _ ih => exact ih
  | unites seam _ ih => exact ih.trans seam.sameEnds

/-- Line ends survive a mend, of whatever breaks. -/
theorem mend_keeps_endings {breaks : List Break} (flat : ∀ broken ∈ breaks, '\n' ∉ broken.text)
    (text : List Char) :
    let after := (mend (Template.ofText text) breaks).template.text
    (after.getLast? = some '\n' ↔ text.getLast? = some '\n') ∧
      ((∀ line ∈ (splitLines text).dropLast, line.getLast? = some '\r') →
        ∀ line ∈ (splitLines after).dropLast, line.getLast? = some '\r') ∧
      (((splitLines after).getLast (splitLines_ne_nil _)).getLast? = some '\r' ↔
        ((splitLines text).getLast (splitLines_ne_nil _)).getLast? = some '\r') := by
  intro after
  have mends := mends_mend (Template.ofText text) breaks
  have same : SameEnds (mend (Template.ofText text) breaks).template.lines (splitLines text) := mends.sameEnds
  have split : splitLines after = (mend (Template.ofText text) breaks).template.lines := by
    apply Lined.splitLines_joinLines
    apply mends.lined _ (lined_splitLines text)
    intro broken member
    exact flat broken (List.mem_mergeSort.mp (mends.sublist.subset member))
  rw [← split] at same
  refine ⟨?_, ?_, ?_⟩
  · have last := same.text
    rw [joinLines_splitLines, joinLines_splitLines] at last
    rw [last]
  · intro returns line member
    have others := same.others
    rw [dropLast_endings, dropLast_endings] at others
    obtain ⟨before, known, ending⟩ := List.mem_map.mp (others.subset (List.mem_map_of_mem member))
    rw [← ending]
    exact returns before known
  · have last := same.last
    rw [getLast?_endings (splitLines_ne_nil _), getLast?_endings (splitLines_ne_nil _)] at last
    rw [Option.some.inj last]

/-- A mended break in a text whose lines all end with carriage returns, but for the empty last one. -/
theorem mend_keeps_endings_page :
    let text := "a\r\n_(\"b\r\nc\")\r\nd\r\n".toList
    let broken : Break := ⟨⟨"page"⟩, 2, 3, .double, "b c".toList, []⟩
    let after := (mend (Template.ofText text) [broken]).template.text
    after = "a\r\n_(\"b c\")\r\nd\r\n".toList ∧ after.getLast? = some '\n' ∧
      (∀ line ∈ (splitLines after).dropLast, line.getLast? = some '\r') ∧
      ((splitLines after).getLast (splitLines_ne_nil _)).getLast? ≠ some '\r' := by
  intro text broken after
  have flat : ∀ other ∈ [broken], '\n' ∉ other.text := by decide
  obtain ⟨newline, returns, last⟩ := mend_keeps_endings flat text
  refine ⟨?_, newline.mpr (by decide), returns (by decide), mt last.mp (by decide)⟩
  simp only [after, mend, bottomUp_singleton]
  decide

end Unbroken
