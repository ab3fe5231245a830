import Unbroken.Proofs.InPlace
import Unbroken.Proofs.Seam

/-! Breaks that are mended a second time, in the text that the first time left. Their line numbers are
those of the old text, so they point at lines from further below. A break is passed over the second time
if these lack its markers, but there may be markers of other messages. -/

namespace Unbroken

theorem mem_bottomUp {breaks : List Break} {broken : Break} :
    broken ∈ bottomUp breaks ↔ broken ∈ breaks :=
  List.mem_mergeSort

section

variable {template : Template} {breaks : List Break}

theorem mend_lined (proper : ∀ broken ∈ breaks, broken.Proper) (lined : Lined template.lines) :
    Lined (mend template breaks).template.lines := by
  have mends := mends_mend template breaks
  apply mends.lined _ lined
  intro broken member
  exact (proper broken (mem_bottomUp.mp (mends.sublist.subset member))).flat

theorem mend_count_eq_zero_iff (proper : ∀ broken ∈ breaks, broken.Proper) (template : Template) :
    (mend template breaks).count = 0 ↔ ∀ broken ∈ breaks, broken.markedIn template.lines = false := by
  have missing : ∀ broken ∈ breaks,
      (unite? broken template.lines = none ↔ broken.markedIn template.lines = false) :=
    fun broken member => unite?_eq_none_iff (proper broken member) _
  rw [mend]
  rcases Mended.foldl_step_cases { template := template, count := 0 } (bottomUp breaks) with
    ⟨idle, same⟩ | ⟨⟨broken, member, found⟩, more⟩
  · rw [same]
    refine iff_of_true rfl ?_
    intro broken member
    exact (missing broken member).mp (idle broken (mem_bottomUp.mpr member))
  · refine iff_of_false (Nat.ne_of_gt more) ?_
    intro unmarked
    have known := mem_bottomUp.mp member
    exact found ((missing broken known).mpr (unmarked broken known))

theorem mend_text_eq_iff (proper : ∀ broken ∈ breaks, broken.Proper) (lined : Lined template.lines) :
    (mend template breaks).template.text = template.text ↔ (mend template breaks).count = 0 := by
  constructor
  · intro same
    have lines : (mend template breaks).template.lines = template.lines := by
      rw [← (mend_lined proper lined).splitLines_joinLines, ← lined.splitLines_joinLines]
      exact congrArg splitLines same
    have size : (mend template breaks).template.lines.length + (mend template breaks).count ≤
        template.lines.length + 0 :=
      Mended.length_foldl_step_le (fun broken member => proper broken (mem_bottomUp.mp member)) _
    rw [lines] at size
    omega
  · intro idle
    rcases Mended.foldl_step_cases { template := template, count := 0 } (bottomUp breaks) with
      ⟨-, same⟩ | ⟨-, more⟩
    · rw [mend, same]
    · rw [mend] at idle
      exact absurd idle (Nat.ne_of_gt more)

end

/-- The breaks of a text that were mended are all passed over a second time, and leave the text as it is,
just if there is none whose first and last line, in the text as it is by then, hold its two markers. -/
theorem mend_again_idle_iff (file : Path) (text : List Char) :
    let breaks := breaksIn file text
    let after := (mend (Template.ofText text) breaks).template
    let again := mend after breaks
    (again.count = 0 ↔ ∀ broken ∈ breaks, broken.markedIn after.lines = false) ∧
      (again.template.text = after.text ↔ ∀ broken ∈ breaks, broken.markedIn after.lines = false) := by
  intro breaks after again
  have proper : ∀ broken ∈ breaks, broken.Proper := fun broken => proper_of_mem_breaksIn
  have lined : Lined after.lines := mend_lined proper (lined_splitLines text)
  have idle := mend_count_eq_zero_iff proper after
  exact ⟨idle, (mend_text_eq_iff proper lined).trans idle⟩

/-- A message is lost that stands below a mended one, as the second time it is taken for its end. -/
theorem mend_again_loses_message :
    let text := "_(\"a\nb\")\n_(\"c\")".toList
    let breaks := breaksIn ⟨"page"⟩ text
    let after := (mend (Template.ofText text) breaks).template
    let again := mend after breaks
    after.text = "_(\"a b\")\n_(\"c\")".toList ∧ again.count = 1 ∧
      again.template.text = "_(\"a b\")".toList := by
  simp only [mend, bottomUp_eq_reverse (breaksIn_ascending _ _)]
  decide

end Unbroken
