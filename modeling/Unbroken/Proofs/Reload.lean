import Unbroken.Proofs.FileSystem.Written
import Unbroken.Proofs.Passes
import Unbroken.Proofs.Stale

/-! A template in memory is what would be loaded if it were saved. Its lines come from a text, or from mends
of breaks that were found in some text, which bring no line feeds along. -/

namespace Unbroken

def mendAll (template : Template) (rounds : List (List Break)) : Template :=
  rounds.foldl (fun known breaks => (mend known breaks).template) template

theorem mendAll_lined {template : Template} {rounds : List (List Break)}
    (proper : ∀ breaks ∈ rounds, ∀ broken ∈ breaks, broken.Proper) (lined : Lined template.lines) :
    Lined (mendAll template rounds).lines := by
  induction rounds generalizing template with
  | nil => exact lined
  | cons breaks rounds ih =>
      obtain ⟨first, others⟩ := List.forall_mem_cons.mp proper
      exact ih others (mend_lined first lined)

theorem Lined.ofText_text {template : Template} (lined : Lined template.lines) :
    Template.ofText template.text = template :=
  congrArg Template.mk lined.splitLines_joinLines

theorem FileSystem.loadTemplate_saveTemplate {files saved : FileSystem} {path : Path}
    {template : Template} (grounded : files.Grounded) (lined : Lined template.lines)
    (done : files.saveTemplate path template = .ok saved) :
    saved.loadTemplate path = .ok template := by
  rw [loadTemplate, read_write grounded (saveTemplate_eq_ok_iff.mp done)]
  exact congrArg Except.ok lined.ofText_text

/-- Texts and lines without line feeds are two forms of one thing. Whatever texts the breaks were found in
that are mended in a template, and in whatever order, it still has a line and none of its lines has a line
feed. So it is what its own text is read as, and what is loaded once it is saved, by any path. -/
theorem mendAll_reloads (text : List Char) :
    (Template.ofText text).text = text ∧
      (∀ lines : List (List Char), lines ≠ [] → (∀ line ∈ lines, '\n' ∉ line) →
        Template.ofText (Template.text ⟨lines⟩) = ⟨lines⟩) ∧
      ∀ rounds : List (List Break),
        (∀ breaks ∈ rounds, ∀ broken ∈ breaks, ∃ file source, broken ∈ breaksIn file source) →
        let left := mendAll (Template.ofText text) rounds
        left.lines ≠ [] ∧ (∀ line ∈ left.lines, '\n' ∉ line) ∧ Template.ofText left.text = left ∧
          ∀ (files saved : FileSystem) (path : Path), files.Grounded →
            files.saveTemplate path left = .ok saved → saved.loadTemplate path = .ok left := by
  refine ⟨joinLines_splitLines text, ?_, ?_⟩
  · intro lines nonempty flat
    have lined : Lined (Template.lines ⟨lines⟩) := ⟨nonempty, flat⟩
    exact lined.ofText_text
  · intro rounds found left
    have proper : ∀ breaks ∈ rounds, ∀ broken ∈ breaks, broken.Proper := by
      intro breaks listed broken member
      obtain ⟨file, source, here⟩ := found breaks listed broken member
      exact proper_of_mem_breaksIn here
    have lined : Lined left.lines := mendAll_lined proper (lined_splitLines text)
    refine ⟨lined.nonempty, lined.flat, lined.ofText_text, ?_⟩
    intro files saved path grounded done
    exact FileSystem.loadTemplate_saveTemplate grounded lined done

/-- A break of another text is mended twice in a text of four lines, which is then saved as a new file. -/
theorem mendAll_reloads_page :
    let text := "_(\"x\ny\")\nz\")\n".toList
    let other : Break := ⟨⟨"other"⟩, 1, 2, .double, "a b".toList, "_(\"a\nb\")".toList⟩
    let left := mendAll (Template.ofText text) [[other], [other]]
    other ∈ breaksIn ⟨"other"⟩ "_(\"a\nb\")".toList ∧ left.lines = ["_(\"a b\")".toList, []] ∧
      Template.ofText left.text = left ∧
      ∃ saved, (Check.onePage "x").saveTemplate ⟨"new.jinja"⟩ left = .ok saved ∧
        saved.loadTemplate ⟨"new.jinja"⟩ = .ok left := by
  intro text other left
  have found : other ∈ breaksIn ⟨"other"⟩ "_(\"a\nb\")".toList := by decide
  obtain ⟨-, -, run⟩ := mendAll_reloads text
  obtain ⟨-, -, same, reload⟩ := run [[other], [other]] (by
    intro breaks listed broken member
    obtain rfl : breaks = [other] := by simpa using listed
    obtain rfl := List.mem_singleton.mp member
    exact ⟨_, _, found⟩)
  have lines : left.lines = ["_(\"a b\")".toList, []] := by
    simp only [left, mendAll, List.foldl_cons, List.foldl_nil, mend, bottomUp_singleton]
    decide
  have vacant : (Check.onePage "x").locate .create ⟨"new.jinja"⟩ = .ok (.vacant ["new.jinja"]) := rfl
  obtain ⟨saved, done⟩ : ∃ saved,
      (Check.onePage "x").saveTemplate ⟨"new.jinja"⟩ left = .ok saved := by
    rw [FileSystem.saveTemplate, FileSystem.write, FileSystem.writeBytes, vacant]
    exact ⟨_, rfl⟩
  exact ⟨found, lines, same, saved, done, reload _ saved _ ⟨_, rfl⟩ done⟩

end Unbroken
