import Unbroken.Proofs.Passes

/-! Sizes in bytes. A pass leaves letters out and writes spaces for blanks, and a space takes one byte as
no letter takes less. So no pass makes a text larger, and no file that is small enough to be listed
becomes too large for the next list. -/

namespace Unbroken

theorem size_mendOnce_iterate_le (passes : Nat) (text : List Char) :
    (String.ofList (mendOnce^[passes] text)).toUTF8.size ≤ (String.ofList text).toUTF8.size :=
  (mendOnce_iterate_sheds passes text).size_le

/-- A pass makes no text larger. A file of a size that is accepted is therefore accepted after any number
of passes over its text, and after passes over all listed files the same files are listed. -/
theorem size_mend_le (file : Path) (text : List Char) :
    (String.ofList (mend (Template.ofText text) (breaksIn file text)).template.text).toUTF8.size ≤
        (String.ofList text).toUTF8.size ∧
      ∀ (search : Search) (passes : Nat),
        (∀ path, search.accepts path (String.ofList text).toUTF8.size →
          search.accepts path (String.ofList (mendOnce^[passes] text)).toUTF8.size) ∧
        ∀ files : FileSystem, files.top.Sound →
          search.files (search.stage files passes) = search.files files := by
  constructor
  · rw [mend_breaksIn_default]
    exact size_mendOnce_iterate_le 1 text
  · intro search passes
    constructor
    · intro path accepted
      exact Search.accepts_of_le accepted (size_mendOnce_iterate_le passes text)
    · intro files sound
      exact files_stage search sound passes

theorem Check.files_onePage {limit : Option Nat} {text : String}
    (accepted : { pages with maxFileSize := limit }.accepts ⟨"./page.jinja"⟩ text.toUTF8.size) :
    { pages with maxFileSize := limit }.files (onePage text) = [⟨"./page.jinja"⟩] := by
  have located : (onePage text).locate .inspect pages.root = .ok (.folder []) := rfl
  have top : (onePage text).top.at? [] =
      some (.folder (.file "page.jinja" text.toUTF8 .empty)) := rfl
  have path : pages.root.join "page.jinja" = ⟨"./page.jinja"⟩ := rfl
  rw [Search.files, Search.candidates_eq, located]
  simp only [Search.inside, top, Search.below, path, accepted, if_true, List.mergeSort_singleton]

/-- A file of eight bytes, under a limit of eight bytes. -/
theorem size_mend_le_page :
    let text := "_(\"a\nb\")"
    let search : Search := { Check.pages with maxFileSize := some 8 }
    search.files (Check.onePage text) = [⟨"./page.jinja"⟩] ∧
      search.files (search.stage (Check.onePage text) 3) = [⟨"./page.jinja"⟩] ∧
      search.accepts ⟨"./page.jinja"⟩ (String.ofList (mendOnce^[3] text.toList)).toUTF8.size := by
  intro text search
  have size : (String.ofList text.toList).toUTF8.size = 8 := by
    rw [size_toUTF8_ofList]
    decide
  have accepted : search.accepts ⟨"./page.jinja"⟩ (String.ofList text.toList).toUTF8.size = true := by
    rw [size]
    rfl
  have first : search.files (Check.onePage text) = [⟨"./page.jinja"⟩] := by
    apply Check.files_onePage
    rwa [String.ofList_toList] at accepted
  obtain ⟨-, kept⟩ := size_mend_le ⟨"./page.jinja"⟩ text.toList
  obtain ⟨still, listed⟩ := kept search 3
  exact ⟨first, (listed _ (Check.onePage_sound text)).trans first, still _ accepted⟩

end Unbroken
