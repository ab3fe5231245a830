import Unbroken.Proofs.Kept
import Unbroken.Proofs.Grouped
import Unbroken.Proofs.Passes

/-! Orders that make no difference. A survey sorts its breaks by file and line, and between breaks of
different paths, or of one file, there are no ties. It therefore finds the same in whatever order the
files are listed, and a check as a whole never learns of that order. A mend sorts its breaks too, so the
order in which they are given counts only between those that start on one line. -/

namespace Unbroken

def Different (paths : List Path) : Prop :=
  paths.Pairwise fun left right => left.same right = false

instance (paths : List Path) : Decidable (Different paths) :=
  inferInstanceAs (Decidable (paths.Pairwise _))

theorem Different.eq_of_same {paths : List Path} (different : Different paths) {left right : Path}
    (leftMember : left ∈ paths) (rightMember : right ∈ paths)
    (same : left.components = right.components) : left = right := by
  by_contra other
  have apart : left.same right = false := by
    have turns : Std.Symm fun first second : Path => first.same second = false := by
      constructor
      intro first second differ
      rw [Bool.eq_false_iff, ne_eq, Path.same_iff] at differ ⊢
      exact fun turned => differ turned.symm
    exact different.forall leftMember rightMember other
  rw [(Path.same_iff _ _).mpr same] at apart
  cases apart

theorem Break.eq_of_order_eq {left right : Break} (same : Break.order left right = .eq) :
    left.file.components = right.file.components ∧ left.firstLine = right.firstLine := by
  rw [Break.order, Ordering.then_eq_eq, Ordering.then_eq_eq] at same
  obtain ⟨⟨file, first⟩, -⟩ := same
  constructor
  · exact (Path.order_eq_iff _ _).mp file
  · exact Nat.compare_eq_eq.mp first

namespace Check

variable {files : FileSystem} {paths permuted : List Path}

theorem eq_of_mem_surveyed (different : Different paths) {left right : Break}
    (leftMember : left ∈ (paths.filterMap fun path => (files.breaksOf path).toOption).flatten)
    (rightMember : right ∈ (paths.filterMap fun path => (files.breaksOf path).toOption).flatten)
    (below : (Break.order left right).isLE = true) (above : (Break.order right left).isLE = true) :
    left = right := by
  have level : Break.order left right = .eq := Std.OrientedCmp.isLE_antisymm below above
  obtain ⟨file, line⟩ := Break.eq_of_order_eq level
  obtain ⟨path, listed, text, given, here⟩ := (mem_surveyed_iff _ _ _).mp leftMember
  obtain ⟨other, known, words, read, there⟩ := (mem_surveyed_iff _ _ _).mp rightMember
  rw [file_of_mem_breaksIn here, file_of_mem_breaksIn there] at file
  obtain rfl := different.eq_of_same listed known file
  obtain rfl : text = words := Except.ok.inj (given.symm.trans read)
  exact eq_of_firstLine_eq here there line

theorem surveyFiles_of_perm (different : Different paths) (perm : paths.Perm permuted)
    (files : FileSystem) : surveyFiles files paths = surveyFiles files permuted := by
  have found := perm.filterMap fun path => (files.breaksOf path).toOption
  have breaks : Break.sorted (paths.filterMap fun path => (files.breaksOf path).toOption).flatten =
      Break.sorted (permuted.filterMap fun path => (files.breaksOf path).toOption).flatten := by
    refine List.Perm.eq_of_pairwise ?_ (Break.sorted_pairwise _) (Break.sorted_pairwise _) ?_
    · intro left right leftMember rightMember below above
      have rightFound := found.flatten.mem_iff.mpr (List.mem_mergeSort.mp rightMember)
      exact eq_of_mem_surveyed different (List.mem_mergeSort.mp leftMember) rightFound below above
    · calc Break.sorted _
        _ |>.Perm _ := List.mergeSort_perm _ _
        _ |>.Perm _ := found.flatten
        _ |>.Perm _ := (List.mergeSort_perm _ _).symm
  rw [surveyFiles, surveyFiles]
  simp only [breaks, found.length_eq]

/-- A check on a list of different paths comes to the same in whatever order they are listed, also if
some of them lead to the same file: the report, the messages and the files that are left are the same,
and whoever listens hears them in the same order. -/
theorem run_of_perm (different : Different paths) (perm : paths.Perm permuted) (around : Surroundings)
    (options : Options) (files : FileSystem) :
    ∃ progress report, run (.fixed paths) around options files = .ok (progress, report) ∧
      run (.fixed permuted) around options files = .ok (progress, report) := by
  have kept : Kept around fun _ => True := ⟨fun _ _ _ => trivial, fun _ _ _ _ _ _ => trivial⟩
  refine run_congr kept ?_ options trivial
  intro round later _
  exact ⟨paths, permuted, rfl, rfl, surveyFiles_of_perm different perm later⟩

/-- Two different paths to one page, whose break is found by either. -/
theorem run_of_perm_page :
    let page := onePage "_(\"a\nb\")"
    let plain : Path := ⟨"page.jinja"⟩
    let dotted : Path := ⟨"./page.jinja"⟩
    Different [plain, dotted] ∧ [plain, dotted].Perm [dotted, plain] ∧
      page.place? plain = page.place? dotted ∧
      (surveyFiles page [plain, dotted]).breaks.length = 2 ∧
      ∃ progress report,
        run (.fixed [plain, dotted]) .quiet { fix := true, maxPasses := 2 } page =
          .ok (progress, report) ∧
        run (.fixed [dotted, plain]) .quiet { fix := true, maxPasses := 2 } page =
          .ok (progress, report) := by
  intro page plain dotted
  have different : Different [plain, dotted] := by decide
  have perm : [plain, dotted].Perm [dotted, plain] := List.Perm.swap dotted plain []
  have place : (onePage "_(\"a\nb\")").place? ⟨"page.jinja"⟩ =
      (onePage "_(\"a\nb\")").place? ⟨"./page.jinja"⟩ := rfl
  have both : (surveyFiles (onePage "_(\"a\nb\")")
      [⟨"page.jinja"⟩, ⟨"./page.jinja"⟩]).breaks.length = 2 := by
    rw [surveyFiles, Break.sorted, List.length_mergeSort]
    rfl
  refine ⟨different, perm, place, both, ?_⟩
  exact run_of_perm different perm .quiet { fix := true, maxPasses := 2 } page

end Check

theorem bottomUp_reordered {breaks permuted : List Break} (perm : breaks.Perm permuted)
    (distinct : breaks.Pairwise fun left right => left.firstLine ≠ right.firstLine) :
    bottomUp breaks = bottomUp permuted := by
  have sorted : (bottomUp breaks).Perm breaks := List.mergeSort_perm _ _
  have same : (bottomUp breaks).Perm (bottomUp permuted) :=
    sorted.trans (perm.trans (List.mergeSort_perm _ _).symm)
  have lines : (breaks.map Break.firstLine).Nodup := List.pairwise_map.mpr distinct
  exact eq_of_descending same ((sorted.map Break.firstLine).nodup_iff.mpr lines)
    (bottomUp_sorted breaks) (bottomUp_sorted permuted)

/-- Breaks that start on different lines, found in the template or not, are mended with the same result in
whatever order they are given. -/
theorem mend_reordered {breaks permuted : List Break} (perm : breaks.Perm permuted)
    (distinct : breaks.Pairwise fun left right => left.firstLine ≠ right.firstLine)
    (template : Template) : mend template breaks = mend template permuted := by
  rw [mend, mend, bottomUp_reordered perm distinct]

/-- Two breaks that end on one line. Mended in the order in which they are given, one of them would be
passed over and the lines would differ. -/
theorem mend_reordered_page :
    let page := Template.ofText "_(\"a\n_(\"b\nc\")\nd\")".toList
    let outer : Break := ⟨⟨"page"⟩, 1, 3, .double, "a _(\"b c".toList, []⟩
    let inner : Break := ⟨⟨"page"⟩, 2, 3, .double, "b c".toList, []⟩
    [outer, inner].Perm [inner, outer] ∧ outer.firstLine ≠ inner.firstLine ∧
      [outer, inner].foldl Mended.step ⟨page, 0⟩ ≠ [inner, outer].foldl Mended.step ⟨page, 0⟩ ∧
      mend page [outer, inner] = mend page [inner, outer] := by
  intro page outer inner
  have perm : [outer, inner].Perm [inner, outer] := List.Perm.swap inner outer []
  exact ⟨perm, by decide, by decide, mend_reordered perm (by decide) page⟩

end Unbroken
