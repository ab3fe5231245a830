import Unbroken.Proofs.Passes

/-! The verdict and the files that are left. A check ends in several ways, after more or fewer surveys
and writes, and some of its saves may be refused, but the breaks that it counts as remaining are always
those that a survey of the files as they are left would find. The reason is that a pass without a mended
file has written nothing. -/

namespace Unbroken

/-- What a verdict tells about the breaks that are left. -/
def Verdict.Tells (verdict : Verdict) (left : List Break) : Prop :=
  match verdict with
  | .clean | .mended => left = []
  | .failed (.broken count) | .failed (.unmended count) => left.length = count ∧ 0 < count

namespace Check

theorem foldl_mendGroup_cases (around : Surroundings) (all : List (List Break)) (pass : Pass) :
    all.foldl (mendGroup around) pass = pass ∨
      pass.mended.length < (all.foldl (mendGroup around) pass).mended.length := by
  induction all generalizing pass with
  | nil => exact Or.inl rfl
  | cons group later ih =>
      rw [List.foldl_cons]
      rcases mendGroup_cases around pass group with idle | ⟨broken, others, files, -, -, -, mended⟩
      · rw [idle]
        exact ih pass
      · right
        have longer : pass.mended.length < (mendGroup around pass group).mended.length := by
          rw [mended, List.length_append]
          exact Nat.lt_succ_self _
        rcases ih (mendGroup around pass group) with same | more
        · rw [same]
          exact longer
        · exact longer.trans more

theorem progress_mendFiles_of_mended_eq_nil {around : Surroundings} {progress : Progress}
    {breaks : List Break} (nothing : (mendFiles around progress breaks).mended = []) :
    (mendFiles around progress breaks).progress = progress := by
  rw [mendFiles] at nothing ⊢
  rcases foldl_mendGroup_cases around (groups breaks) { progress := progress, mended := [] } with
    idle | mended
  · rw [idle]
  · rw [nothing] at mended
    exact absurd mended (Nat.not_lt_zero _)

theorem mendFiles_of_refused {refuses : Refusals} (refused : ∀ progress path, refuses progress path ≠ none)
    (progress : Progress) (breaks : List Break) :
    mendFiles (.silent refuses) progress breaks = { progress := progress, mended := [] } := by
  have idle : ∀ pass group, mendGroup (.silent refuses) pass group = pass := by
    intro pass group
    rcases mendGroup_cases (.silent refuses) pass group with idle | ⟨broken, others, files, -, allowed, -⟩
    · exact idle
    · exact absurd allowed (refused pass.progress broken.file)
  rw [mendFiles]
  induction groups breaks with
  | nil => rfl
  | cons group later ih => rw [List.foldl_cons, idle, ih]

theorem conclude_tells {lists : FileSystem → List Path} (refuses : Refusals) (first : Overview)
    {mending : Mending} (fresh : mending.remaining =
      (surveyFiles mending.progress.files (lists mending.progress.files)).breaks) :
    let (progress, report) := conclude (.silent refuses) first mending
    report.verdict.Tells (surveyFiles progress.files (lists progress.files)).breaks := by
  rw [conclude]
  by_cases clean : mending.remaining = []
  · rw [if_pos (List.isEmpty_iff.mpr clean)]
    exact fresh.symm.trans clean
  · rw [if_neg (mt List.isEmpty_iff.mp clean), Progress.tellAll_silent]
    exact ⟨congrArg List.length fresh.symm, List.length_pos_iff.mpr clean⟩

section

variable {source : Source} {lists : FileSystem → List Path} (refuses : Refusals)
  (steady : ∀ round files, source.list round files = .ok (lists files))

include steady

theorem mendPasses_afresh (left : Nat) {mending : Mending}
    (fresh : mending.remaining =
      (surveyFiles mending.progress.files (lists mending.progress.files)).breaks) :
    ∃ done, mendPasses source (.silent refuses) left mending = .ok done ∧
      done.remaining = (surveyFiles done.progress.files (lists done.progress.files)).breaks := by
  induction left generalizing mending with
  | zero => exact ⟨mending, rfl, fresh⟩
  | succ left ih =>
      rw [mendPasses]
      simp only [steady, Progress.tellAll_silent]
      split_ifs with idle clean
      · refine ⟨_, rfl, ?_⟩
        simp only [progress_mendFiles_of_mended_eq_nil (List.isEmpty_iff.mp idle)]
        exact fresh
      · exact ⟨_, rfl, rfl⟩
      · exact ih rfl

theorem run_of_nothing_found (options : Options) {files : FileSystem}
    (nothing : (surveyFiles files (lists files)).breaks = []) :
    ∃ told report, run source (.silent refuses) options files =
        .ok ({ files := files, told := told }, report) ∧ report.verdict = .clean := by
  simp only [run, steady, nothing, List.isEmpty_nil, if_true]
  exact ⟨_, _, rfl, rfl⟩

theorem run_tells (options : Options) (files : FileSystem) :
    ∃ progress report, run source (.silent refuses) options files = .ok (progress, report) ∧
      report.verdict.Tells (surveyFiles progress.files (lists progress.files)).breaks ∧
      (options.fix = false → progress.files = files) := by
  by_cases nothing : (surveyFiles files (lists files)).breaks = []
  · obtain ⟨told, report, done, clean⟩ := run_of_nothing_found refuses steady options nothing
    refine ⟨_, report, done, ?_, fun _ => rfl⟩
    rw [clean]
    exact nothing
  · rw [run]
    simp only [steady, if_neg (mt List.isEmpty_iff.mp nothing), Progress.tellAll_silent]
    by_cases fix : options.fix = true
    · have start : ∀ told, (Mending.mk (Progress.mk files told) 0 []
          (surveyFiles files (lists files)).breaks).remaining =
            (surveyFiles files (lists files)).breaks := fun _ => rfl
      obtain ⟨done, passes, fresh⟩ := mendPasses_afresh refuses steady (max 1 options.maxPasses)
        (start ([] ++ listing (surveyFiles files (lists files)).breaks ++
          [.info "Attempting to auto-fix...\n"]))
      rw [if_pos fix, Progress.tell_silent, passes]
      exact ⟨_, _, rfl, conclude_tells refuses _ fresh, fun off => absurd (fix.symm.trans off) (by decide)⟩
    · rw [if_neg fix]
      exact ⟨_, _, rfl, ⟨rfl, List.length_pos_iff.mpr nothing⟩, fun _ => rfl⟩

/-- If every save is refused, the first pass mends nothing and is the last one. -/
theorem run_of_refused (refused : ∀ progress path, refuses progress path ≠ none) (maxPasses : Nat)
    {files : FileSystem} (found : (surveyFiles files (lists files)).breaks ≠ []) :
    ∃ told report, run source (.silent refuses) { fix := true, maxPasses := maxPasses } files =
        .ok ({ files := files, told := told }, report) ∧
      report.verdict = .failed (.unmended (surveyFiles files (lists files)).breaks.length) ∧
      report.tally.passes = 1 ∧ report.mendedFiles = [] := by
  obtain ⟨later, most⟩ : ∃ later, max 1 maxPasses = later + 1 :=
    ⟨max 1 maxPasses - 1, by omega⟩
  have unclean := mt List.isEmpty_iff.mp found
  simp only [run, steady, if_neg unclean, Progress.tellAll_silent, Progress.tell_silent, most, mendPasses,
    mendFiles_of_refused refused, List.isEmpty_nil, if_true, Except.map, conclude]
  exact ⟨_, _, rfl, rfl, rfl, rfl⟩

end

/-- After a check on a search or on fixed paths, whatever files cannot be read and whatever saves are
refused, a new survey finds nothing if the verdict is a success, and else as many breaks as the verdict
says, some at least. A check after a success finds nothing and changes nothing, and no check changes files
unless it is asked to mend them. -/
theorem run_verdict_afresh {source : Source}
    (plain : (∃ search, source = .search search) ∨ ∃ paths, source = .fixed paths)
    (refuses : Refusals) (options : Options) (files : FileSystem) :
    ∃ progress report, run source (.silent refuses) options files = .ok (progress, report) ∧
      (∃ paths, (∀ round, source.list round progress.files = .ok paths) ∧
        report.verdict.Tells (surveyFiles progress.files paths).breaks) ∧
      (report.verdict = .clean ∨ report.verdict = .mended →
        ∀ (refusesLater : Refusals) (again : Options),
          ∃ told later, run source (.silent refusesLater) again progress.files =
              .ok ({ files := progress.files, told := told }, later) ∧ later.verdict = .clean) ∧
      (options.fix = false → progress.files = files) := by
  obtain ⟨lists, steady⟩ : ∃ lists : FileSystem → List Path,
      ∀ round files, source.list round files = .ok (lists files) := by
    rcases plain with ⟨search, rfl⟩ | ⟨paths, rfl⟩
    · exact ⟨search.files, fun _ _ => rfl⟩
    · exact ⟨fun _ => paths, fun _ _ => rfl⟩
  obtain ⟨progress, report, done, tells, kept⟩ := run_tells refuses steady options files
  refine ⟨progress, report, done, ⟨lists progress.files, fun round => steady round _, tells⟩, ?_, kept⟩
  intro success refusesLater again
  refine run_of_nothing_found refusesLater steady again ?_
  rcases success with clean | mended
  · rwa [clean] at tells
  · rwa [mended] at tells

/-- A page that cannot be saved at first. The check that is refused leaves it as it was and says that its
break remains; a check that is not refused mends it, and any check after that finds nothing. -/
theorem run_verdict_afresh_page :
    let before := onePage "_(\"a\nb\")"
    let after := onePage "_(\"a b\")"
    let locked : Refusals := fun _ _ => some .notPermitted
    let mending : Options := { fix := true, maxPasses := 2 }
    ((∃ search, Source.search pages = .search search) ∨ ∃ paths, Source.search pages = .fixed paths) ∧
      (∃ told report, run (.search pages) (.silent locked) mending before =
          .ok ({ files := before, told := told }, report) ∧
        report.verdict = .failed (.unmended 1) ∧
        (surveyFiles before (pages.files before)).breaks.length = 1) ∧
      (∃ told report, run (.search pages) (.silent .never) mending before =
          .ok ({ files := after, told := told }, report) ∧ report.verdict = .mended) ∧
      (surveyFiles after (pages.files after)).breaks = [] ∧
      ∀ refuses again, ∃ told later, run (.search pages) (.silent refuses) again after =
        .ok ({ files := after, told := told }, later) ∧ later.verdict = .clean := by
  intro before after locked mending
  have plain : (∃ search, Source.search pages = .search search) ∨
      ∃ paths, Source.search pages = .fixed paths := Or.inl ⟨pages, rfl⟩
  have broken : ¬ Clean "_(\"a\nb\")".toList := by decide
  have once : mendOnce "_(\"a\nb\")".toList = "_(\"a b\")".toList := by
    rw [mendOnce_eq]
    decide
  -- One break is found in the page, so a refused check has one to report.
  have found : (surveyFiles before (pages.files before)).breaks.length = 1 := by
    rw [surveyFiles, Break.sorted, List.length_mergeSort, files_pages_onePage]
    rfl
  have steady : ∀ round files, (Source.search pages).list round files = .ok (pages.files files) :=
    fun _ _ => rfl
  have refused : ∀ progress path, locked progress path ≠ none := fun _ _ => Option.some_ne_none _
  obtain ⟨told, report, done, unmended, -⟩ := run_of_refused locked steady refused 2
    (List.ne_nil_of_length_pos (found ▸ Nat.one_pos))
  rw [found] at unmended
  obtain ⟨toldLater, later, doneLater, mended, -⟩ := run_onePage broken once (by decide)
  obtain ⟨progress, known, same, ⟨paths, listed, tells⟩, settled, -⟩ :=
    run_verdict_afresh plain .never mending before
  rw [doneLater, Except.ok.injEq, Prod.mk.injEq] at same
  obtain ⟨rfl, rfl⟩ := same
  obtain rfl : pages.files after = paths := Except.ok.inj (listed 1)
  rw [mended] at tells
  exact ⟨plain, ⟨told, report, done, unmended, found⟩, ⟨toldLater, later, doneLater, mended⟩, tells,
    settled (Or.inr mended)⟩

end Check

end Unbroken
