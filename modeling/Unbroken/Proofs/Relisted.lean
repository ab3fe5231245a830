import Unbroken.Proofs.FixedList

/-! Paths that a list repeats. It does no harm to list a file again if its breaks are spent when they were
mended; otherwise text behind them may be lost. -/

namespace Unbroken

def onceEach (paths : List Path) : List Path :=
  paths.eraseDupsBy Path.same

theorem onceEach_cons (path : Path) (paths : List Path) : onceEach (path :: paths) =
    path :: onceEach (paths.filter fun other => other.same path = false) :=
  List.eraseDupsBy_cons

theorem onceEach_induction {motive : List Path → Prop} (nil : motive [])
    (cons : ∀ path paths, motive (paths.filter fun other => other.same path = false) →
      motive (path :: paths)) : ∀ paths, motive paths
  | [] => nil
  | path :: paths => cons path paths (onceEach_induction nil cons _)
termination_by paths => paths.length
decreasing_by exact Nat.lt_succ_of_le (List.length_filter_le _ _)

theorem onceEach_subset (paths : List Path) : onceEach paths ⊆ paths := by
  induction paths using onceEach_induction with
  | nil => simp [onceEach]
  | cons path paths ih =>
      rw [onceEach_cons]
      exact List.cons_subset_cons path fun other member => (List.mem_filter.mp (ih member)).1

section

variable {files : FileSystem} {paths : List Path}

theorem FileSystem.TellsApart.mono (apart : files.TellsApart paths) {fewer : List Path}
    (subset : fewer ⊆ paths) : files.TellsApart fewer :=
  fun left leftMember right rightMember => apart left (subset leftMember) right (subset rightMember)

theorem timesListed_filter_same {path : Path} (apart : files.TellsApart (path :: paths))
    (location : List String) :
    files.timesListed (paths.filter fun other => other.same path = false) location =
      if files.place? path = some location then 0 else files.timesListed paths location := by
  have known : ∀ other ∈ paths, files.place? other = some location →
      (other.same path = true ↔ files.place? path = some location) := fun other member =>
    apart other (List.mem_cons_of_mem _ member) path List.mem_cons_self location
  rw [FileSystem.timesListed, List.countP_filter]
  split_ifs with here
  · refine List.countP_eq_zero.mpr fun other member both => ?_
    simp only [Bool.and_eq_true, decide_eq_true_eq] at both
    have same := (known other member both.1).mpr here
    rw [both.2] at same
    cases same
  · refine List.countP_congr fun other member => ?_
    simp only [Bool.and_eq_true, decide_eq_true_eq, and_iff_left_iff_imp]
    intro place
    exact Bool.eq_false_iff.mpr fun same => here ((known other member place).mp same)

theorem timesListed_onceEach (apart : files.TellsApart paths) (location : List String) :
    files.timesListed (onceEach paths) location = min 1 (files.timesListed paths location) := by
  induction paths using onceEach_induction with
  | nil => rfl
  | cons path paths ih =>
      have subset : (paths.filter fun other => other.same path = false) ⊆ path :: paths :=
        fun other member => List.mem_cons_of_mem _ (List.mem_filter.mp member).1
      have rest := ih (apart.mono subset)
      rw [timesListed_filter_same apart] at rest
      rw [onceEach_cons, FileSystem.timesListed, FileSystem.timesListed, List.countP_cons,
        List.countP_cons, ← FileSystem.timesListed, ← FileSystem.timesListed, rest]
      by_cases here : files.place? path = some location
      · simp [here]
      · simp [here]

/-- A text of a file that is listed more than once. -/
def FileSystem.Relists (files : FileSystem) (paths : List Path) (text : List Char) : Prop :=
  ∃ path ∈ paths, 2 ≤ paths.countP (fun other => path.same other) ∧ files.read path = .ok text

theorem timesListed_eq_countP (apart : files.TellsApart paths) {path : Path} (member : path ∈ paths)
    {location : List String} (place : files.place? path = some location) :
    files.timesListed paths location = paths.countP fun other => path.same other := by
  refine List.countP_congr fun other inside => ?_
  rw [decide_eq_true_eq]
  exact (apart path member other inside location place).symm

theorem relisted_eq_of_spent (sound : files.top.Sound) (apart : files.TellsApart paths) {passes : Nat}
    (spent : ∀ text, files.Relists paths text → ∀ earlier < passes, Spent (mendOnce^[earlier] text)) :
    files.relisted paths passes = files.relisted (onceEach paths) passes := by
  refine FileSystem.editedBy_congr sound fun location text found => ?_
  rw [timesListed_onceEach apart]
  by_cases twice : 2 ≤ files.timesListed paths location
  · obtain ⟨path, member, place⟩ : ∃ path ∈ paths, files.place? path = some location := by
      obtain ⟨path, member, place⟩ := List.countP_pos_iff.mp (Nat.lt_of_lt_of_le Nat.zero_lt_two twice)
      exact ⟨path, member, of_decide_eq_true place⟩
    have relists : files.Relists paths text :=
      ⟨path, member, timesListed_eq_countP apart member place ▸ twice, (Holds.of_at? found place).read⟩
    have one : min 1 (files.timesListed paths location) = 1 := by omega
    rw [one, mendTimes_iterate_of_spent (Nat.le_of_succ_le twice) (spent text relists),
      mendTimes_iterate_of_spent (Nat.le_refl 1) (spent text relists)]
  · have same : min 1 (files.timesListed paths location) = files.timesListed paths location := by omega
    rw [same]

theorem spent_of_relisted_eq (apart : files.TellsApart paths) {passes : Nat}
    (lossless : ∀ text, files.Relists paths text → PassesApart default text passes)
    (same : files.relisted paths passes = files.relisted (onceEach paths) passes) :
    ∀ text, files.Relists paths text → ∀ earlier < passes, Spent (mendOnce^[earlier] text) := by
  rintro text ⟨path, member, twice, given⟩
  obtain ⟨location, holds⟩ := exists_holds_of_read given
  rw [← timesListed_eq_countP apart member holds.place] at twice
  have often := (holds.editedBy fun location =>
    (mendTimes (files.timesListed paths location))^[passes]).read
  have once := (holds.editedBy fun location =>
    (mendTimes (files.timesListed (onceEach paths) location))^[passes]).read
  have equal := often.symm.trans ((congrArg (FileSystem.read · path) same).trans once)
  have one : min 1 (files.timesListed paths location) = 1 := by omega
  rw [Except.ok.injEq, timesListed_onceEach apart, one, funext mendTimes_one] at equal
  exact spent_of_mendTimes_iterate_eq twice (lossless text ⟨path, member,
    timesListed_eq_countP apart member holds.place ▸ twice, given⟩) equal

namespace Check

/-- Whether repeated paths are harmless. A list with repetitions and the list without them leave the
same files if the breaks of a file that is listed more than once are spent in each pass. If no pass
over such a file loses a visible letter, they leave the same files only then. -/
theorem run_relisted_iff (sound : files.top.Sound) (apart : files.TellsApart paths) (maxPasses : Nat) :
    let most := max 1 maxPasses
    let spent := ∀ text, files.Relists paths text →
      ∀ earlier < most, Spent (mendOnce^[earlier] text)
    let lossless := ∀ text, files.Relists paths text → PassesApart default text most
    ∃ after report afterOnce reportOnce,
      run (.fixed paths) .quiet { fix := true, maxPasses := maxPasses } files = .ok (after, report) ∧
      run (.fixed (onceEach paths)) .quiet { fix := true, maxPasses := maxPasses } files =
        .ok (afterOnce, reportOnce) ∧
      (spent → after.files = afterOnce.files) ∧
      (lossless → after.files = afterOnce.files → spent) := by
  intro most spent lossless
  obtain ⟨after, report, done, left⟩ := run_fixed paths maxPasses files
  obtain ⟨afterOnce, reportOnce, doneOnce, leftOnce⟩ := run_fixed (onceEach paths) maxPasses files
  rw [passOver_iterate sound apart] at left
  rw [passOver_iterate sound (apart.mono (onceEach_subset paths))] at leftOnce
  refine ⟨after, report, afterOnce, reportOnce, done, doneOnce, ?_, ?_⟩
  · intro each
    rw [left, leftOnce]
    exact relisted_eq_of_spent sound apart each
  · intro kept same
    rw [left, leftOnce] at same
    exact spent_of_relisted_eq apart kept same

end Check

end

theorem tellsApart_replicate (files : FileSystem) (path : Path) (copies : Nat) :
    files.TellsApart (List.replicate copies path) := by
  intro left leftMember right rightMember location place
  rw [List.eq_of_mem_replicate leftMember] at place ⊢
  rw [List.eq_of_mem_replicate rightMember]
  exact ⟨fun _ => place, fun _ => (Path.same_iff path path).mpr rfl⟩

namespace Check

theorem read_listed_onePage (text : String) : (onePage text).read ⟨"page.jinja"⟩ = .ok text.toList := by
  refine (FileSystem.read_eq_ok_iff _ _ _).mpr ⟨["page.jinja"], ?_⟩
  rw [String.ofList_toList]
  rfl

theorem relisted_onePage (text : String) (copies passes : Nat) :
    (onePage text).relisted (List.replicate copies ⟨"page.jinja"⟩) passes =
      onePage (String.ofList ((mendTimes copies)^[passes] text.toList)) := by
  have content := editContent_toUTF8 ((mendTimes copies)^[passes]) text.toList
  rw [String.ofList_toList] at content
  have place : (onePage text).place? ⟨"page.jinja"⟩ = some ["page.jinja"] := rfl
  have listed : (onePage text).timesListed (List.replicate copies ⟨"page.jinja"⟩) ["page.jinja"] = copies := by
    simp [FileSystem.timesListed, List.countP_replicate, place]
  have top : ∀ edit : Edit, (onePage text).top.revise edit =
      .file "page.jinja" (edit ["page.jinja"] text.toUTF8) .empty := fun _ => rfl
  rw [FileSystem.relisted, FileSystem.editedBy, FileSystem.revise, top, listed, content]
  rfl

theorem run_fixed_onePage (text : String) (copies passes : Nat) :
    ∃ after report, run (.fixed (List.replicate copies ⟨"page.jinja"⟩)) .quiet
        { fix := true, maxPasses := passes } (onePage text) = .ok (after, report) ∧
      after.files = onePage (String.ofList ((mendTimes copies)^[max 1 passes] text.toList)) := by
  obtain ⟨after, report, done, left⟩ :=
    run_fixed (List.replicate copies ⟨"page.jinja"⟩) passes (onePage text)
  refine ⟨after, report, done, ?_⟩
  rw [left, passOver_iterate (onePage_sound text) (tellsApart_replicate _ _ _), relisted_onePage]

/-- A page that is listed twice, and whose break is spent as nothing closes behind it. -/
theorem run_relisted_page :
    let page := onePage "_(\"a\nb\")\nc"
    let paths : List Path := [⟨"page.jinja"⟩, ⟨"page.jinja"⟩]
    page.top.Sound ∧ page.TellsApart paths ∧
      ∃ after report afterOnce reportOnce,
        run (.fixed paths) .quiet { fix := true, maxPasses := 2 } page = .ok (after, report) ∧
        run (.fixed (onceEach paths)) .quiet { fix := true, maxPasses := 2 } page =
          .ok (afterOnce, reportOnce) ∧
        after.files = afterOnce.files ∧
        ∀ text, page.Relists paths text → ∀ earlier < 2, Spent (mendOnce^[earlier] text) := by
  intro page paths
  have sound : page.top.Sound := onePage_sound _
  have apart : page.TellsApart paths := tellsApart_replicate page ⟨"page.jinja"⟩ 2
  have once : mendOnce "_(\"a\nb\")\nc".toList = "_(\"a b\")\nc".toList := by
    rw [mendOnce_eq]
    decide
  have only : ∀ text, page.Relists paths text → text = "_(\"a\nb\")\nc".toList := by
    rintro text ⟨path, member, -, given⟩
    have listed : path ∈ List.replicate 2 ⟨"page.jinja"⟩ := member
    rw [List.eq_of_mem_replicate listed, read_listed_onePage, Except.ok.injEq] at given
    exact given.symm
  have spent : ∀ text, page.Relists paths text → ∀ earlier < 2, Spent (mendOnce^[earlier] text) := by
    intro text relists earlier bound
    rw [only text relists]
    obtain rfl | rfl : earlier = 0 ∨ earlier = 1 := by omega
    · decide
    · rw [Function.iterate_one, once]
      decide
  have lossless : ∀ text, page.Relists paths text → PassesApart default text 2 := by
    intro text relists earlier bound
    rw [only text relists]
    obtain rfl | rfl : earlier = 0 ∨ earlier = 1 := by omega
    · rw [apart_unitedIn_iff, Apart]
      decide
    · rw [Function.iterate_one, once, apart_unitedIn_iff, Apart]
      decide
  obtain ⟨after, report, afterOnce, reportOnce, done, doneOnce, same, onlyThen⟩ :=
    run_relisted_iff sound apart 2
  have left := same spent
  exact ⟨sound, apart, after, report, afterOnce, reportOnce, done, doneOnce, left, onlyThen lossless left⟩

/-- A page that is listed twice. When its first message is mended again, the second one is what it closes
with, and is lost. -/
theorem run_relisted_loses_message :
    let page := onePage "_(\"a\nb\")\n_(\"c\")"
    let path : Path := ⟨"page.jinja"⟩
    ∃ after report afterOnce reportOnce,
      run (.fixed [path, path]) .quiet { fix := true, maxPasses := 2 } page = .ok (after, report) ∧
      run (.fixed (onceEach [path, path])) .quiet { fix := true, maxPasses := 2 } page =
        .ok (afterOnce, reportOnce) ∧
      after.files.read path = .ok "_(\"a b\")".toList ∧
      afterOnce.files.read path = .ok "_(\"a b\")\n_(\"c\")".toList := by
  intro page path
  obtain ⟨after, report, done, left⟩ := run_fixed_onePage "_(\"a\nb\")\n_(\"c\")" 2 2
  obtain ⟨afterOnce, reportOnce, doneOnce, leftOnce⟩ :=
    run_fixed_onePage "_(\"a\nb\")\n_(\"c\")" 1 2
  have single : onceEach [path, path] = [path] := by decide
  refine ⟨after, report, afterOnce, reportOnce, done, ?_, ?_, ?_⟩
  · rw [single]
    exact doneOnce
  · have first : mendTimes 2 "_(\"a\nb\")\n_(\"c\")".toList = "_(\"a b\")".toList := by
      rw [mendTimes_eq_foldr]
      decide
    have second : mendTimes 2 "_(\"a b\")".toList = "_(\"a b\")".toList :=
      mendTimes_of_clean (by decide) 2
    rw [left, read_listed_onePage, String.toList_ofList, show max 1 2 = 2 from rfl,
      Function.iterate_succ_apply, Function.iterate_one, first, second]
  · have first : mendTimes 1 "_(\"a\nb\")\n_(\"c\")".toList =
        "_(\"a b\")\n_(\"c\")".toList := by
      rw [mendTimes_one, mendOnce_eq]
      decide
    have second : mendTimes 1 "_(\"a b\")\n_(\"c\")".toList = "_(\"a b\")\n_(\"c\")".toList :=
      mendTimes_of_clean (by decide) 1
    rw [leftOnce, read_listed_onePage, String.toList_ofList, show max 1 2 = 2 from rfl,
      Function.iterate_succ_apply, Function.iterate_one, first, second]

end Check

end Unbroken
