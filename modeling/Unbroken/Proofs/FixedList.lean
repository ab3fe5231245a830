import Unbroken.Proofs.Afresh
import Unbroken.Proofs.Repeated
import Unbroken.Proofs.Turns

/-! Checks on a fixed list of paths. In each pass the breaks of a file are found as often as it is listed,
and they are mended as often in turn. -/

namespace Unbroken

namespace FileSystem

def timesListed (files : FileSystem) (paths : List Path) (location : List String) : Nat :=
  paths.countP fun path => files.place? path = some location

def TellsApart (files : FileSystem) (paths : List Path) : Prop :=
  ∀ left ∈ paths, ∀ right ∈ paths, ∀ location, files.place? left = some location →
    (left.same right = true ↔ files.place? right = some location)

/-- The files after some passes, in each of which the breaks of a file are mended as often as it is
listed. -/
def relisted (files : FileSystem) (paths : List Path) (passes : Nat) : FileSystem :=
  files.editedBy fun location => (mendTimes (files.timesListed paths location))^[passes]

end FileSystem

section

variable {files : FileSystem} {path : Path} {text : List Char} {location : List String}

theorem map_filedAs_breaksIn (file path : Path) (text : List Char) :
    (breaksIn path text).map (Break.filedAs file) = breaksIn file text := by
  rw [breaksIn_eq_map path, breaksIn_eq_map file, List.map_map]
  rfl

namespace Check

theorem map_filter_surveyed {paths : List Path} (apart : files.TellsApart paths) (member : path ∈ paths)
    (holds : Holds files path text location) (edits : List String → List Char → List Char) :
    ((paths.filterMap fun other => ((files.editedBy edits).breaksOf other).toOption).flatten.filter
        fun broken => path.same broken.file).map (Break.filedAs default) =
      (List.replicate (files.timesListed paths location) (breaksIn default (edits location text))).flatten := by
  have told : ∀ other ∈ paths, path.same other = true ↔ files.place? other = some location :=
    fun other known => apart path member other known location holds.place
  have found : ∀ other ∈ paths.filter path.same, ((files.editedBy edits).breaksOf other).toOption =
      some (breaksIn other (edits location text)) := by
    intro other chosen
    obtain ⟨known, same⟩ := List.mem_filter.mp chosen
    have lies := Holds.of_at? holds.at? ((told other known).mp same)
    rw [toOption_breaksOf, (lies.editedBy edits).read]
    rfl
  have times : (paths.filter path.same).length = files.timesListed paths location := by
    rw [← List.countP_eq_length_filter, FileSystem.timesListed]
    refine List.countP_congr fun other known => ?_
    rw [told other known, decide_eq_true_eq]
  have alike : List.map (Break.filedAs default) ∘ (fun other => breaksIn other (edits location text)) =
      fun _ => breaksIn default (edits location text) :=
    funext fun other => map_filedAs_breaksIn default other _
  rw [filter_same_surveyed, List.filterMap_congr found, ← Function.comp_def, List.filterMap_eq_map,
    List.map_flatten, List.map_map, alike, List.map_const', times]

theorem mendTurns_surveyed {paths : List Path} (apart : files.TellsApart paths)
    (edits : List String → List Char → List Char)
    (found : files.top.at? location = some (.file (String.ofList text).toUTF8)) :
    mendTurns (turnsOf files (groups (surveyFiles (files.editedBy edits) paths).breaks) location)
      (edits location text) = mendTimes (files.timesListed paths location) (edits location text) := by
  have known : ∀ broken ∈ (surveyFiles (files.editedBy edits) paths).breaks, broken.file ∈ paths := by
    intro broken member
    obtain ⟨path, listed, words, -, inside⟩ := (mem_breaks_iff _ _ _).mp member
    rwa [file_of_mem_breaksIn inside]
  by_cases listed : ∃ path ∈ paths, files.place? path = some location
  · obtain ⟨path, member, place⟩ := listed
    have holds := Holds.of_at? found place
    have told := fun broken inside =>
      apart path member broken.file (known broken inside) location place
    rw [turnsOf_groups (breaks_sorted _ _) told]
    have perm : (((surveyFiles (files.editedBy edits) paths).breaks.filter fun broken =>
        path.same broken.file).map (Break.filedAs default)).Perm (List.replicate
          (files.timesListed paths location) (breaksIn default (edits location text))).flatten := by
      rw [← map_filter_surveyed apart member holds edits]
      exact ((List.mergeSort_perm _ _).filter _).map _
    change (mend (Template.ofText _) _).template.text = _
    rw [mendTimes, ← mend_map_filedAs default, mend_of_perm perm, mend_of_perm (List.Perm.refl _)]
  · have never : files.timesListed paths location = 0 := by
      refine List.countP_eq_zero.mpr fun path member place => ?_
      exact listed ⟨path, member, of_decide_eq_true place⟩
    have nothing : groupsOf files (groups (surveyFiles (files.editedBy edits) paths).breaks) location =
        [] := by
      refine List.eq_nil_iff_forall_not_mem.mpr fun group chosen => ?_
      obtain ⟨member, leader, inside, place⟩ := exists_leader_of_mem_groupsOf chosen
      exact listed ⟨leader.file, known leader (mem_of_mem_groups member inside), place⟩
    rw [never, turnsOf, nothing, List.flatMap_nil, mendTimes_zero, mendTurns_nil]

def passOver (paths : List Path) (files : FileSystem) : FileSystem :=
  (mendFiles .quiet { files := files, told := [] } (surveyFiles files paths).breaks).progress.files

/-- One pass mends the breaks of each file as often as it is listed. -/
theorem passOver_editedBy (sound : files.top.Sound) {paths : List Path} (apart : files.TellsApart paths)
    (edits : List String → List Char → List Char) :
    passOver paths (files.editedBy edits) =
      files.editedBy fun location => mendTimes (files.timesListed paths location) ∘ edits location := by
  have proper : ∀ group ∈ groups (surveyFiles (files.editedBy edits) paths).breaks,
      ∀ broken ∈ group, broken.Proper := by
    intro group member broken inside
    exact proper_of_mem_breaks (mem_of_mem_groups member inside)
  rw [passOver, mendFiles, files_foldl_turns sound proper rfl]
  refine FileSystem.editedBy_congr sound fun location text found => ?_
  exact mendTurns_surveyed apart edits found

end Check

end

/-! Many passes, and whole checks. -/

namespace Check

variable {files : FileSystem} {paths : List Path}

theorem passOver_iterate (sound : files.top.Sound) (apart : files.TellsApart paths) (passes : Nat) :
    (passOver paths)^[passes] files = files.relisted paths passes := by
  induction passes with
  | zero => exact files.editedBy_id.symm
  | succ passes ih =>
      rw [Function.iterate_succ_apply', ih, FileSystem.relisted, passOver_editedBy sound apart,
        FileSystem.relisted]
      simp only [Function.iterate_succ']

theorem files_foldl_congr (all : List (List Break)) {first second : Pass}
    (same : first.progress.files = second.progress.files) :
    (all.foldl (mendGroup .quiet) first).progress.files =
      (all.foldl (mendGroup .quiet) second).progress.files := by
  induction all generalizing first second with
  | nil => exact same
  | cons group later ih =>
      refine ih ?_
      cases group with
      | nil => exact same
      | cons broken others =>
          simp only [mendGroup, Surroundings.refuses_quiet, same]
          cases second.progress.files.mendFile broken.file (broken :: others) with
          | error failed => exact same
          | ok result =>
              cases result with
              | none => exact same
              | some after => rfl

theorem files_mendFiles (paths : List Path) (progress : Progress) :
    (mendFiles .quiet progress (surveyFiles progress.files paths).breaks).progress.files =
      passOver paths progress.files :=
  files_foldl_congr _ rfl

theorem passOver_of_nothing_found (nothing : (surveyFiles files paths).breaks = []) :
    passOver paths files = files := by
  rw [passOver, nothing]
  rfl

theorem mendPasses_fixed (paths : List Path) (left : Nat) {mending : Mending}
    (fresh : mending.remaining = (surveyFiles mending.progress.files paths).breaks) :
    ∃ done, mendPasses (.fixed paths) .quiet left mending = .ok done ∧
      done.progress.files = (passOver paths)^[left] mending.progress.files := by
  induction left generalizing mending with
  | zero => exact ⟨mending, rfl, rfl⟩
  | succ left ih =>
      have pass := files_mendFiles paths mending.progress
      rw [← fresh] at pass
      rw [mendPasses, Function.iterate_succ_apply]
      simp only [Source.fixed, Progress.tellAll_silent, Progress.tell_silent]
      split_ifs with idle clean
      · have same := progress_mendFiles_of_mended_eq_nil (List.isEmpty_iff.mp idle)
        rw [same] at pass
        refine ⟨_, rfl, ?_⟩
        rw [← pass, Function.iterate_fixed pass.symm]
        exact congrArg Progress.files same
      · refine ⟨_, rfl, ?_⟩
        rw [← pass, Function.iterate_fixed]
        exact passOver_of_nothing_found (List.isEmpty_iff.mp clean)
      · rw [← pass]
        exact ih rfl

theorem files_conclude (first : Overview) (mending : Mending) :
    (conclude .quiet first mending).1.files = mending.progress.files := by
  rw [conclude]
  split_ifs
  · rfl
  · rw [Progress.tellAll_silent]

theorem run_fixed (paths : List Path) (maxPasses : Nat) (files : FileSystem) :
    ∃ after report, run (.fixed paths) .quiet { fix := true, maxPasses := maxPasses } files =
      .ok (after, report) ∧ after.files = (passOver paths)^[max 1 maxPasses] files := by
  by_cases nothing : (surveyFiles files paths).breaks = []
  · have steady : ∀ round (files : FileSystem), (Source.fixed paths).list round files = .ok paths :=
      fun _ _ => rfl
    obtain ⟨told, report, done, -⟩ := run_of_nothing_found .never steady
      { fix := true, maxPasses := maxPasses } nothing
    refine ⟨_, report, done, ?_⟩
    rw [Function.iterate_fixed (passOver_of_nothing_found nothing)]
  · have start : ∀ told, (Mending.mk (Progress.mk files told) 0 []
        (surveyFiles files paths).breaks).remaining = (surveyFiles files paths).breaks := fun _ => rfl
    obtain ⟨mending, passes, left⟩ := mendPasses_fixed paths (max 1 maxPasses)
      (start ([] ++ listing (surveyFiles files paths).breaks ++ [.info "Attempting to auto-fix...\n"]))
    rw [Source.fixed] at passes
    rw [run]
    simp only [Source.fixed, if_neg (mt List.isEmpty_iff.mp nothing), Progress.tellAll_silent,
      if_true, Progress.tell_silent, passes]
    exact ⟨_, _, rfl, (files_conclude _ mending).trans left⟩

end Check

end Unbroken
