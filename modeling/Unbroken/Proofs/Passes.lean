import Mathlib.Data.Nat.Find
import Mathlib.Order.Bounds.Basic
import Unbroken.Proofs.Listed

/-! A mending check on the files that a search lists is the iteration of one pass over each text. A pass
over the breaks of all files is a pass over each file that has some, and the check goes on until all
texts are clean or the passes are used up. -/

namespace Unbroken

namespace Check

variable {files : FileSystem}

theorem mendGroup_breaksIn (sound : files.top.Sound) {path : Path} {text : List Char}
    {location : List String} (holds : Holds files path text location) {passes : List String → Nat}
    {pass : Pass} (here : pass.progress.files = files.mendedBy passes) :
    let done := mendGroup .quiet pass (breaksIn path (mendOnce^[passes location] text))
    done.progress.files = files.mendedBy (advance passes location) ∧
      done.mended = pass.mended ++ if Clean (mendOnce^[passes location] text) then [] else [path] := by
  intro done
  have mended := mendFile_breaksIn sound holds passes
  by_cases clean : Clean (mendOnce^[passes location] text)
  · have idle : done = pass := by
      simp only [done, (breaksIn_eq_nil_iff _ _).mpr clean, mendGroup]
    rw [idle, mendedBy_advance_of_clean sound holds clean, if_pos clean, List.append_nil]
    exact ⟨here, rfl⟩
  · obtain ⟨broken, others, group⟩ := List.exists_cons_of_ne_nil
      (mt (breaksIn_eq_nil_iff path (mendOnce^[passes location] text)).mp clean)
    have file : broken.file = path := file_of_mem_breaksIn (group ▸ List.mem_cons_self)
    rw [if_neg clean, group] at mended
    simp only [done, group, mendGroup, file, here, Surroundings.refuses_quiet, mended, if_neg clean]
    exact ⟨rfl, trivial⟩

theorem brokenAfter_cons (path : Path) (text : List Char) (texts : List (Path × List Char))
    (passes : Nat) : brokenAfter ((path, text) :: texts) passes =
      (if Clean (mendOnce^[passes] text) then [] else [path]) ++ brokenAfter texts passes := by
  rw [brokenAfter, List.filter_cons]
  by_cases clean : Clean (mendOnce^[passes] text)
  · simp only [clean, not_true, decide_false, if_true]
    rfl
  · simp only [clean, not_false_iff, decide_true, if_true, if_false]
    rfl

theorem foldl_mendGroup (sound : files.top.Sound) {texts : List (Path × List Char)} {count : Nat}
    (held : ∀ entry ∈ texts, ∃ location, Holds files entry.1 entry.2 location)
    (apart : texts.Pairwise fun left right => files.place? left.1 ≠ files.place? right.1)
    (passes : List String → Nat)
    (level : ∀ entry ∈ texts, ∀ location, files.place? entry.1 = some location → passes location = count)
    {pass : Pass} (here : pass.progress.files = files.mendedBy passes) :
    let done := (texts.map fun (path, text) => breaksIn path (mendOnce^[count] text)).foldl
      (mendGroup .quiet) pass
    done.progress.files = files.mendedBy (fun location =>
        if location ∈ (texts.map Prod.fst).filterMap files.place? then count + 1 else passes location) ∧
      done.mended = pass.mended ++ brokenAfter texts count := by
  induction texts generalizing passes pass with
  | nil => simp [here, brokenAfter]
  | cons entry texts ih =>
      obtain ⟨path, text⟩ := entry
      obtain ⟨location, holds⟩ := held _ List.mem_cons_self
      have same := level _ List.mem_cons_self location holds.place
      obtain ⟨different, rest⟩ := List.pairwise_cons.mp apart
      obtain ⟨first, listed⟩ := mendGroup_breaksIn sound holds here
      rw [same] at first listed
      have lower : ∀ other ∈ texts, ∀ place, files.place? other.1 = some place →
          advance passes location place = count := by
        intro other member place found
        have elsewhere : place ≠ location := by
          rintro rfl
          exact different other member (holds.place.trans found.symm)
        rw [advance, if_neg elsewhere]
        exact level other (List.mem_cons_of_mem _ member) place found
      obtain ⟨whole, all⟩ := ih (fun other member => held other (List.mem_cons_of_mem _ member)) rest
        (advance passes location) lower first
      refine ⟨?_, ?_⟩
      · rw [List.map_cons, List.foldl_cons, whole]
        congr 1
        funext place
        rw [List.map_cons, List.filterMap_cons_some holds.place]
        by_cases here : place = location
        · subst here
          simp only [List.mem_cons, true_or, if_true, advance, same, ite_self]
        · simp only [List.mem_cons, here, false_or, advance, if_false]
      · rw [List.map_cons, List.foldl_cons, all, listed, List.append_assoc, brokenAfter_cons]

theorem breaksAfter_eq_nil_iff (texts : List (Path × List Char)) (passes : Nat) :
    breaksAfter texts passes = [] ↔ ∀ entry ∈ texts, Clean (mendOnce^[passes] entry.2) := by
  simp only [breaksAfter, List.flatMap_eq_nil_iff, breaksIn_eq_nil_iff]

theorem brokenAfter_eq_nil_iff (texts : List (Path × List Char)) (passes : Nat) :
    brokenAfter texts passes = [] ↔ breaksAfter texts passes = [] := by
  rw [breaksAfter_eq_nil_iff]
  simp [brokenAfter]

variable {search : Search}

theorem mendFiles_stage (sound : files.top.Sound) (passes : Nat) {progress : Progress}
    (here : progress.files = search.stage files passes) :
    let pass := mendFiles .quiet progress (breaksAfter (search.texts files) passes)
    pass.progress.files = search.stage files (passes + 1) ∧
      pass.mended = brokenAfter (search.texts files) passes := by
  have skip : ∀ (pass : Pass) (group : List Break),
      (if !group.isEmpty then mendGroup .quiet pass group else pass) = mendGroup .quiet pass group := by
    intro pass group
    cases group <;> rfl
  simp only [mendFiles, groups_breaksAfter (texts_shelved search sound), groupsAfter, List.foldl_filter,
    skip]
  have level : ∀ entry ∈ search.texts files, ∀ location, files.place? entry.1 = some location →
      (if location ∈ ((search.texts files).map Prod.fst).filterMap files.place? then passes else 0) =
        passes := by
    intro entry member location place
    exact if_pos (List.mem_filterMap.mpr ⟨entry.1, List.mem_map_of_mem member, place⟩)
  obtain ⟨whole, mended⟩ := foldl_mendGroup sound (fun _ member => exists_holds member)
    (texts_apart search sound) _ level (show (Pass.mk progress []).progress.files = _ from here)
  refine ⟨?_, by simpa using mended⟩
  rw [whole, Search.stage, FileSystem.mendedAt]
  congr 1
  funext location
  split <;> rfl

def mendingAt (search : Search) (files : FileSystem) (told : List Message) (passes : Nat) : Mending :=
  { progress := { files := search.stage files passes, told := told }
    passes := passes
    mended := if passes = 0 then [] else brokenAfter (search.texts files) 0
    remaining := breaksAfter (search.texts files) passes }

theorem brokenAfter_subset (texts : List (Path × List Char)) (passes : Nat) :
    brokenAfter texts passes ⊆ brokenAfter texts 0 := by
  intro path member
  obtain ⟨⟨path, text⟩, known, rfl⟩ := List.mem_map.mp member
  rw [List.mem_filter] at known
  refine List.mem_map.mpr ⟨(path, text), List.mem_filter.mpr ⟨known.1, ?_⟩, rfl⟩
  have broken := of_decide_eq_true known.2
  exact decide_eq_true fun clean => broken (clean.later (Nat.zero_le passes))

theorem brokenAfter_ascending (search : Search) (sound : files.top.Sound) (passes : Nat) :
    Path.Ascending (brokenAfter (search.texts files) passes) :=
  List.pairwise_map.mpr ((texts_shelved search sound).filter _)

theorem foldl_insert_brokenAfter (search : Search) (sound : files.top.Sound) (passes : Nat) :
    (brokenAfter (search.texts files) passes).foldl (fun known path => path.insert known)
        (if passes = 0 then [] else brokenAfter (search.texts files) 0) =
      brokenAfter (search.texts files) 0 := by
  have ascending := brokenAfter_ascending search sound 0
  by_cases first : passes = 0
  · subst first
    exact Path.foldl_insert_append ascending
  · rw [if_neg first]
    exact Path.foldl_insert_of_subset ascending (brokenAfter_subset _ passes)

/-- Passes go on from stage to stage, until the texts are clean or no more passes are left. -/
theorem mendPasses_stage (sound : files.top.Sound) {least : Nat}
    (settled : ∀ passes, breaksAfter (search.texts files) passes = [] ↔ least ≤ passes)
    (left : Nat) (told : List Message) {passes : Nat} (early : passes < least) :
    ∃ later, mendPasses (.search search) .quiet left (mendingAt search files told passes) =
      .ok (mendingAt search files later (min least (passes + left))) := by
  induction left generalizing told passes with
  | zero =>
      refine ⟨told, ?_⟩
      rw [mendPasses, Nat.add_zero, Nat.min_eq_right (Nat.le_of_lt early)]
  | succ left ih =>
      have more : brokenAfter (search.texts files) passes ≠ [] := by
        rw [ne_eq, brokenAfter_eq_nil_iff, settled]
        omega
      obtain ⟨whole, mended⟩ := mendFiles_stage sound passes
        (show (mendingAt search files told passes).progress.files = search.stage files passes from rfl)
      have insertion := foldl_insert_brokenAfter search sound passes
      rw [mendPasses, mendingAt]
      simp only [mendingAt] at whole mended
      simp only [Source.search, Progress.tell_silent, whole, mended, List.isEmpty_iff, more,
        if_false, files_stage search sound, surveyFiles_stage search sound, insertion]
      split
      next clean =>
        have last : min least (passes + (left + 1)) = passes + 1 := by
          have bound := (settled (passes + 1)).mp clean
          omega
        rw [last]
        exact ⟨_, rfl⟩
      next unclean =>
        have still : passes + 1 < least := by
          have bound := mt (settled (passes + 1)).mpr unclean
          omega
        have total : passes + (left + 1) = passes + 1 + left := by omega
        rw [Progress.tellAll_silent, total]
        exact ih _ still

/-! The whole check. -/

theorem exists_all_clean (texts : List (Path × List Char)) :
    ∃ passes, ∀ entry ∈ texts, Clean (mendOnce^[passes] entry.2) := by
  induction texts with
  | nil => exact ⟨0, by simp⟩
  | cons entry texts ih =>
      obtain ⟨here, clean⟩ := exists_clean entry.2
      obtain ⟨later, all⟩ := ih
      refine ⟨max here later, List.forall_mem_cons.mpr ⟨clean.later (Nat.le_max_left _ _), ?_⟩⟩
      intro other member
      exact (all other member).later (Nat.le_max_right _ _)

theorem exists_isLeast_clean (texts : List (Path × List Char)) :
    ∃ least, IsLeast {passes | ∀ entry ∈ texts, Clean (mendOnce^[passes] entry.2)} least := by
  have reached := exists_all_clean texts
  exact ⟨Nat.find reached, Nat.find_spec reached, fun passes clean => Nat.find_min' reached clean⟩

theorem breaksAfter_eq_nil_iff_le {texts : List (Path × List Char)} {least : Nat}
    (first : IsLeast {passes | ∀ entry ∈ texts, Clean (mendOnce^[passes] entry.2)} least)
    (passes : Nat) : breaksAfter texts passes = [] ↔ least ≤ passes := by
  rw [breaksAfter_eq_nil_iff]
  constructor
  · intro clean
    exact first.2 clean
  · intro bound entry member
    exact (first.1 entry member).later bound

theorem length_breaksAfter (texts : List (Path × List Char)) (passes : Nat) :
    (breaksAfter texts passes).length =
      (texts.map fun (path, text) => (breaksIn path (mendOnce^[passes] text)).length).sum :=
  List.length_flatMap

theorem run_search (sound : files.top.Sound) {least : Nat}
    (settled : ∀ passes, breaksAfter (search.texts files) passes = [] ↔ least ≤ passes)
    (maxPasses : Nat) :
    ∃ told, run (.search search) .quiet { fix := true, maxPasses := maxPasses } files = .ok (
      { files := search.stage files (min least (max 1 maxPasses)), told := told },
      { verdict :=
          if least = 0 then .clean
          else if least ≤ max 1 maxPasses then .mended
          else .failed (.unmended (breaksAfter (search.texts files) (max 1 maxPasses)).length)
        tally := {
          filesRead := (search.texts files).length
          breaksFound := (breaksAfter (search.texts files) 0).length
          filesMended := (brokenAfter (search.texts files) 0).length
          passes := min least (max 1 maxPasses) }
        breaks := breaksAfter (search.texts files) 0
        mendedFiles := brokenAfter (search.texts files) 0 }) := by
  have survey := surveyFiles_stage search sound 0
  rw [stage_zero] at survey
  rw [run]
  simp only [Source.search, survey, List.isEmpty_iff]
  by_cases clean : breaksAfter (search.texts files) 0 = []
  · obtain rfl : least = 0 := Nat.le_zero.mp ((settled 0).mp clean)
    have nothing := (brokenAfter_eq_nil_iff (search.texts files) 0).mpr clean
    rw [if_pos clean, Nat.zero_min, stage_zero, nothing, if_pos rfl]
    exact ⟨[allClear], rfl⟩
  · have early : 0 < least := by
      have bound := mt (settled 0).mpr clean
      omega
    have start : ∀ told, Mending.mk (Progress.mk files told) 0 []
        (breaksAfter (search.texts files) 0) = mendingAt search files told 0 := by
      intro told
      rw [mendingAt, stage_zero, if_pos rfl]
    obtain ⟨told, passes⟩ := mendPasses_stage sound settled (max 1 maxPasses)
      ([] ++ listing (breaksAfter (search.texts files) 0) ++
        [.info "Attempting to auto-fix...\n"]) early
    rw [Source.search] at passes
    rw [if_neg clean, if_pos trivial, Progress.tellAll_silent, Progress.tell_silent, start,
      passes, Nat.zero_add, Except.map, conclude]
    have positive : min least (max 1 maxPasses) ≠ 0 := by omega
    simp only [mendingAt, report, List.isEmpty_iff, settled, if_neg positive]
    rw [if_neg (by omega : ¬ least = 0)]
    by_cases enough : least ≤ max 1 maxPasses
    · rw [Nat.min_eq_left enough, if_pos (Nat.le_refl _), if_pos enough]
      exact ⟨_, rfl⟩
    · rw [Nat.min_eq_right (by omega), if_neg enough, if_neg enough, Progress.tellAll_silent]
      exact ⟨_, rfl⟩

def onePage (text : String) : FileSystem :=
  { top := .file "page.jinja" text.toUTF8 .empty, workingDirectory := [] }

def pages : Search :=
  { root := ⟨"."⟩, extension := "jinja", exclusions := .usual, maxFileSize := none }

theorem onePage_sound (text : String) : (onePage text).top.Sound :=
  ⟨by decide, rfl, trivial⟩

theorem read_onePage (text : String) : (onePage text).read ⟨"./page.jinja"⟩ = .ok text.toList := by
  refine (FileSystem.read_eq_ok_iff _ _ _).mpr ⟨["page.jinja"], ?_⟩
  rw [String.ofList_toList]
  rfl

theorem files_pages_onePage (text : String) : pages.files (onePage text) = [⟨"./page.jinja"⟩] := by
  have candidates : pages.candidates (onePage text) = [⟨"./page.jinja"⟩] := rfl
  rw [Search.files, candidates, List.mergeSort_singleton]

theorem texts_onePage (text : String) :
    pages.texts (onePage text) = [(⟨"./page.jinja"⟩, text.toList)] := by
  rw [Search.texts, files_pages_onePage, List.filterMap_cons, read_onePage]
  rfl

theorem stage_onePage (text : String) (passes : Nat) :
    pages.stage (onePage text) passes = onePage (String.ofList (mendOnce^[passes] text.toList)) := by
  have content := mendContent_toUTF8 passes text.toList
  rw [String.ofList_toList] at content
  have place : (onePage text).place? ⟨"./page.jinja"⟩ = some ["page.jinja"] := rfl
  have listed : ["page.jinja"] ∈ [(⟨"./page.jinja"⟩ : Path)].filterMap (onePage text).place? := by
    rw [List.filterMap_cons, place]
    exact List.mem_cons_self
  have top : ∀ edit : Edit, (onePage text).top.revise edit =
      .file "page.jinja" (edit ["page.jinja"] text.toUTF8) .empty := fun _ => rfl
  rw [Search.stage, texts_onePage, FileSystem.mendedAt, FileSystem.mendedBy, FileSystem.revise, top,
    List.map_singleton, if_pos listed, content]
  rfl

theorem run_onePage {text after : String} (broken : ¬ Clean text.toList)
    (once : mendOnce text.toList = after.toList) (clean : Clean after.toList) :
    ∃ told report, run (.search pages) .quiet { fix := true, maxPasses := 2 } (onePage text) =
        .ok ({ files := onePage after, told := told }, report) ∧
      report.verdict = .mended ∧ report.tally.passes = 1 ∧
      report.breaks = breaksIn ⟨"./page.jinja"⟩ text.toList := by
  have settled : ∀ passes, breaksAfter (pages.texts (onePage text)) passes = [] ↔ 1 ≤ passes := by
    intro passes
    rw [breaksAfter_eq_nil_iff, texts_onePage, List.forall_mem_singleton]
    cases passes with
    | zero => simpa using broken
    | succ passes =>
        rw [Function.iterate_succ_apply, once, mendOnce_iterate_of_clean clean]
        simpa using clean
  obtain ⟨told, done⟩ := run_search (onePage_sound text) settled 2
  have last : min 1 (max 1 2) = 1 := rfl
  rw [last, stage_onePage, Function.iterate_one, once, String.ofList_toList] at done
  refine ⟨told, _, done, rfl, rfl, ?_⟩
  simp only [texts_onePage, breaksAfter, List.flatMap_cons, List.flatMap_nil, List.append_nil,
    Function.iterate_zero, id]

/-- A mending check comes to what single passes over each text come to, and to nothing else. It ends
with the first pass after which all texts are clean, or with the last one that it may make. -/
theorem run_search_eq_iterate {files : FileSystem} (sound : files.top.Sound) (search : Search)
    (maxPasses : Nat) :
    let texts := search.texts files
    let most := max 1 maxPasses
    ∃ least, IsLeast {passes | ∀ entry ∈ texts, Clean (mendOnce^[passes] entry.2)} least ∧
      let passes := min least most
      let after := files.mendedAt (texts.map Prod.fst) passes
      let mended := (texts.filter fun (_, text) => ¬ Clean text).map Prod.fst
      (∃ told, run (.search search) .quiet { fix := true, maxPasses := maxPasses } files = .ok (
        { files := after, told := told },
        { verdict :=
            if least = 0 then .clean
            else if least ≤ most then .mended
            else .failed (.unmended (texts.map fun (path, text) =>
              (breaksIn path (mendOnce^[most] text)).length).sum)
          tally := {
            filesRead := texts.length
            breaksFound := (texts.map fun (path, text) => (breaksIn path text).length).sum
            filesMended := mended.length
            passes := passes }
          breaks := texts.flatMap fun (path, text) => breaksIn path text
          mendedFiles := mended })) ∧
      Path.Ascending mended ∧
      (∀ entry ∈ texts, after.read entry.1 = .ok (mendOnce^[passes] entry.2)) ∧
      ∀ location content, files.top.at? location = some (.file content) →
        (∀ entry ∈ texts, files.place? entry.1 ≠ some location) →
        after.top.at? location = some (.file content) := by
  intro texts most
  obtain ⟨least, first⟩ := exists_isLeast_clean texts
  have settled := breaksAfter_eq_nil_iff_le first
  refine ⟨least, first, ?_, brokenAfter_ascending search sound 0, ?_, ?_⟩
  · obtain ⟨told, done⟩ := run_search sound settled maxPasses
    rw [length_breaksAfter, length_breaksAfter] at done
    exact ⟨told, done⟩
  · intro entry member
    obtain ⟨location, holds⟩ := exists_holds member
    exact (holds_stage member holds _).read
  · intro location content found elsewhere
    have absent : location ∉ (texts.map Prod.fst).filterMap files.place? := by
      intro listed
      obtain ⟨path, named, place⟩ := List.mem_filterMap.mp listed
      obtain ⟨entry, member, rfl⟩ := List.mem_map.mp named
      exact elsewhere entry member place
    rw [FileSystem.mendedAt, FileSystem.mendedBy, FileSystem.revise, Directory.at?_revise, found]
    simp only [Option.map_some, Entry.revise, List.append_nil, if_neg absent, mendContent_zero]

/-- One broken message in one file. -/
theorem run_search_mends_page :
    let page (text : String) : FileSystem :=
      { top := .file "page.jinja" text.toUTF8 .empty, workingDirectory := [] }
    let search : Search :=
      { root := ⟨"."⟩, extension := "jinja", exclusions := .usual, maxFileSize := none }
    (page "_(\"a\nb\")").top.Sound ∧ ∃ told report,
      run (.search search) .quiet { fix := true, maxPasses := 2 } (page "_(\"a\nb\")") =
        .ok ({ files := page "_(\"a b\")", told := told }, report) ∧
      report.verdict = .mended ∧ report.tally.passes = 1 := by
  intro page search
  refine ⟨onePage_sound _, ?_⟩
  have once : mendOnce "_(\"a\nb\")".toList = "_(\"a b\")".toList := by
    rw [mendOnce_eq]
    decide
  have broken : ¬ Clean "_(\"a\nb\")".toList := by decide
  have mended : Clean "_(\"a b\")".toList := by decide
  obtain ⟨least, ⟨clean, lowest⟩, ⟨told, done⟩, -⟩ :=
    run_search_eq_iterate (onePage_sound "_(\"a\nb\")") pages 2
  rw [texts_onePage] at clean lowest
  have one : least = 1 := by
    have upper : least ≤ 1 := by
      refine lowest fun entry member => ?_
      rw [List.mem_singleton.mp member, Function.iterate_one, once]
      exact mended
    have lower : least ≠ 0 := by
      rintro rfl
      exact broken (clean _ List.mem_cons_self)
    omega
  subst one
  have after := stage_onePage "_(\"a\nb\")" 1
  rw [Function.iterate_one, once, String.ofList_toList] at after
  have last : min 1 (max 1 2) = 1 := rfl
  rw [last, show (onePage "_(\"a\nb\")").mendedAt _ 1 = onePage "_(\"a b\")" from after] at done
  exact ⟨told, _, done, rfl, rfl⟩

end Check

end Unbroken
