import Unbroken.Proofs.Invocation
import Unbroken.Proofs.OpenLines

/-! Staging before a push. The files to be staged are those that the check rewrote, and they are asked for
only behind the report: one that cannot be written ends the invocation first. -/

namespace Unbroken

theorem openLines_mendOnce_iterate_le (passes : Nat) (text : List Char) :
    openLines (mendOnce^[passes] text) ≤ openLines text := by
  induction passes with
  | zero => exact Nat.le_refl _
  | succ passes ih =>
      rw [Function.iterate_succ_apply']
      by_cases clean : Clean (mendOnce^[passes] text)
      · rwa [mendOnce_of_clean clean]
      · exact (openLines_mendOnce_lt clean).le.trans ih

theorem mendOnce_iterate_ne {text : List Char} (broken : ¬ Clean text) {passes : Nat}
    (positive : 0 < passes) : mendOnce^[passes] text ≠ text := by
  obtain ⟨later, rfl⟩ := Nat.exists_eq_add_of_lt positive
  have first := openLines_mendOnce_lt broken
  have rest := openLines_mendOnce_iterate_le later (mendOnce text)
  rw [Nat.zero_add, Function.iterate_succ_apply]
  intro same
  rw [same] at rest
  omega

/-- Whether the files that some paths lead to are those with a new content. -/
structure Rewrites (files after : FileSystem) (paths : List Path) : Prop where
  changed : ∀ path ∈ paths, ∃ old new, files.read path = .ok old ∧ after.read path = .ok new ∧ old ≠ new
  kept : ∀ location, (∀ path ∈ paths, files.place? path ≠ some location) → ∀ content,
    after.top.at? location = some (.file content) ↔ files.top.at? location = some (.file content)

variable {files : FileSystem} {search : Search}

theorem stage_rewrites {passes : Nat} (begun : 0 < passes ∨ brokenAfter (search.texts files) 0 = []) :
    Rewrites files (search.stage files passes) (brokenAfter (search.texts files) 0) := by
  have listed : ∀ {path text}, (path, text) ∈ search.texts files → ¬ Clean text →
      path ∈ brokenAfter (search.texts files) 0 := by
    intro path text member broken
    exact List.mem_map.mpr ⟨(path, text), List.mem_filter.mpr ⟨member, decide_eq_true broken⟩, rfl⟩
  constructor
  · intro path member
    obtain ⟨⟨known, text⟩, inside, rfl⟩ := List.mem_map.mp member
    obtain ⟨here, broken⟩ := List.mem_filter.mp inside
    have more := begun.resolve_right (List.ne_nil_of_mem member)
    obtain ⟨location, holds⟩ := exists_holds here
    exact ⟨text, _, holds.read, (holds_stage here holds passes).read,
      (mendOnce_iterate_ne (of_decide_eq_true broken) more).symm⟩
  · intro location elsewhere content
    -- What the passes make of a file that is none of the mended ones.
    have same : ∀ known, files.top.at? location = some (.file known) →
        mendContent (if location ∈ ((search.texts files).map Prod.fst).filterMap files.place? then passes
          else 0) known = known := by
      intro known found
      split_ifs with inside
      · obtain ⟨_, named, place⟩ := List.mem_filterMap.mp inside
        obtain ⟨⟨path, text⟩, member, rfl⟩ := List.mem_map.mp named
        obtain ⟨there, holds⟩ := exists_holds member
        obtain rfl : there = location := Option.some.inj (holds.place.symm.trans place)
        have clean : Clean text := by
          by_contra broken
          exact elsewhere path (listed member broken) place
        have content := holds.at?.symm.trans found
        simp only [Option.some.injEq, Entry.file.injEq] at content
        rw [← content, mendContent_toUTF8, mendOnce_iterate_of_clean clean]
      · exact mendContent_zero known
    rw [Search.stage, FileSystem.mendedAt, FileSystem.mendedBy, FileSystem.revise, Directory.at?_revise]
    cases found : files.top.at? location with
    | none => simp
    | some entry =>
        cases entry with
        | folder | link => simp [Entry.revise]
        | file known => simp only [Option.map_some, Entry.revise, List.append_nil, same known found]

theorem Check.run_reaches_stage (sound : files.top.Sound) {options : Options} (fix : options.fix = true)
    {progress : Progress} {report : Report}
    (done : run (.search search) .quiet options files = .ok (progress, report)) :
    report.mendedFiles = brokenAfter (search.texts files) 0 ∧
      ∃ passes, (0 < passes ∨ brokenAfter (search.texts files) 0 = []) ∧
        progress.files = search.stage files passes := by
  obtain ⟨least, first⟩ := exists_isLeast_clean (search.texts files)
  have settled := breaksAfter_eq_nil_iff_le first
  obtain ⟨told, result⟩ := run_search sound settled options.maxPasses
  rw [← fix] at result
  obtain ⟨rfl, rfl⟩ := Prod.mk.inj (Except.ok.inj (result.symm.trans done))
  refine ⟨rfl, _, ?_, rfl⟩
  by_cases atOnce : least = 0
  · right
    rw [brokenAfter_eq_nil_iff, settled, atOnce]
  · left
    omega

theorem FileSystem.writes_revise_iff (edit : Edit) (path : Path) (text other : List Char) :
    (∃ after, (files.revise edit).write path text = .ok after) ↔
      ∃ after, files.write path other = .ok after := by
  rw [write, write, writeBytes, writeBytes, locate_revise]
  cases files.locate .create path with
  | error failed => simp [Except.map, bind, Except.bind]
  | ok spot => cases spot <;> simp [Except.map, bind, Except.bind, Spot.revise]

namespace Invocation

/-- Whether files were asked to be staged one after another up to the first that was not staged, and a
warning told if there was one. A request that reaches nobody is not seen among the calls. -/
inductive Stages (stager : Stager) (invocation : Invocation) : List Path → Prop
  | all {paths : List Path} : (∀ path ∈ paths, stager path = .staged) →
      invocation.stagingCalls = paths → Stages stager invocation paths
  | refused {before after : List Path} {path : Path} {status : String} :
      (∀ other ∈ before, stager other = .staged) → stager path = .refused status →
      invocation.stagingCalls = before ++ [path] →
      stagingMessage false ∈ invocation.told → Stages stager invocation (before ++ path :: after)
  | unavailable {before after : List Path} {path : Path} : (∀ other ∈ before, stager other = .staged) →
      stager path = .unavailable → invocation.stagingCalls = before →
      stagingMessage false ∈ invocation.told → Stages stager invocation (before ++ path :: after)

section

variable {arguments : Arguments} {stager : Stager} {refuses : Refusals} {progress : Progress}
  {report : Report}

theorem staging_of_mended (prepush : arguments.prepush = true) {mended : List Path}
    (something : mended ≠ []) (stager : Stager) :
    staging arguments stager mended =
      ((stager.stage mended).1, stagingOutput (stager.stage mended).2) := by
  rw [staging, prepush, if_pos (by simpa using something)]

theorem warned_of_failure {output later : List Output} {failure : String} :
    stagingMessage false ∈
      (output ++ stagingOutput (some failure) ++ later).filterMap Output.message? := by
  refine List.mem_filterMap.mpr ⟨.message (stagingMessage false), ?_, rfl⟩
  exact List.mem_append_left _ (List.mem_append_right _ (List.mem_cons_of_mem _ List.mem_cons_self))

theorem stages_of_written {after : FileSystem} (prepush : arguments.prepush = true)
    (written : withReport arguments refuses progress report.breaks = .ok after)
    (something : report.mendedFiles ≠ []) :
    Stages stager (finish stager refuses arguments progress report) report.mendedFiles := by
  rw [finish, written]
  simp only [staging_of_mended prepush something]
  rcases stager.stage_cases report.mendedFiles with ⟨whole, all⟩ |
    ⟨before, path, later, parts, all, ⟨status, refused, asked⟩ | ⟨unavailable, asked⟩⟩
  · rw [whole]
    exact .all all rfl
  · rw [asked, parts]
    exact .refused all refused rfl warned_of_failure
  · rw [asked, parts]
    exact .unavailable all unavailable rfl warned_of_failure

theorem not_stages_ended {complaint : Complaint} {paths : List Path} (something : paths ≠ [])
    (quiet : progress.told.filter aboutStaging = []) :
    ¬ Stages stager (ended arguments progress complaint) paths := by
  have unwarned : stagingMessage false ∉ (ended arguments progress complaint).told := by
    rw [told_ended]
    intro told
    exact List.filter_eq_nil_iff.mp quiet _ told (aboutStaging_stagingMessage false)
  intro stages
  cases stages with
  | all _ calls => exact something calls.symm
  | refused _ _ _ warned | unavailable _ _ _ warned => exact unwarned warned

theorem stages_finish_iff (prepush : arguments.prepush = true)
    (quiet : progress.told.filter aboutStaging = []) (something : report.mendedFiles ≠ []) :
    Stages stager (finish stager refuses arguments progress report) report.mendedFiles ↔
      ∃ after, withReport arguments refuses progress report.breaks = .ok after := by
  cases written : withReport arguments refuses progress report.breaks with
  | error failed =>
      rw [finish, written]
      exact iff_of_false (not_stages_ended something quiet) nofun
  | ok after => exact iff_of_true (stages_of_written prepush written something) ⟨after, rfl⟩

theorem withReport_ok_iff (progress : Progress) (breaks : List Break) :
    (∃ after, withReport arguments .never progress breaks = .ok after) ↔
      ∀ path ∈ arguments.json, ∃ after,
        progress.files.write path (JsonReport.render breaks) = .ok after := by
  rw [withReport]
  cases arguments.json <;> simp [Refusals.never]

variable (arguments stager progress report) in
theorem files_finish : (finish stager .never arguments progress report).files = progress.files ∨
    ∃ path ∈ arguments.json, progress.files.write path (JsonReport.render report.breaks) =
      .ok (finish stager .never arguments progress report).files := by
  rw [finish]
  cases written : withReport arguments .never progress report.breaks with
  | error failed => exact Or.inl rfl
  | ok after =>
      rw [withReport] at written
      cases json : arguments.json with
      | none =>
          rw [json] at written
          exact Or.inl (Except.ok.inj written).symm
      | some path =>
          rw [json] at written
          exact Or.inr ⟨path, rfl, written⟩

end

/-- An invocation before a push, whose settings are found. The files that its check rewrote are staged, or
the user is warned that they are not, just if the report is written where it was asked for: where no file
can be made, the invocation ends before. -/
theorem run?_prepush_stages_iff {words : List String} {arguments : Arguments} {files : FileSystem}
    {settings : Settings} (asked : Command.ofWords? words = some (.check arguments))
    (prepush : arguments.prepush = true)
    (found : Settings.find files arguments.config (rootOf arguments) = .ok settings)
    (sound : files.top.Sound) (stager : Stager) :
    let mended := mendedFiles arguments files
    ∃ invocation checked, run? stager words files = some invocation ∧
      Path.Ascending mended ∧ Rewrites files checked mended ∧
      (invocation.files = checked ∨ ∃ path ∈ arguments.json, ∃ breaks,
        checked.write path (JsonReport.render breaks) = .ok invocation.files) ∧
      ((mended ≠ [] → Stages stager invocation mended) ↔
        mended = [] ∨ ∀ path ∈ arguments.json, ∃ after, files.write path [] = .ok after) := by
  intro mended
  obtain ⟨progress, report, done, same, finished⟩ := check_of_found found .never
  have fix : (optionsOf arguments).fix = true := by simp [optionsOf, prepush]
  obtain ⟨broken, passes, begun, reached⟩ := Check.run_reaches_stage sound fix done
  have ascending := Check.brokenAfter_ascending (searchOf arguments settings) sound 0
  have rewrites := stage_rewrites begun
  rw [← broken] at ascending rewrites
  rw [← reached] at rewrites
  have quiet := filter_aboutStaging_announced done
  simp only [mended, same]
  refine ⟨check stager .never arguments files, progress.files, run?_of_check asked stager .never files,
    ascending, rewrites, ?_, ?_⟩
  · rw [finished]
    rcases files_finish arguments stager (announced arguments progress) report with
      plain | ⟨path, here, written⟩
    · exact Or.inl plain
    · exact Or.inr ⟨path, here, report.breaks, written⟩
  by_cases nothing : report.mendedFiles = []
  · simp [nothing]
  · rw [finished, or_iff_right nothing, imp_iff_right nothing,
      stages_finish_iff prepush (filter_aboutStaging_announced done) nothing, withReport_ok_iff]
    simp only [files_announced, reached, Search.stage, FileSystem.mendedAt, FileSystem.mendedBy,
      FileSystem.writes_revise_iff _ _ _ []]

def beforePush (json : Option Path) : Arguments :=
  { prepush := true, json := json }

theorem find_onePage (text : String) (json : Option Path) :
    Settings.find (Check.onePage text) (beforePush json).config (rootOf (beforePush json)) =
      .ok .usual := by
  have plain : Settings.find (Check.onePage text) none ⟨"."⟩ = .ok .usual := rfl
  exact plain

theorem mendedFiles_onePage {text : String} (broken : ¬ Clean text.toList) (json : Option Path) :
    mendedFiles (beforePush json) (Check.onePage text) = [⟨"./page.jinja"⟩] := by
  obtain ⟨progress, report, done, same, -⟩ := check_of_found (find_onePage text json) .never
  have search : searchOf (beforePush json) .usual = Check.pages := rfl
  rw [same, (Check.run_reaches_stage (Check.onePage_sound text) rfl done).1, search,
    Check.texts_onePage]
  simp [brokenAfter, broken]

/-- The break is mended, and the page asked for, though it is not staged in the end. -/
theorem run?_prepush_stages_page :
    let page := Check.onePage "_(\"a\nb\")"
    let arguments := beforePush (some ⟨"report.json"⟩)
    Command.ofWords? ["check", "--prepush", "--json", "report.json"] = some (.check arguments) ∧
      Settings.find page arguments.config (rootOf arguments) = .ok .usual ∧ page.top.Sound ∧
      ∃ invocation, run? (fun _ => .refused) ["check", "--prepush", "--json", "report.json"] page =
          some invocation ∧
        Stages (fun _ => .refused) invocation [⟨"./page.jinja"⟩] := by
  intro page arguments
  have asked : Command.ofWords? ["check", "--prepush", "--json", "report.json"] =
      some (.check arguments) := rfl
  have found : Settings.find page arguments.config (rootOf arguments) = .ok .usual := find_onePage _ _
  have sound : page.top.Sound := Check.onePage_sound _
  have mended : mendedFiles arguments page = [⟨"./page.jinja"⟩] := mendedFiles_onePage (by decide) _
  obtain ⟨invocation, checked, done, -, -, -, stages⟩ :=
    run?_prepush_stages_iff asked rfl found sound fun _ => .refused
  rw [mended] at stages
  refine ⟨asked, found, sound, invocation, done, stages.mpr (Or.inr ?_) (by simp)⟩
  rintro path ⟨⟩
  exact ⟨_, rfl⟩

/-- Where the report can be written nowhere, the page is mended as well, but nobody is asked to stage it,
though any request would be granted. -/
theorem run?_prepush_unstaged :
    let page := Check.onePage "_(\"a\nb\")"
    ∃ invocation, run? (fun _ => .staged) ["check", "--prepush", "--json", "missing/report.json"] page =
        some invocation ∧
      Rewrites page invocation.files [⟨"./page.jinja"⟩] ∧
      ¬ Stages (fun _ => .staged) invocation [⟨"./page.jinja"⟩] := by
  intro page
  let arguments := beforePush (some ⟨"missing/report.json"⟩)
  have asked : Command.ofWords? ["check", "--prepush", "--json", "missing/report.json"] =
      some (.check arguments) := rfl
  have mended : mendedFiles arguments page = [⟨"./page.jinja"⟩] := mendedFiles_onePage (by decide) _
  obtain ⟨progress, report, done, same, finished⟩ :=
    check_of_found (show Settings.find page arguments.config _ = _ from find_onePage _ _) .never
  obtain ⟨broken, passes, begun, reached⟩ := Check.run_reaches_stage (Check.onePage_sound _) rfl done
  have rewrites := stage_rewrites begun
  rw [← broken, ← same, mended, ← reached] at rewrites
  have barred : ¬ ∃ after, withReport arguments .never (announced arguments progress) report.breaks =
      .ok after := by
    rw [withReport_ok_iff, files_announced, reached]
    intro all
    obtain ⟨after, written⟩ := (FileSystem.writes_revise_iff _ _ _ []).mp (all _ rfl)
    have refused : page.write ⟨"missing/report.json"⟩ [] = .error .notFound := rfl
    rw [refused] at written
    cases written
  refine ⟨_, run?_of_check asked _ .never page, ?_, ?_⟩
  · rw [finished, finish]
    cases written : withReport arguments .never (announced arguments progress) report.breaks with
    | error failed => exact rewrites
    | ok after => exact absurd ⟨after, written⟩ barred
  · have prepush : arguments.prepush = true := rfl
    have something : report.mendedFiles ≠ [] := by
      rw [← same, mended]
      exact List.cons_ne_nil _ _
    rw [finished, ← mended, same]
    exact mt (stages_finish_iff prepush (filter_aboutStaging_announced done) something).mp barred

end Invocation

end Unbroken
