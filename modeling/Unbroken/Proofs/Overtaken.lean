import Unbroken.Proofs.Relisted
import Unbroken.Proofs.Reordered
import Unbroken.Proofs.Spoken

/-! Files that are edited between the survey and the first pass. The pass reads them as they are by then,
but mends the breaks that the survey found. -/

namespace Unbroken

def attempt : Message := .info "Attempting to auto-fix...\n"

/-- Somebody edits the files on hearing that breaks will be mended, and else leaves them alone. -/
def Surroundings.editing (edit : FileSystem → FileSystem) : Surroundings :=
  { listener := fun message files => if message = attempt then edit files else files }

theorem ne_attempt_of_head?_ne {message : Message} (other : message.text.toList.head? ≠ some 'A') :
    message ≠ attempt := by
  rintro rfl
  exact other (by decide)

theorem heading_ne_attempt (position : Nat) (broken : Break) :
    .info (broken.heading position) ≠ attempt := by
  obtain ⟨digit, isDigit, starts⟩ := Break.exists_head?_heading position broken
  have letter : digit ≠ 'A' := by
    rintro rfl
    cases isDigit
  exact ne_attempt_of_head?_ne (by simpa [Message.info, starts] using letter)

theorem ne_attempt_of_mem_listing {breaks : List Break} {message : Message}
    (member : message ∈ listing breaks) : message ≠ attempt := by
  rcases List.mem_cons.mp member with rfl | member
  · exact fun same => by cases congrArg Message.severity same
  · obtain ⟨entry, listed, inside⟩ := List.mem_flatten.mp member
    obtain ⟨index, bound, rfl⟩ := List.mem_mapIdx.mp listed
    simp only [Break.entry, List.cons_append, List.nil_append, List.mem_cons, List.mem_append,
      List.mem_map, List.not_mem_nil, or_false] at inside
    rcases inside with rfl | rfl | ⟨row, -, rfl⟩ | rfl
    · exact heading_ne_attempt _ _
    · decide
    · exact fun same => by cases congrArg Message.severity same
    · decide

namespace Progress

variable {edit : FileSystem → FileSystem}

theorem tell_editing (progress : Progress) {message : Message} (other : message ≠ attempt) :
    progress.tell (.editing edit) message =
      { files := progress.files, told := progress.told ++ [message] } := by
  simp only [tell, Surroundings.editing, if_neg other]

theorem tellAll_editing (progress : Progress) {messages : List Message}
    (others : ∀ message ∈ messages, message ≠ attempt) :
    progress.tellAll (.editing edit) messages =
      { files := progress.files, told := progress.told ++ messages } := by
  induction messages generalizing progress with
  | nil => simp [tellAll]
  | cons message later ih =>
      obtain ⟨first, rest⟩ := List.forall_mem_cons.mp others
      rw [tellAll, List.foldl_cons, tell_editing progress first]
      simpa [tellAll] using ih { files := progress.files, told := progress.told ++ [message] } rest

end Progress

namespace Check

variable {files : FileSystem} {all : List (List Break)} {location : List String}

theorem filter_same_of_different {paths : List Path} (different : Different paths) {path : Path}
    (listed : path ∈ paths) : paths.filter path.same = [path] := by
  obtain ⟨before, after, rfl⟩ := List.append_of_mem listed
  obtain ⟨-, behind, across⟩ := List.pairwise_append.mp different
  have above : ∀ other ∈ before, ¬ path.same other = true := by
    intro other member turned
    have differ := across other member path List.mem_cons_self
    rw [(Path.same_iff _ _).mpr ((Path.same_iff _ _).mp turned).symm] at differ
    cases differ
  have below : ∀ other ∈ after, ¬ path.same other = true := by
    intro other member
    rw [(List.pairwise_cons.mp behind).1 other member]
    exact Bool.false_ne_true
  rw [List.filter_append, List.filter_cons_of_pos ((Path.same_iff _ _).mpr rfl),
    List.filter_eq_nil_iff.mpr above, List.filter_eq_nil_iff.mpr below, List.nil_append]

theorem turnsOf_surveyed {later : FileSystem} {paths : List Path} (different : Different paths)
    (apart : later.TellsApart paths) {path : Path} (listed : path ∈ paths) {text : List Char}
    (given : files.read path = .ok text) (place : later.place? path = some location) :
    turnsOf later (groups (surveyFiles files paths).breaks) location =
      (breaksIn path text).reverse := by
  have told : ∀ broken ∈ (surveyFiles files paths).breaks,
      path.same broken.file = true ↔ later.place? broken.file = some location := by
    intro broken member
    obtain ⟨other, known, words, -, inside⟩ := (mem_breaks_iff files paths broken).mp member
    rw [file_of_mem_breaksIn inside]
    exact apart path listed other known location place
  have found : [path].filterMap (fun other => (files.breaksOf other).toOption) =
      [breaksIn path text] := by
    rw [List.filterMap_cons, toOption_breaksOf, given]
    rfl
  have perm : ((surveyFiles files paths).breaks.filter fun broken => path.same broken.file).Perm
      (List.replicate 1 (breaksIn path text)).flatten := by
    rw [List.replicate_one, ← found, ← filter_same_of_different different listed, ← filter_same_surveyed]
    exact (List.mergeSort_perm _ _).filter _
  rw [turnsOf_groups (breaks_sorted _ _) told, bottomUp_of_perm (breaksIn_ascending path text) perm]
  exact List.flatMap_singleton' _

/-! A check whose files are edited. -/

section

variable {edit : FileSystem → FileSystem} {source : Source} {paths : List Path}

theorem mendGroup_editing (pass : Pass) (group : List Break) :
    mendGroup (.editing edit) pass group = mendGroup .quiet pass group := by
  cases group with
  | nil => rfl
  | cons broken others =>
      have other : .info ("Fixed: " ++ broken.file.spelling) ≠ attempt := by
        apply ne_attempt_of_head?_ne
        simp [Message.info]
      rw [mendGroup, mendGroup]
      cases pass.progress.files.mendFile broken.file (broken :: others) with
      | error failed => rfl
      | ok written =>
          cases written with
          | none => rfl
          | some after =>
              simp only [Progress.tell_editing _ other]
              rfl

theorem mendFiles_editing (progress : Progress) (breaks : List Break) :
    mendFiles (.editing edit) progress breaks = mendFiles .quiet progress breaks := by
  have same : mendGroup (.editing edit) = mendGroup .quiet :=
    funext fun pass => funext fun group => mendGroup_editing pass group
  rw [mendFiles, same, mendFiles]

theorem files_mendFiles_turns {progress : Progress} (sound : progress.files.top.Sound)
    {breaks : List Break} (proper : ∀ broken ∈ breaks, broken.Proper) :
    (mendFiles (.editing edit) progress breaks).progress.files =
      progress.files.editedBy fun location =>
        mendTurns (turnsOf progress.files (groups breaks) location) := by
  rw [mendFiles_editing, mendFiles]
  refine files_foldl_turns sound ?_ progress.files.editedBy_id.symm
  intro group member broken inside
  exact proper broken (mem_of_mem_groups member inside)

theorem run_editing (listed : source.list 1 files = .ok paths)
    (found : (surveyFiles files paths).breaks ≠ []) (maxPasses : Nat) :
    run source (.editing edit) { fix := true, maxPasses := maxPasses } files =
      (mendPasses source (.editing edit) (max 1 maxPasses) {
        progress := {
          files := edit files
          told := listing (surveyFiles files paths).breaks ++ [attempt] }
        passes := 0
        mended := []
        remaining := (surveyFiles files paths).breaks }).map
          (conclude (.editing edit) (surveyFiles files paths)) := by
  have told : ∀ message ∈ listing (surveyFiles files paths).breaks, message ≠ attempt :=
    fun _ => ne_attempt_of_mem_listing
  rw [run, listed]
  simp only [if_neg (mt List.isEmpty_iff.mp found), if_true]
  rw [Progress.tellAll_editing _ told]
  rfl

theorem files_conclude_editing (first : Overview) (mending : Mending) :
    (conclude (.editing edit) first mending).1.files = mending.progress.files := by
  rw [conclude]
  split_ifs
  · rw [Progress.tell_editing]
    decide
  · rw [Progress.tellAll_editing]
    decide

theorem filesLeft_mendPasses_one (first : Overview) (mending : Mending) :
    filesLeft Prod.fst ((mendPasses source (.editing edit) 1 mending).map
      (conclude (.editing edit) first)) =
        (mendFiles (.editing edit) mending.progress mending.remaining).progress.files := by
  rw [mendPasses]
  generalize mendFiles (.editing edit) mending.progress mending.remaining = pass
  dsimp only
  have other : ∀ count : Nat, .info ("\nAuto-fixed " ++ toString count ++
      " file(s). Re-running check...\n") ≠ attempt := by
    intro count
    apply ne_attempt_of_head?_ne
    simp [Message.info]
  split_ifs
  · exact files_conclude_editing first _
  · rw [Progress.tell_editing _ (other _)]
    cases source.list (mending.passes + 1 + 1) pass.progress.files with
    | error reason => rfl
    | ok paths =>
        dsimp only
        split_ifs
        · exact files_conclude_editing first _
        · rw [mendPasses, Progress.tellAll_editing _ fun _ => ne_attempt_of_mem_listing]
          exact files_conclude_editing first _

theorem filesLeft_run_editing (listed : source.list 1 files = .ok paths)
    (found : (surveyFiles files paths).breaks ≠ []) (sound : (edit files).top.Sound) {maxPasses : Nat}
    (one : maxPasses ≤ 1) :
    filesLeft Prod.fst (run source (.editing edit) { fix := true, maxPasses := maxPasses } files) =
      (edit files).editedBy fun location =>
        mendTurns (turnsOf (edit files) (groups (surveyFiles files paths).breaks) location) := by
  rw [run_editing listed found, Nat.max_eq_left one, filesLeft_mendPasses_one]
  exact files_mendFiles_turns sound fun _ => proper_of_mem_breaks

/-- A check whose files are edited when mending is about to begin. Its first pass leaves every file that
it can read by then as it is after the breaks of the survey had their turns in it: those that find no
markers are passed over, and the visible letters stay, at every turn, just if every other one finds the
letters of its own message between its markers. Paths that cannot be read by then stay as they are, and
if one pass is all, nothing is changed after it. -/
theorem run_overtaken (listed : source.list 1 files = .ok paths)
    (found : (surveyFiles files paths).breaks ≠ []) (sound : (edit files).top.Sound) (maxPasses : Nat) :
    let first := surveyFiles files paths
    let around := Surroundings.editing edit
    let check := run source around { fix := true, maxPasses := maxPasses } files
    let begun : Mending := {
      progress := { files := edit files, told := listing first.breaks ++ [attempt] }
      passes := 0
      mended := []
      remaining := first.breaks }
    let after := (mendFiles around begun.progress begun.remaining).progress.files
    let turns := turnsOf (edit files) (groups first.breaks)
    check = (mendPasses source around (max 1 maxPasses) begun).map (conclude around first) ∧
      (maxPasses ≤ 1 → filesLeft Prod.fst check = after) ∧
      (∀ path text location, Holds (edit files) path text location →
        Holds after path (mendTurns (turns location) text) location ∧
          (FaithfulIn text (turns location) ↔
            ∀ count, solid (mendTurns ((turns location).take count) text) = solid text)) ∧
      ∀ path, ((edit files).read path).toOption = none →
        after.locate .access path = (edit files).locate .access path := by
  intro first around check begun after turns
  have proper : ∀ broken ∈ first.breaks, broken.Proper := fun _ => proper_of_mem_breaks
  have left : after = (edit files).editedBy fun location => mendTurns (turns location) :=
    files_mendFiles_turns sound proper
  refine ⟨run_editing listed found maxPasses, ?_, ?_, ?_⟩
  · intro one
    exact (filesLeft_run_editing listed found sound one).trans left.symm
  · intro path text location holds
    rw [left]
    refine ⟨holds.editedBy _, faithfulIn_iff ?_ text⟩
    intro broken member
    exact proper broken (flatten_groups first.breaks ▸ mem_of_mem_turnsOf member)
  · intro path unreadable
    rw [left]
    exact locate_editedBy_of_unreadable unreadable _

end

theorem breaks_onePage_ne_nil {text : String} (broken : ¬ Clean text.toList) :
    (surveyFiles (onePage text) [⟨"page.jinja"⟩]).breaks ≠ [] := by
  obtain ⟨first, inside⟩ :=
    List.exists_mem_of_ne_nil _ (mt (breaksIn_eq_nil_iff ⟨"page.jinja"⟩ text.toList).mp broken)
  have found := (mem_breaks_iff (onePage text) [⟨"page.jinja"⟩] first).mpr
    ⟨_, List.mem_cons_self, _, read_listed_onePage text, inside⟩
  exact List.ne_nil_of_mem found

theorem holds_onePage (text : String) :
    Holds (onePage text) ⟨"page.jinja"⟩ text.toList ["page.jinja"] := by
  constructor
  rw [String.ofList_toList]
  rfl

theorem turnsOf_onePage (before after : String) :
    turnsOf (onePage after) (groups (surveyFiles (onePage before) [⟨"page.jinja"⟩]).breaks)
      ["page.jinja"] = (breaksIn ⟨"page.jinja"⟩ before.toList).reverse := by
  have different : Different [⟨"page.jinja"⟩] := by decide
  have apart : (onePage after).TellsApart [⟨"page.jinja"⟩] := tellsApart_replicate _ _ 1
  rw [turnsOf_surveyed different apart List.mem_cons_self (read_listed_onePage before)
    (holds_onePage after).place]

/-- A page is edited so that one of its two breaks is still there, differently spaced, and the other is
not. -/
theorem run_overtaken_page :
    let page := onePage "_(\"a\nb\")\n_(\"c\nd\")"
    let edited := onePage "_(\"a\n b\")\nfree"
    let edit : FileSystem → FileSystem := fun _ => edited
    let text := "_(\"a\n b\")\nfree".toList
    let turns := turnsOf edited (groups (surveyFiles page [⟨"page.jinja"⟩]).breaks) ["page.jinja"]
    (Source.fixed [⟨"page.jinja"⟩]).list 1 page = .ok [⟨"page.jinja"⟩] ∧
      (surveyFiles page [⟨"page.jinja"⟩]).breaks ≠ [] ∧ edited.top.Sound ∧
      FaithfulIn text turns ∧ (∀ count, solid (mendTurns (turns.take count) text) = solid text) ∧
      (filesLeft Prod.fst (run (.fixed [⟨"page.jinja"⟩]) (.editing edit)
        { fix := true, maxPasses := 1 } page)).read ⟨"page.jinja"⟩ =
          .ok "_(\"a b\")\nfree".toList := by
  intro page edited edit text turns
  have found : (surveyFiles page [⟨"page.jinja"⟩]).breaks ≠ [] := breaks_onePage_ne_nil (by decide)
  have listed : (Source.fixed [⟨"page.jinja"⟩]).list 1 page = .ok [⟨"page.jinja"⟩] := rfl
  have sound : (edit page).top.Sound := onePage_sound _
  have order : turns = (breaksIn ⟨"page.jinja"⟩ "_(\"a\nb\")\n_(\"c\nd\")".toList).reverse :=
    turnsOf_onePage _ _
  have faithful : FaithfulIn text turns := by
    rw [order]
    decide
  have mended : mendTurns turns text = "_(\"a b\")\nfree".toList := by
    rw [order]
    decide
  obtain ⟨-, left, there, -⟩ := run_overtaken listed found sound 1
  obtain ⟨holds, stays⟩ := there _ text _ (holds_onePage _)
  refine ⟨listed, found, sound, faithful, stays.mp faithful, ?_⟩
  rw [left (Nat.le_refl 1), holds.read, ← mended]

/-- A page is edited so that another message stands where a break was found. The break is mended all the
same, and the message is lost. -/
theorem run_overwrites_edit :
    let page := onePage "_(\"a\nb\")"
    let edited := onePage "_(\"x\ny\")"
    let after := filesLeft Prod.fst (run (.fixed [⟨"page.jinja"⟩]) (.editing fun _ => edited)
      { fix := true, maxPasses := 1 } page)
    edited.read ⟨"page.jinja"⟩ = .ok "_(\"x\ny\")".toList ∧
      after.read ⟨"page.jinja"⟩ = .ok "_(\"a b\")".toList ∧
      solid "_(\"a b\")".toList ≠ solid "_(\"x\ny\")".toList := by
  intro page edited after
  have found : (surveyFiles page [⟨"page.jinja"⟩]).breaks ≠ [] := breaks_onePage_ne_nil (by decide)
  have listed : (Source.fixed [⟨"page.jinja"⟩]).list 1 page = .ok [⟨"page.jinja"⟩] := rfl
  let edit : FileSystem → FileSystem := fun _ => edited
  have sound : (edit page).top.Sound := onePage_sound _
  have left : after = _ := filesLeft_run_editing listed found sound (Nat.le_refl 1)
  have mended : mendTurns (turnsOf edited (groups (surveyFiles page [⟨"page.jinja"⟩]).breaks)
      ["page.jinja"]) "_(\"x\ny\")".toList = "_(\"a b\")".toList := by
    rw [turnsOf_onePage]
    decide
  refine ⟨read_listed_onePage _, ?_, by decide⟩
  rw [left, ((holds_onePage _).editedBy _).read, ← mended]

end Check

end Unbroken
