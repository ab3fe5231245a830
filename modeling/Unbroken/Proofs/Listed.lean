import Mathlib.Data.List.SplitBy
import Unbroken.Proofs.Stage

/-! The texts of the files that a search lists, and what a survey of all of them finds at a stage: what
a survey of each text finds, in the order of the paths. -/

namespace Unbroken

def Search.texts (search : Search) (files : FileSystem) : List (Path × List Char) :=
  (search.files files).filterMap fun path => (files.read path).toOption.map fun text => (path, text)

def breaksAfter (texts : List (Path × List Char)) (passes : Nat) : List Break :=
  texts.flatMap fun (path, text) => breaksIn path (mendOnce^[passes] text)

def brokenAfter (texts : List (Path × List Char)) (passes : Nat) : List Path :=
  (texts.filter fun (_, text) => ¬ Clean (mendOnce^[passes] text)).map Prod.fst

def Shelved (texts : List (Path × List Char)) : Prop :=
  texts.Pairwise fun left right => Path.order left.1 right.1 = .lt

theorem file_of_mem_breaksIn {path : Path} {text : List Char} {broken : Break}
    (member : broken ∈ breaksIn path text) : broken.file = path := by
  rw [breaksIn_eq_map] at member
  obtain ⟨other, -, rfl⟩ := List.mem_map.mp member
  rfl

theorem order_isLE_of_firstLine_lt {left right : Break} (file : left.file = right.file)
    (lines : left.firstLine < right.firstLine) : (Break.order left right).isLE = true := by
  rw [Break.order, file]
  have same : compare right.file right.file = .eq := (Path.order_eq_iff _ _).mpr rfl
  rw [same, Nat.compare_eq_lt.mpr lines]
  rfl

theorem order_isLE_of_file_lt {left right : Break} (files : Path.order left.file right.file = .lt) :
    (Break.order left right).isLE = true := by
  have less : compare left.file right.file = .lt := files
  rw [Break.order, less]
  rfl

def groupsAfter (texts : List (Path × List Char)) (passes : Nat) : List (List Break) :=
  (texts.map fun (path, text) => breaksIn path (mendOnce^[passes] text)).filter fun group =>
    !group.isEmpty

theorem flatten_groupsAfter (texts : List (Path × List Char)) (passes : Nat) :
    (groupsAfter texts passes).flatten = breaksAfter texts passes :=
  List.flatten_filter_not_isEmpty

theorem exists_of_mem_groupsAfter {texts : List (Path × List Char)} {passes : Nat} {group : List Break}
    (member : group ∈ groupsAfter texts passes) :
    group ≠ [] ∧ ∃ path text, group = breaksIn path (mendOnce^[passes] text) := by
  obtain ⟨found, nonempty⟩ := List.mem_filter.mp member
  obtain ⟨⟨path, text⟩, -, rfl⟩ := List.mem_map.mp found
  exact ⟨by simpa using nonempty, path, text, rfl⟩

theorem groupsAfter_ascending {texts : List (Path × List Char)} (shelved : Shelved texts)
    (passes : Nat) : (groupsAfter texts passes).Pairwise fun left right =>
      ∀ upper ∈ left, ∀ lower ∈ right, Path.order upper.file lower.file = .lt := by
  refine List.Pairwise.filter _ (List.pairwise_map.mpr (shelved.imp ?_))
  intro left right ordered upper here lower there
  rw [file_of_mem_breaksIn here, file_of_mem_breaksIn there]
  exact ordered

theorem sorted_breaksAfter {texts : List (Path × List Char)} (shelved : Shelved texts) (passes : Nat) :
    Break.sorted (breaksAfter texts passes) = breaksAfter texts passes := by
  apply List.mergeSort_of_pairwise
  rw [← flatten_groupsAfter, List.pairwise_flatten]
  constructor
  · intro group member
    obtain ⟨-, path, text, rfl⟩ := exists_of_mem_groupsAfter member
    have ascending := breaksFrom_ascending path 1 (splitLines (mendOnce^[passes] text))
    refine ascending.imp_of_mem fun left right lines => ?_
    exact order_isLE_of_firstLine_lt
      ((file_of_mem_breaksIn left).trans (file_of_mem_breaksIn right).symm) lines
  · exact (groupsAfter_ascending shelved passes).imp fun ordered upper here lower there =>
      order_isLE_of_file_lt (ordered upper here lower there)

theorem groups_breaksAfter {texts : List (Path × List Char)} (shelved : Shelved texts) (passes : Nat) :
    Check.groups (breaksAfter texts passes) = groupsAfter texts passes := by
  rw [Check.groups, ← flatten_groupsAfter]
  apply List.splitBy_flatten
  · simp [groupsAfter]
  · intro group member
    obtain ⟨-, path, text, rfl⟩ := exists_of_mem_groupsAfter member
    apply List.Pairwise.isChain
    refine List.pairwise_of_forall_mem_list fun left leftMember right rightMember => ?_
    rw [Path.same_iff, file_of_mem_breaksIn leftMember, file_of_mem_breaksIn rightMember]
  · apply List.Pairwise.isChain
    refine (groupsAfter_ascending shelved passes).imp_of_mem fun left right ordered => ?_
    have leftNonempty := (exists_of_mem_groupsAfter left).1
    have rightNonempty := (exists_of_mem_groupsAfter right).1
    refine ⟨leftNonempty, rightNonempty, ?_⟩
    have less := ordered _ (List.getLast_mem leftNonempty) _ (List.head_mem rightNonempty)
    rw [Bool.eq_false_iff, ne_eq, Path.same_iff]
    intro same
    rw [(Path.order_eq_iff _ _).mpr same] at less
    cases less

/-! The texts that a search lists. -/

section

variable {search : Search} {files : FileSystem}

theorem mem_texts_iff (search : Search) (files : FileSystem) (path : Path) (text : List Char) :
    (path, text) ∈ search.texts files ↔ path ∈ search.files files ∧ files.read path = .ok text := by
  rw [Search.texts, List.mem_filterMap]
  constructor
  · rintro ⟨listed, member, found⟩
    cases given : files.read listed with
    | error error => simp [given, Except.toOption] at found
    | ok known =>
        simp only [given, Except.toOption, Option.map_some, Option.some.injEq, Prod.mk.injEq] at found
        obtain ⟨rfl, rfl⟩ := found
        exact ⟨member, given⟩
  · rintro ⟨member, given⟩
    exact ⟨path, member, by rw [given]; rfl⟩

theorem exists_holds {path : Path} {text : List Char} (member : (path, text) ∈ search.texts files) :
    ∃ location, Holds files path text location :=
  exists_holds_of_read ((mem_texts_iff search files path text).mp member).2

theorem texts_shelved (search : Search) (sound : files.top.Sound) : Shelved (search.texts files) := by
  refine (search.files_ascending sound).filterMap _ ?_
  intro left right ordered entry found other there
  obtain ⟨text, -, rfl⟩ := Option.map_eq_some_iff.mp found
  obtain ⟨more, -, rfl⟩ := Option.map_eq_some_iff.mp there
  exact ordered

theorem texts_apart (search : Search) (sound : files.top.Sound) :
    (search.texts files).Pairwise fun left right => files.place? left.1 ≠ files.place? right.1 := by
  refine (texts_shelved search sound).imp_of_mem ?_
  rintro ⟨left, text⟩ ⟨right, more⟩ leftMember rightMember ordered same
  obtain ⟨location, leftHolds⟩ := exists_holds leftMember
  obtain ⟨place, rightHolds⟩ := exists_holds rightMember
  rw [leftHolds.place, rightHolds.place, Option.some.injEq] at same
  subst same
  have content := leftHolds.at?.symm.trans rightHolds.at?
  simp only [Option.some.injEq, Entry.file.injEq] at content
  have listed := fun {path text} (member : (path, text) ∈ search.texts files) =>
    (search.mem_files_iff files path).mp ((mem_texts_iff search files path text).mp member).1
  have alike := (search.lists_candidates files).injective sound (listed leftMember)
    (listed rightMember) (content ▸ leftHolds.located) rightHolds.located
  have equal : Path.order left right = .eq := by
    rw [Path.order_eq_iff, alike]
  rw [equal] at ordered
  cases ordered

/-- The files when each listed text has had some passes. -/
def Search.stage (search : Search) (files : FileSystem) (passes : Nat) : FileSystem :=
  files.mendedAt ((search.texts files).map Prod.fst) passes

theorem stage_zero (search : Search) (files : FileSystem) : search.stage files 0 = files := by
  rw [Search.stage, FileSystem.mendedAt, FileSystem.mendedBy]
  refine FileSystem.revise_id _ fun location content => ?_
  rw [ite_self, mendContent_zero]

theorem holds_stage {path : Path} {text : List Char} {location : List String}
    (member : (path, text) ∈ search.texts files) (holds : Holds files path text location)
    (passes : Nat) : Holds (search.stage files passes) path (mendOnce^[passes] text) location := by
  have listed : location ∈ ((search.texts files).map Prod.fst).filterMap files.place? :=
    List.mem_filterMap.mpr ⟨path, List.mem_map.mpr ⟨_, member, rfl⟩, holds.place⟩
  have later := holds.mendedBy fun location =>
    if location ∈ ((search.texts files).map Prod.fst).filterMap files.place? then passes else 0
  rwa [if_pos listed] at later

theorem files_stage (search : Search) (sound : files.top.Sound) (passes : Nat) :
    search.files (search.stage files passes) = search.files files := by
  refine Search.files_revise sound fun location content found => ?_
  by_cases listed : location ∈ ((search.texts files).map Prod.fst).filterMap files.place?
  · refine Or.inr ⟨?_, size_mendContent_le _ _⟩
    obtain ⟨_, named, place⟩ := List.mem_filterMap.mp listed
    obtain ⟨⟨path, text⟩, member, rfl⟩ := List.mem_map.mp named
    obtain ⟨there, holds⟩ := exists_holds member
    obtain rfl : there = location := Option.some.inj (holds.place.symm.trans place)
    have known := holds.at?.symm.trans found
    simp only [Option.some.injEq, Entry.file.injEq] at known
    exact ⟨path, (search.mem_files_iff files path).mp ((mem_texts_iff _ _ _ _).mp member).1,
      known ▸ holds.located⟩
  · refine Or.inl ?_
    change mendContent (if _ then passes else 0) content = content
    rw [if_neg listed, mendContent_zero]

theorem toOption_read_stage_of_none {path : Path} (unreadable : (files.read path).toOption = none)
    (passes : Nat) : ((search.stage files passes).read path).toOption = none :=
  toOption_read_editedBy_of_none unreadable _

theorem toOption_breaksOf (files : FileSystem) (path : Path) :
    (files.breaksOf path).toOption = (files.read path).toOption.map (breaksIn path) := by
  rw [FileSystem.breaksOf, FileSystem.loadTemplate]
  cases files.read path <;> rfl

theorem Check.mem_surveyed_iff (files : FileSystem) (paths : List Path) (broken : Break) :
    broken ∈ (paths.filterMap fun path => (files.breaksOf path).toOption).flatten ↔
      ∃ path ∈ paths, ∃ text, files.read path = .ok text ∧ broken ∈ breaksIn path text := by
  rw [List.mem_flatten]
  constructor
  · rintro ⟨group, found, inside⟩
    obtain ⟨path, member, known⟩ := List.mem_filterMap.mp found
    rw [toOption_breaksOf, Option.map_eq_some_iff] at known
    obtain ⟨text, given, rfl⟩ := known
    cases read : files.read path with
    | error failed => simp [read, Except.toOption] at given
    | ok known =>
        obtain rfl : known = text := by simpa [read, Except.toOption] using given
        exact ⟨path, member, known, read, inside⟩
  · rintro ⟨path, member, text, given, inside⟩
    refine ⟨breaksIn path text, List.mem_filterMap.mpr ⟨path, member, ?_⟩, inside⟩
    rw [toOption_breaksOf, given]
    rfl

theorem Check.mem_breaks_iff (files : FileSystem) (paths : List Path) (broken : Break) :
    broken ∈ (surveyFiles files paths).breaks ↔
      ∃ path ∈ paths, ∃ text, files.read path = .ok text ∧ broken ∈ breaksIn path text := by
  rw [surveyFiles, Break.sorted, List.mem_mergeSort]
  exact mem_surveyed_iff files paths broken

theorem surveyFiles_stage (search : Search) (sound : files.top.Sound) (passes : Nat) :
    Check.surveyFiles (search.stage files passes) (search.files files) =
      { filesRead := (search.texts files).length
        breaks := breaksAfter (search.texts files) passes } := by
  have found : (search.files files).filterMap (fun path =>
      ((search.stage files passes).breaksOf path).toOption) =
      (search.texts files).map fun (path, text) => breaksIn path (mendOnce^[passes] text) := by
    rw [Search.texts, List.map_filterMap]
    refine List.filterMap_congr fun path member => ?_
    rw [toOption_breaksOf]
    cases given : (files.read path).toOption with
    | none => rw [toOption_read_stage_of_none given passes]; rfl
    | some text =>
        have known : (path, text) ∈ search.texts files :=
          List.mem_filterMap.mpr ⟨path, member, by rw [given]; rfl⟩
        obtain ⟨location, holds⟩ := exists_holds known
        rw [(holds_stage known holds passes).read]
        rfl
  rw [Check.surveyFiles, found, List.length_map, ← List.flatMap]
  exact congrArg _ (sorted_breaksAfter (texts_shelved search sound) passes)

end

end Unbroken
