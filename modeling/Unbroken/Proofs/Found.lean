import Unbroken.Proofs.FileSystem.Visits
import Unbroken.Proofs.Search

/-! Which files a search lists: those that lie where it may look and have the wanted extension and size,
all of them and nothing else. The order in which the tree is walked does not show. -/

namespace Unbroken

/-- Where a walk from a path starts: at a regular file, or at a directory that the path leads to, through
links if need be. -/
inductive FileSystem.StartsAt (files : FileSystem) (root : Path) : Entry → Prop
  | file {location : List String} {content : ByteArray}
      (seen : files.locate .inspect root = .ok (.file location content)) :
      StartsAt files root (.file content)
  | folder {location : List String} {entries : Directory}
      (led : files.locate .access root = .ok (.folder location))
      (base : files.top.at? location = some (.folder entries)) : StartsAt files root (.folder entries)

theorem FileSystem.StartsAt.sound {files : FileSystem} {root : Path} {start : Entry}
    (starts : files.StartsAt root start) (sound : files.top.Sound) : start.Sound := by
  cases starts with
  | file => trivial
  | folder _ base => exact (sound.at? base).2 _ rfl

theorem FileSystem.StartsAt.given {files : FileSystem} {root : Path} {start : Entry}
    (starts : files.StartsAt root start) : root.spelling ≠ "" := by
  cases starts with
  | file seen => exact Search.spelling_ne_empty_of_locate seen
  | folder led _ => exact Search.spelling_ne_empty_of_locate led

theorem FileSystem.StartsAt.eq {files : FileSystem} {root : Path} {start other : Entry}
    (starts : files.StartsAt root start) (others : files.StartsAt root other) : start = other := by
  have apart : ∀ {location content place}, files.locate .inspect root = .ok (.file location content) →
      files.locate .access root ≠ .ok (.folder place) := by
    intro location content place seen led
    cases (locate_access_of_inspect seen (by simp)).symm.trans led
  cases starts with
  | file seen =>
      cases others with
      | file again =>
          cases seen.symm.trans again
          rfl
      | folder led _ => exact absurd led (apart seen)
  | folder led base =>
      cases others with
      | file seen => exact absurd led (apart seen)
      | folder again there =>
          cases led.symm.trans again
          cases base.symm.trans there
          rfl

theorem Exclusions.excludes_extend (exclusions : Exclusions) (names : List String) (name : String) :
    (exclusions.extend names).excludes name = (exclusions.excludes name || names.contains name) := by
  simp [excludes, extend]

namespace Search

variable {search : Search} {files : FileSystem} {start : Entry} {path : Path} {names : List String}
  {content : ByteArray}

theorem accepts_iff (search : Search) (path : Path) (size : Nat) : search.accepts path size = true ↔
    path.extension? = some search.extension ∧ ∀ limit, search.maxFileSize = some limit → size ≤ limit := by
  rw [accepts, Bool.and_eq_true, beq_iff_eq]
  cases search.maxFileSize <;> simp

/-- A regular file that is searched for, with the names that lead to it from the start. All but the last
are names of directories on the way. -/
structure Wants (search : Search) (start : Entry) (names : List String) (content : ByteArray) : Prop where
  there : start.at? names = some (.file content)
  extension : (search.root.descend names).extension? = some search.extension
  entered : ∀ name ∈ names.dropLast, search.exclusions.excludes name = false
  small : ∀ limit, search.maxFileSize = some limit → content.size ≤ limit

theorem wants_iff : search.Wants start names content ↔
    start.at? names = some (.file content) ∧
      search.accepts (search.root.descend names) content.size = true ∧
      ∀ name ∈ names.dropLast, search.exclusions.excludes name = false := by
  rw [accepts_iff]
  constructor
  · rintro ⟨there, extension, entered, small⟩
    exact ⟨there, ⟨extension, small⟩, entered⟩
  · rintro ⟨there, ⟨extension, small⟩, entered⟩
    exact ⟨there, extension, entered, small⟩

theorem candidates_of_folder {location : List String} {entries : Directory}
    (led : files.locate .access search.root = .ok (.folder location))
    (base : files.top.at? location = some (.folder entries)) :
    search.candidates files = search.below search.root entries := by
  rw [candidates_eq]
  rcases FileSystem.locate_inspect_of_access led with seen | ⟨there, target, seen⟩
  · simp only [seen, inside, base]
  · simp only [seen, led, inside, base]

theorem mem_candidates_of_startsAt (sound : files.top.Sound) (starts : files.StartsAt search.root start) :
    path ∈ search.candidates files ↔
      ∃ names content, search.Wants start names content ∧ path = search.root.descend names := by
  simp only [wants_iff]
  cases starts with
  | @file location known seen =>
      simp only [candidates_eq, seen, Entry.file_at?_eq_file_iff]
      constructor
      · intro member
        split at member
        next accepted =>
          rw [List.mem_singleton] at member
          exact ⟨[], known, ⟨⟨rfl, rfl⟩, accepted, by simp⟩, member⟩
        next => cases member
      · rintro ⟨_, _, ⟨⟨rfl, rfl⟩, accepted, -⟩, rfl⟩
        rw [Path.descend, List.foldl_nil] at accepted ⊢
        rw [if_pos accepted]
        exact List.mem_singleton_self _
  | @folder location entries led base =>
      rw [candidates_of_folder led base, mem_below_iff ((sound.at? base).2 entries rfl), Reaches]
      constructor
      · rintro ⟨names, content, found, rfl, accepted, entered⟩
        exact ⟨names, content, ⟨found, accepted, entered⟩, rfl⟩
      · rintro ⟨names, content, ⟨found, accepted, entered⟩, rfl⟩
        exact ⟨names, content, found, rfl, accepted, entered⟩

theorem exists_startsAt_of_mem_inside {location : List String}
    (led : files.locate .access search.root = .ok (.folder location))
    (member : path ∈ search.inside files location) : ∃ start, files.StartsAt search.root start := by
  rw [inside] at member
  split at member
  next base => exact ⟨_, .folder led base⟩
  next => cases member

theorem exists_startsAt_of_mem (member : path ∈ search.candidates files) :
    ∃ start, files.StartsAt search.root start := by
  rw [candidates_eq] at member
  split at member
  next seen => exact exists_startsAt_of_mem_inside (FileSystem.locate_access_of_inspect seen (by simp)) member
  next seen => exact ⟨_, .file seen⟩
  next =>
    split at member
    next led => exact exists_startsAt_of_mem_inside led member
    next => cases member
  next => cases member

theorem mem_files_iff_wants (sound : files.top.Sound) : path ∈ search.files files ↔
    ∃ start, files.StartsAt search.root start ∧
      ∃ names content, search.Wants start names content ∧ path = search.root.descend names := by
  rw [mem_files_iff]
  constructor
  · intro member
    obtain ⟨start, starts⟩ := exists_startsAt_of_mem member
    exact ⟨start, starts, (mem_candidates_of_startsAt sound starts).mp member⟩
  · rintro ⟨start, starts, wanted⟩
    exact (mem_candidates_of_startsAt sound starts).mpr wanted

theorem Wants.located (wanted : search.Wants start names content) (sound : files.top.Sound)
    (starts : files.StartsAt search.root start) :
    ∃ location, files.locate .access (search.root.descend names) = .ok (.file location content) := by
  have proper := (starts.sound sound).proper wanted.there
  cases starts with
  | file seen =>
      obtain ⟨rfl, rfl⟩ := (Entry.file_at?_eq_file_iff _).mp wanted.there
      exact ⟨_, FileSystem.locate_access_of_inspect seen (by simp)⟩
  | folder led base => exact ⟨_, FileSystem.locate_descend led base wanted.there proper⟩

def enters (search : Search) (way : List String) : Entry → Bool
  | .folder _ => way.getLast?.all fun name => !search.exclusions.excludes name
  | .file _ | .link _ => true

def listed? (search : Search) : List String × Entry → Option Path
  | (names, .file content) =>
    if search.accepts (search.root.descend names) content.size then some (search.root.descend names) else none
  | (_, .folder _) | (_, .link _) => none

theorem listed?_eq_some_iff {visit : List String × Entry} : search.listed? visit = some path ↔
    ∃ names content, visit = (names, .file content) ∧ path = search.root.descend names ∧
      search.accepts (search.root.descend names) content.size = true := by
  obtain ⟨names, entry⟩ := visit
  cases entry with
  | folder | link => simp [listed?]
  | file content =>
      rw [listed?, Option.ite_none_right_eq_some]
      constructor
      · rintro ⟨accepted, leads⟩
        exact ⟨names, content, rfl, (Option.some.inj leads).symm, accepted⟩
      · rintro ⟨_, _, same, rfl, accepted⟩
        cases same
        exact ⟨accepted, rfl⟩

theorem all_enters_iff (there : start.at? names = some (.file content)) :
    (∀ way ∈ names.inits, (start.at? way).all (search.enters way) = true) ↔
      ∀ name ∈ names.dropLast, search.exclusions.excludes name = false := by
  constructor
  · intro entered name member
    -- A name on the way ends a part of it that leads to a directory, so the walk entered that directory.
    obtain ⟨front, back, parts⟩ := List.append_of_mem member
    have nonempty : names ≠ [] := by
      rintro rfl
      cases member
    have whole : (front ++ [name]) ++ (back ++ [names.getLast nonempty]) = names := by
      have joined := List.dropLast_append_getLast nonempty
      rw [parts] at joined
      simpa using joined
    obtain ⟨entries, folder⟩ := Entry.exists_folder_of_at?_append (by simp) (whole ▸ there)
    have here := entered (front ++ [name]) ((List.mem_inits _ _).mpr ⟨_, whole⟩)
    simpa [folder, enters] using here
  · intro entered way member
    obtain ⟨below, rfl⟩ := (List.mem_inits _ _).mp member
    by_cases last : below = []
    · subst last
      rw [List.append_nil] at there
      simp [there, enters]
    · obtain ⟨entries, folder⟩ := Entry.exists_folder_of_at?_append last there
      rw [List.dropLast_append_of_ne_nil last] at entered
      simp only [folder, enters, Option.all_some, Option.all_eq_true, Bool.not_eq_true']
      exact fun name final => entered name (List.mem_append_left _ (List.mem_of_getLast? final))

theorem mem_filterMap_listed?_iff {visited : List (List String × Entry)}
    (visits : Visits search.enters start visited) : path ∈ visited.filterMap search.listed? ↔
      ∃ names content, search.Wants start names content ∧ path = search.root.descend names := by
  simp only [List.mem_filterMap, listed?_eq_some_iff, wants_iff]
  constructor
  · rintro ⟨_, member, names, content, rfl, leads, accepted⟩
    obtain ⟨there, entered⟩ := (visits.every _ _).mp member
    exact ⟨names, content, ⟨there, accepted, (all_enters_iff there).mp entered⟩, leads⟩
  · rintro ⟨names, content, ⟨there, accepted, entered⟩, leads⟩
    have member := (visits.every _ _).mpr ⟨there, (all_enters_iff there).mpr entered⟩
    exact ⟨_, member, names, content, rfl, leads, accepted⟩

theorem distinct_of_visits {visited : List (List String × Entry)} (visits : Visits search.enters start visited)
    (sound : start.Sound) (given : search.root.spelling ≠ "") :
    (visited.filterMap search.listed?).Pairwise fun left right => left.components ≠ right.components := by
  have apart := List.pairwise_map.mp visits.once
  refine List.pairwise_filterMap.mpr (apart.imp_of_mem ?_)
  intro before after earlier later differs left first right second same
  obtain ⟨leftNames, leftContent, rfl, rfl, -⟩ := listed?_eq_some_iff.mp first
  obtain ⟨rightNames, rightContent, rfl, rfl, -⟩ := listed?_eq_some_iff.mp second
  rw [Path.components_descend given (sound.proper ((visits.every _ _).mp earlier).1),
    Path.components_descend given (sound.proper ((visits.every _ _).mp later).1)] at same
  exact differs (List.map_injective_iff.mpr (fun _ _ => Component.name.inj) (List.append_cancel_left same))

theorem files_of_visits (sound : files.top.Sound) (starts : files.StartsAt search.root start)
    {visited : List (List String × Entry)} (visits : Visits search.enters start visited) :
    search.files files = (visited.filterMap search.listed?).mergeSort Path.precedes := by
  refine (files_ascending search sound).eq_of_mem_iff
    (ascending_mergeSort (distinct_of_visits visits (starts.sound sound) starts.given)) fun path => ?_
  rw [mem_files_iff, mem_candidates_of_startsAt sound starts, List.mem_mergeSort,
    mem_filterMap_listed?_iff visits]

theorem wants_extend_iff {further : List String}
    (aside : start.at? names = some (.file content) → ∀ name ∈ names.dropLast, name ∉ further) :
    Wants { search with exclusions := search.exclusions.extend further } start names content ↔
      search.Wants start names content := by
  constructor
  · rintro ⟨there, extension, entered, small⟩
    refine ⟨there, extension, fun name member => ?_, small⟩
    have either := entered name member
    rw [Exclusions.excludes_extend, Bool.or_eq_false_iff] at either
    exact either.1
  · rintro ⟨there, extension, entered, small⟩
    refine ⟨there, extension, fun name member => ?_, small⟩
    rw [Exclusions.excludes_extend, entered name member, Bool.false_or]
    simpa using aside there name member

theorem files_extend (sound : files.top.Sound) {further : List String}
    (aside : ∀ start names content, files.StartsAt search.root start →
      start.at? names = some (.file content) → ∀ name ∈ names.dropLast, name ∉ further) :
    { search with exclusions := search.exclusions.extend further }.files files = search.files files := by
  refine (files_ascending _ sound).eq_of_mem_iff (files_ascending search sound) fun path => ?_
  rw [mem_files_iff_wants sound, mem_files_iff_wants sound]
  refine exists_congr fun start => and_congr_right fun starts => ?_
  refine exists_congr fun names => exists_congr fun content => and_congr_left' ?_
  exact wants_extend_iff (aside start names content starts)

/-- A search lists different paths in ascending order. They are those of the files it wants, and lead to
them. Further exclusions that no directory on the way to a file has as its name leave out nothing. There
are walks that come to all that may be entered, each entry once, and each of them gives the same list. -/
theorem files_exact (search : Search) (files : FileSystem) (sound : files.top.Sound) :
    Path.Ascending (search.files files) ∧
      (∀ path, path ∈ search.files files ↔
        ∃ start, files.StartsAt search.root start ∧
          ∃ names content, search.Wants start names content ∧ path = search.root.descend names) ∧
      (∀ start names content, files.StartsAt search.root start → search.Wants start names content →
        ∃ location, files.locate .access (search.root.descend names) = .ok (.file location content)) ∧
      (∀ further, (∀ start names content, files.StartsAt search.root start →
          start.at? names = some (.file content) → ∀ name ∈ names.dropLast, name ∉ further) →
        { search with exclusions := search.exclusions.extend further }.files files = search.files files) ∧
      ∀ start, files.StartsAt search.root start →
        (∃ visited, Visits search.enters start visited) ∧
          ∀ visited, Visits search.enters start visited →
            search.files files = (visited.filterMap search.listed?).mergeSort Path.precedes := by
  refine ⟨files_ascending search sound, fun _ => mem_files_iff_wants sound,
    fun _ _ _ starts wanted => wanted.located sound starts, fun _ aside => files_extend sound aside, ?_⟩
  intro start starts
  exact ⟨exists_visits (starts.sound sound) _, fun _ visits => files_of_visits sound starts visits⟩

/-- A search that starts in a directory of an excluded name and lists a file of another one. That file
stands first, though a separator is greater than a dot. -/
theorem files_exact_tree :
    let within : Directory := .file "x.jinja" ⟨#[65]⟩ .empty
    let aside : Directory := .file "out.jinja" ⟨#[]⟩ .empty
    let entries : Directory := .file "a.jinja" ⟨#[]⟩ (.folder "a" within (.folder "dist" aside .empty))
    let files : FileSystem := ⟨.folder "build" entries .empty, []⟩
    let search : Search := ⟨⟨"build"⟩, "jinja", ⟨["build", "dist", "x.jinja"]⟩, some 1⟩
    files.top.Sound ∧ files.StartsAt search.root (.folder entries) ∧
      search.files files = [⟨"build/a/x.jinja"⟩, ⟨"build/a.jinja"⟩] ∧
      { search with exclusions := search.exclusions.extend ["a.jinja"] }.files files =
        search.files files ∧
      ∃ visited, Visits search.enters (.folder entries) visited ∧
        (visited.filterMap search.listed?).mergeSort Path.precedes = search.files files := by
  intro within aside entries files search
  have sound : files.top.Sound := by
    simp [files, entries, within, aside, Directory.Sound, ProperName, Directory.find?]
  have led : files.locate .access search.root = .ok (.folder ["build"]) := by
    simp only [files, search]
    rfl
  have starts : files.StartsAt search.root (.folder entries) := .folder led rfl
  obtain ⟨ascending, -, -, further, walks⟩ := files_exact search files sound
  obtain ⟨⟨visited, visits⟩, same⟩ := walks _ starts
  refine ⟨sound, starts, ?_, further _ ?_, visited, visits, (same visited visits).symm⟩
  · have below : search.below search.root entries = [⟨"build/a.jinja"⟩, ⟨"build/a/x.jinja"⟩] := by
      simp only [search, entries, within, aside]
      rfl
    refine ascending.eq_of_mem_iff (List.pairwise_pair.mpr (by decide)) fun path => ?_
    rw [mem_files_iff, candidates_of_folder led rfl, below]
    simp [or_comm]
  · rintro other names content again found name member excluded
    obtain rfl := again.eq starts
    have listed := ((starts.sound sound).mem_entries_iff names _).mpr found
    have short : names.dropLast = [] ∨ names.dropLast = ["a"] ∨ names.dropLast = ["dist"] := by
      simp only [Entry.entries, Directory.entries, List.map_cons, Prod.map_apply, id_eq, List.map_nil,
        List.append_nil, List.cons_append, List.nil_append, List.mem_cons, Prod.mk.injEq, reduceCtorEq,
        and_false, List.not_mem_nil, or_false, false_or, entries, within, aside] at listed
      rcases listed with ⟨rfl, -⟩ | ⟨rfl, -⟩ | ⟨rfl, -⟩ <;> decide
    rw [List.mem_singleton] at excluded
    rcases short with short | short | short <;> simp [short, excluded] at member

end Search

end Unbroken
