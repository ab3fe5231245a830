import Unbroken.Proofs.FileSystem.Revision
import Unbroken.Proofs.Path
import Unbroken.Search

/-! What a search lists: different paths that lead to different files. The list does not change when
listed files get contents that are not larger. -/

namespace Unbroken

theorem FileSystem.locate_descend {files : FileSystem} {folder : Path} {location names : List String}
    {entries : Directory} {content : ByteArray}
    (located : files.locate .access folder = .ok (.folder location))
    (base : files.top.at? location = some (.folder entries))
    (found : entries.at? names = some (.file content)) (proper : ∀ name ∈ names, ProperName name) :
    files.locate .access (folder.descend names) = .ok (.file (location ++ names) content) := by
  have nonempty : names ≠ [] := by
    rintro rfl
    cases found
  rw [locate] at located ⊢
  split at located
  next => cases located
  next given =>
    obtain ⟨front, whole, parts⟩ := Path.segments_descend given nonempty proper
    rw [if_neg (Path.descend_ne_empty given names), Path.isAbsolute_descend given, whole]
    refine follow_append nonempty ?_ (walkLeg_names base found proper)
    rcases parts with same | closed
    · rwa [same] at located
    · rw [closed] at located
      exact follow_separator located

namespace Search

variable {search : Search} {folder path : Path} {entries : Directory}

def Finds (search : Search) (folder : Path) (entries : Directory) (path : Path) : Prop :=
  ∃ names content, entries.at? names = some (.file content) ∧ path = folder.descend names ∧
    search.accepts path content.size

def Reaches (search : Search) (folder : Path) (entries : Directory) (path : Path) : Prop :=
  ∃ names content, entries.at? names = some (.file content) ∧ path = folder.descend names ∧
    search.accepts path content.size ∧ ∀ name ∈ names.dropLast, search.exclusions.excludes name = false

theorem reaches_cons_iff {others : Directory} {name : String} (entry : Entry)
    (fresh : others.find? name = none) :
    search.Reaches folder (Directory.cons name entry others) path ↔
      (∃ content, entry = .file content ∧ path = folder.join name ∧ search.accepts path content.size) ∨
        (∃ inner, entry = .folder inner ∧ search.exclusions.excludes name = false ∧
          search.Reaches (folder.join name) inner path) ∨
        search.Reaches folder others path := by
  simp only [Reaches, Directory.at?_cons_file_iff entry fresh]
  constructor
  · rintro ⟨names, content, ⟨rfl, same⟩ | ⟨below, inner, rfl, same, found⟩ | found, leads, accepted, entered⟩
    · exact Or.inl ⟨content, same, leads, accepted⟩
    · have deeper : below ≠ [] := by
        rintro rfl
        cases found
      rw [List.dropLast_cons_of_ne_nil deeper, List.forall_mem_cons] at entered
      exact Or.inr (Or.inl ⟨inner, same, entered.1, below, content, found, leads, accepted, entered.2⟩)
    · exact Or.inr (Or.inr ⟨names, content, found, leads, accepted, entered⟩)
  · rintro (⟨content, same, leads, accepted⟩ |
      ⟨inner, same, first, below, content, found, leads, accepted, entered⟩ |
      ⟨names, content, found, leads, accepted, entered⟩)
    · exact ⟨[name], content, Or.inl ⟨rfl, same⟩, leads, accepted, by simp⟩
    · have deeper : below ≠ [] := by
        rintro rfl
        cases found
      refine ⟨name :: below, content, Or.inr (Or.inl ⟨below, inner, rfl, same, found⟩), leads, accepted, ?_⟩
      rw [List.dropLast_cons_of_ne_nil deeper, List.forall_mem_cons]
      exact ⟨first, entered⟩
    · exact ⟨names, content, Or.inr (Or.inr found), leads, accepted, entered⟩

theorem mem_below_iff (sound : entries.Sound) :
    path ∈ search.below folder entries ↔ search.Reaches folder entries path := by
  induction entries generalizing folder with
  | empty =>
      refine iff_of_false (by simp [below]) ?_
      rintro ⟨names, content, found, -⟩
      cases names <;> cases found
  | file name content others ih =>
      obtain ⟨-, fresh, rest⟩ := sound
      have here : (∃ known, Entry.file content = .file known ∧ path = folder.join name ∧
          search.accepts path known.size) ↔
          path = folder.join name ∧ search.accepts (folder.join name) content.size := by
        constructor
        · rintro ⟨_, ⟨⟩, rfl, accepted⟩
          exact ⟨rfl, accepted⟩
        · rintro ⟨rfl, accepted⟩
          exact ⟨content, rfl, rfl, accepted⟩
      refine Iff.trans ?_ (reaches_cons_iff (.file content) fresh).symm
      rw [below, ← ih rest, here]
      by_cases accepted : search.accepts (folder.join name) content.size <;> simp [accepted]
  | link name target others ih =>
      obtain ⟨-, fresh, rest⟩ := sound
      refine Iff.trans ?_ (reaches_cons_iff (.link target) fresh).symm
      rw [below, ← ih rest]
      simp
  | folder name inner others lower ih =>
      obtain ⟨-, fresh, inside, rest⟩ := sound
      refine Iff.trans ?_ (reaches_cons_iff (.folder inner) fresh).symm
      rw [below, ← ih rest]
      by_cases excluded : search.exclusions.excludes name <;> simp [excluded, lower inside]

theorem finds_of_mem_below (sound : entries.Sound) (member : path ∈ search.below folder entries) :
    search.Finds folder entries path := by
  obtain ⟨names, content, found, leads, accepted, -⟩ := (mem_below_iff sound).mp member
  exact ⟨names, content, found, leads, accepted⟩

theorem components_of_mem_below (sound : entries.Sound) (given : folder.spelling ≠ "")
    (member : path ∈ search.below folder entries) :
    ∃ name rest, entries.find? name ≠ none ∧ path.components = folder.components ++ .name name :: rest := by
  obtain ⟨names, content, found, rfl, -⟩ := finds_of_mem_below sound member
  rw [Path.components_descend given (sound.at? found).1]
  cases names with
  | nil => cases found
  | cons name below =>
      refine ⟨name, below.map .name, ?_, rfl⟩
      intro absent
      rw [Directory.at?, absent] at found
      cases found

theorem below_distinct (search : Search) (sound : entries.Sound) (given : folder.spelling ≠ "") :
    (search.below folder entries).Pairwise fun left right => left.components ≠ right.components := by
  induction entries generalizing folder with
  | empty => exact .nil
  | file name content others ih =>
      obtain ⟨proper, fresh, rest⟩ := sound
      rw [below]
      split
      · refine List.pairwise_cons.mpr ⟨fun other member => ?_, ih rest given⟩
        obtain ⟨first, more, present, parts⟩ := components_of_mem_below rest given member
        rw [parts, Path.components_join given proper]
        simp only [ne_eq, List.append_cancel_left_eq, List.cons.injEq, Component.name.injEq]
        rintro ⟨rfl, -⟩
        exact present fresh
      · exact ih rest given
  | link name target others ih => exact ih sound.2.2 given
  | folder name inner others lower ih =>
      obtain ⟨proper, fresh, inside, rest⟩ := sound
      rw [below]
      split
      · exact ih rest given
      · refine List.pairwise_append.mpr
          ⟨lower inside (Path.join_ne_empty given name), ih rest given, fun left here right there => ?_⟩
        obtain ⟨first, more, -, parts⟩ :=
          components_of_mem_below inside (Path.join_ne_empty given name) here
        obtain ⟨other, others, present, otherParts⟩ := components_of_mem_below rest given there
        rw [parts, otherParts, Path.components_join given proper]
        simp only [ne_eq, List.append_assoc, List.append_cancel_left_eq, List.cons_append,
          List.nil_append, List.cons.injEq, Component.name.injEq]
        rintro ⟨rfl, -⟩
        exact present fresh

theorem accepts_of_le {size larger : Nat} (accepted : search.accepts path larger = true)
    (smaller : size ≤ larger) : search.accepts path size = true := by
  rw [accepts, Bool.and_eq_true] at accepted ⊢
  refine ⟨accepted.1, ?_⟩
  have limited := accepted.2
  revert limited
  cases search.maxFileSize with
  | none => exact id
  | some limit =>
      simp only [decide_eq_true_eq]
      omega

/-- Files that change only if they are listed, and do not grow then, are listed as before. -/
theorem below_revise (sound : entries.Sound) {edit : Edit}
    (trims : ∀ names content, entries.at? names = some (.file content) →
      edit names content = content ∨
        (search.accepts (folder.descend names) content.size ∧
          (edit names content).size ≤ content.size)) :
    search.below folder (entries.revise edit) = search.below folder entries := by
  induction entries generalizing folder edit with
  | empty => rfl
  | file name content others ih =>
      obtain ⟨-, fresh, rest⟩ := sound
      have later := ih rest fun names known found =>
        trims names known (Directory.at?_cons_of_others (.file content) fresh found)
      have same : search.accepts (folder.join name) (edit [name] content).size =
          search.accepts (folder.join name) content.size := by
        rcases trims [name] content (by simp [Directory.at?, Directory.find?]) with idle | ⟨accepted, smaller⟩
        · rw [idle]
        · exact (accepts_of_le accepted smaller).trans accepted.symm
      simp only [Directory.revise, below, later, same]
  | link name target others ih =>
      obtain ⟨-, fresh, rest⟩ := sound
      exact ih rest fun names known found =>
        trims names known (Directory.at?_cons_of_others (.link target) fresh found)
  | folder name inner others lower ih =>
      obtain ⟨-, fresh, inside, rest⟩ := sound
      have later := ih rest fun names known found =>
        trims names known (Directory.at?_cons_of_others (.folder inner) fresh found)
      have within : search.below (folder.join name) (inner.revise (edit.below name)) =
          search.below (folder.join name) inner :=
        lower inside fun names known found =>
          trims (name :: names) known (by simpa [Directory.at?, Directory.find?] using found)
      simp only [Directory.revise, below, later, within]

/-! The whole list. -/

def inside (search : Search) (files : FileSystem) (location : List String) : List Path :=
  match files.top.at? location with
  | some (.folder entries) => search.below search.root entries
  | _ => []

theorem candidates_eq (search : Search) (files : FileSystem) :
    search.candidates files =
      match files.locate .inspect search.root with
      | .ok (.folder location) => search.inside files location
      | .ok (.file _ content) => if search.accepts search.root content.size then [search.root] else []
      | .ok (.link _ _) =>
        match files.locate .access search.root with
        | .ok (.folder location) => search.inside files location
        | _ => []
      | _ => [] := rfl

inductive Lists (search : Search) (files : FileSystem) : List Path → Prop
  | folder {location : List String} {entries : Directory}
      (located : files.locate .access search.root = .ok (.folder location))
      (base : files.top.at? location = some (.folder entries)) :
      Lists search files (search.below search.root entries)
  | file {location : List String} {content : ByteArray}
      (located : files.locate .access search.root = .ok (.file location content))
      (accepted : search.accepts search.root content.size) : Lists search files [search.root]
  | nothing : Lists search files []

theorem lists_inside {files : FileSystem} {location : List String}
    (located : files.locate .access search.root = .ok (.folder location)) :
    search.Lists files (search.inside files location) := by
  rw [Search.inside]
  split
  next base => exact .folder located base
  next => exact .nothing

theorem lists_candidates (search : Search) (files : FileSystem) :
    search.Lists files (search.candidates files) := by
  rw [candidates_eq]
  split
  next seen => exact lists_inside (FileSystem.locate_access_of_inspect seen (by simp))
  next seen =>
    split
    next accepted => exact .file (FileSystem.locate_access_of_inspect seen (by simp)) accepted
    next => exact .nothing
  next =>
    split
    next located => exact lists_inside located
    next => exact .nothing
  next => exact .nothing

theorem spelling_ne_empty_of_locate {files : FileSystem} {purpose : Purpose} {spot : Spot}
    (located : files.locate purpose path = .ok spot) : path.spelling ≠ "" := by
  intro nothing
  rw [FileSystem.locate, if_pos nothing] at located
  cases located

theorem Lists.distinct {files : FileSystem} {paths : List Path} (lists : search.Lists files paths)
    (sound : files.top.Sound) :
    paths.Pairwise fun left right => left.components ≠ right.components := by
  cases lists with
  | folder located base =>
      exact below_distinct search ((sound.at? base).2 _ rfl) (spelling_ne_empty_of_locate located)
  | file => simp
  | nothing => exact .nil

theorem Lists.injective {files : FileSystem} {paths : List Path} (lists : search.Lists files paths)
    (sound : files.top.Sound) {left right : Path} (leftMember : left ∈ paths) (rightMember : right ∈ paths)
    {location : List String} {content : ByteArray}
    (leftLocated : files.locate .access left = .ok (.file location content))
    (rightLocated : files.locate .access right = .ok (.file location content)) : left = right := by
  cases lists with
  | @folder base entries located there =>
      have lower := (sound.at? there).2 entries rfl
      have place : ∀ {path}, path ∈ search.below search.root entries →
          files.locate .access path = .ok (.file location content) →
          ∃ names, path = search.root.descend names ∧ location = base ++ names := by
        intro path member same
        obtain ⟨names, known, found, rfl, -⟩ := finds_of_mem_below lower member
        rw [FileSystem.locate_descend located there found (lower.at? found).1] at same
        cases same
        exact ⟨names, rfl, rfl⟩
      obtain ⟨leftNames, rfl, leftPlace⟩ := place leftMember leftLocated
      obtain ⟨rightNames, rfl, rightPlace⟩ := place rightMember rightLocated
      rw [List.append_cancel_left (leftPlace.symm.trans rightPlace)]
  | file =>
      rw [List.mem_singleton.mp leftMember, List.mem_singleton.mp rightMember]
  | nothing => cases leftMember

/-- Only listed files are edited, and none of them grows. -/
def Trims (search : Search) (files : FileSystem) (edit : Edit) : Prop :=
  ∀ location content, files.top.at? location = some (.file content) →
    edit location content = content ∨
      ((∃ path ∈ search.candidates files, files.locate .access path = .ok (.file location content)) ∧
        (edit location content).size ≤ content.size)

theorem inside_revise {files : FileSystem} (sound : files.top.Sound) {edit : Edit}
    (trims : search.Trims files edit) {location : List String}
    (located : files.locate .access search.root = .ok (.folder location))
    (whole : search.candidates files = search.inside files location) :
    search.inside (files.revise edit) location = search.inside files location := by
  rw [Search.inside, Search.inside, FileSystem.revise, Directory.at?_revise]
  cases base : files.top.at? location with
  | none => rfl
  | some entry =>
      cases entry with
      | file | link => rfl
      | folder entries =>
          have lower := (sound.at? base).2 entries rfl
          refine below_revise lower fun names content found => ?_
          have there : files.top.at? (location ++ names) = some (.file content) := by
            rw [files.top.at?_append base, found]
          rcases trims _ _ there with idle | ⟨⟨path, member, leads⟩, smaller⟩
          · exact Or.inl idle
          · refine Or.inr ⟨?_, smaller⟩
            rw [whole, Search.inside, base] at member
            obtain ⟨others, known, elsewhere, rfl, accepted⟩ := finds_of_mem_below lower member
            rw [FileSystem.locate_descend located base elsewhere (lower.at? elsewhere).1] at leads
            simp only [Except.ok.injEq, Spot.file.injEq, List.append_cancel_left_eq] at leads
            obtain ⟨rfl, rfl⟩ := leads
            exact accepted

theorem candidates_revise {files : FileSystem} (sound : files.top.Sound) {edit : Edit}
    (trims : search.Trims files edit) :
    search.candidates (files.revise edit) = search.candidates files := by
  have whole := candidates_eq search files
  rw [candidates_eq, candidates_eq, FileSystem.locate_revise, FileSystem.locate_revise]
  cases seen : files.locate .inspect search.root with
  | error error => rfl
  | ok spot =>
      rw [seen] at whole
      cases spot with
      | folder location =>
          exact inside_revise sound trims (FileSystem.locate_access_of_inspect seen (by simp)) whole
      | file location content =>
          have located := FileSystem.locate_access_of_inspect seen (by simp)
          have same : search.accepts search.root (edit location content).size =
              search.accepts search.root content.size := by
            rcases trims _ _ (FileSystem.at?_of_locate located) with idle | ⟨⟨path, member, -⟩, smaller⟩
            · rw [idle]
            · have accepted : search.accepts search.root content.size = true := by
                by_contra refused
                simp only [refused] at whole
                rw [whole] at member
                simp at member
              exact (accepts_of_le accepted smaller).trans accepted.symm
          simp only [Except.map, Spot.revise, same]
      | link there target =>
          cases located : files.locate .access search.root with
          | error error => rfl
          | ok spot =>
              rw [located] at whole
              cases spot with
              | folder location => exact inside_revise sound trims located whole
              | file | link | vacant => rfl
      | vacant location => rfl

variable {files : FileSystem}

theorem mem_files_iff (search : Search) (files : FileSystem) (path : Path) :
    path ∈ search.files files ↔ path ∈ search.candidates files :=
  List.mem_mergeSort

theorem ascending_mergeSort {paths : List Path}
    (distinct : paths.Pairwise fun left right => left.components ≠ right.components) :
    Path.Ascending (paths.mergeSort Path.precedes) := by
  have apart : (paths.mergeSort Path.precedes).Pairwise fun left right =>
      left.components ≠ right.components :=
    (List.mergeSort_perm _ _).symm.pairwise distinct fun differs same => differs same.symm
  have sorted : (paths.mergeSort Path.precedes).Pairwise fun left right => left.precedes right := by
    apply List.pairwise_mergeSort
    · intro first second third left right
      exact Path.precedes_trans left right
    · exact Path.precedes_total
  exact apart.imp₂ (fun _ _ differs ordered => Path.order_lt_of_precedes ordered differs) sorted

theorem files_ascending (search : Search) (sound : files.top.Sound) :
    Path.Ascending (search.files files) :=
  ascending_mergeSort ((search.lists_candidates files).distinct sound)

theorem files_revise (sound : files.top.Sound) {edit : Edit} (trims : search.Trims files edit) :
    search.files (files.revise edit) = search.files files := by
  rw [Search.files, candidates_revise sound trims, Search.files]

end Search

end Unbroken
