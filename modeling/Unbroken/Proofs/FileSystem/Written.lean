import Unbroken.Proofs.FileSystem.Sound

/-! Files that were written. Afterwards the path that was written to leads to the new content, whether there
was a file before or not, since no directory and no link on the way is lost. -/

namespace Unbroken

/-- A tree after a file in it was written: the file is in its place, and directories and links are where
they were. -/
structure Written (before after : Directory) (location : List String) (content : ByteArray) : Prop where
  there : after.at? location = some (.file content)
  folders : ∀ other entries, before.at? other = some (.folder entries) →
    ∃ later, after.at? other = some (.folder later)
  links : ∀ other target, before.at? other = some (.link target) →
    after.at? other = some (.link target)

def Directory.Free (directory : Directory) (location : List String) : Prop :=
  ∀ entry, directory.at? location = some entry → ∃ content, entry = .file content

namespace Directory

variable {directory entries : Directory} {name : String} {content : ByteArray}

theorem at?_put_of_ne {other : String} (differs : name ≠ other) (entry : Entry) (below : List String) :
    (directory.put name entry).at? (other :: below) = directory.at? (other :: below) := by
  rw [at?, at?, find?_put_of_ne differs]

theorem written_put (free : directory.Free [name]) :
    Written directory (directory.put name (.file content)) [name] content := by
  have differs : ∀ other below entry, (∀ known, entry ≠ .file known) →
      directory.at? (other :: below) = some entry → name ≠ other := by
    rintro other below entry direct found rfl
    have top : ∀ entry, directory.find? name = some entry → ∃ known, entry = .file known :=
      fun entry first => free entry ((directory.at?_cons_eq_some_iff _ _ _).mpr (Or.inl ⟨rfl, first⟩))
    rcases (directory.at?_cons_eq_some_iff _ _ _).mp found with ⟨-, last⟩ | ⟨-, lower, first, -⟩
    · obtain ⟨known, rfl⟩ := top _ last
      exact direct known rfl
    · obtain ⟨known, same⟩ := top _ first
      cases same
  constructor
  · rw [at?, find?_put_self]
    rfl
  · intro other lower found
    cases other with
    | nil => exact ⟨_, rfl⟩
    | cons first below => exact ⟨lower, (at?_put_of_ne (differs _ _ _ (by simp) found) _ _).trans found⟩
  · intro other target found
    cases other with
    | nil => cases found
    | cons first below => exact (at?_put_of_ne (differs _ _ _ (by simp) found) _ _).trans found

end Directory

theorem Written.inFolder {directory entries later : Directory} {name : String} {location : List String}
    {content : ByteArray} (written : Written entries later location content)
    (found : directory.find? name = some (.folder entries)) :
    Written directory (directory.put name (.folder later)) (name :: location) content := by
  have inside : ∀ below, (directory.put name (.folder later)).at? (name :: below) = later.at? below :=
    Directory.at?_cons_of_folder (Directory.find?_put_self _ _ _)
  constructor
  · exact (inside location).trans written.there
  · intro other known there
    cases other with
    | nil => exact ⟨_, rfl⟩
    | cons first below =>
        by_cases same : name = first
        · subst same
          rw [Directory.at?_cons_of_folder found] at there
          obtain ⟨new, moved⟩ := written.folders below known there
          exact ⟨new, (inside below).trans moved⟩
        · exact ⟨known, (Directory.at?_put_of_ne same _ _).trans there⟩
  · intro other target there
    cases other with
    | nil => cases there
    | cons first below =>
        by_cases same : name = first
        · subst same
          rw [Directory.at?_cons_of_folder found] at there
          exact (inside below).trans (written.links below target there)
        · exact (Directory.at?_put_of_ne same _ _).trans there

namespace Directory

theorem putAt_cons {directory entries : Directory} {name : String} {below : List String}
    (deeper : below ≠ []) (found : directory.find? name = some (.folder entries)) (entry : Entry) :
    directory.putAt entry (name :: below) = directory.put name (.folder (entries.putAt entry below)) := by
  obtain ⟨next, rest, rfl⟩ := List.exists_cons_of_ne_nil deeper
  rw [putAt, found]
  simp

theorem written_putAt {directory entries : Directory} {parent : List String} {name : String}
    (content : ByteArray) (base : directory.at? parent = some (.folder entries))
    (free : directory.Free (parent ++ [name])) :
    Written directory (directory.putAt (.file content) (parent ++ [name])) (parent ++ [name]) content := by
  induction parent generalizing directory with
  | nil => exact written_put free
  | cons first parent ih =>
      have lower : ∃ inner, directory.find? first = some (.folder inner) := by
        rcases (directory.at?_cons_eq_some_iff _ _ _).mp base with ⟨-, here⟩ | ⟨-, inner, here, -⟩
        · exact ⟨entries, here⟩
        · exact ⟨inner, here⟩
      obtain ⟨inner, found⟩ := lower
      rw [at?_cons_of_folder found] at base
      rw [List.cons_append, Free, at?_cons_of_folder found] at free
      rw [List.cons_append, putAt_cons (by simp) found]
      exact (ih base free).inFolder found

end Directory

/-! The way to a file that is to be written. -/

theorem Directory.exists_folder_dropLast {directory entries : Directory} {location : List String}
    (found : directory.at? location = some (.folder entries)) :
    ∃ upper, directory.at? location.dropLast = some (.folder upper) := by
  by_cases top : location = []
  · subst top
    exact ⟨directory, rfl⟩
  · rw [← List.dropLast_append_getLast top] at found
    exact exists_folder_of_at?_append (by simp) found

def Spot.fileAt? : Spot → Option (List String)
  | .file location _ | .vacant location => some location
  | .folder _ | .link _ _ => none

/-- Whether a way keeps to directories: a detour starts from one, and a file may be written in the place
where the way ends, if one may lie there. -/
def Leg.Grounded (top : Directory) : Leg → Prop
  | .ended (.ok spot) => ∀ location, spot.fileAt? = some location →
    top.Free location ∧ ∃ parent name entries, location = parent ++ [name] ∧
      top.at? parent = some (.folder entries)
  | .ended (.error _) => True
  | .detour location _ _ => ∃ entries, top.at? location = some (.folder entries)

theorem walkLeg_grounded {top entries : Directory} {here : List String} (purpose : Purpose)
    (segments : List String) (base : top.at? here = some (.folder entries)) :
    (walkLeg top purpose here segments).Grounded top := by
  induction segments generalizing here entries with
  | nil => simp [walkLeg, Leg.Grounded, Spot.fileAt?]
  | cons segment rest ih =>
      by_cases skip : segment = "" ∨ segment = "."
      · rw [walkLeg_skip skip]
        exact ih base
      by_cases up : segment = ".."
      · subst up
        rw [walkLeg_up]
        obtain ⟨upper, above⟩ := Directory.exists_folder_dropLast base
        exact ih above
      by_cases refused : purpose = .create ∧ rest ≠ [] ∧ rest.all (· == "")
      · rw [walkLeg_refused ⟨skip, up⟩ refused]
        trivial
      rw [walkLeg_name ⟨skip, up⟩ refused]
      cases there : top.at? (here ++ [segment]) with
      | none =>
          cases rest with
          | nil =>
              rintro _ ⟨⟩
              exact ⟨by simp [Directory.Free, there], here, segment, entries, rfl, base⟩
          | cons next rest => trivial
      | some entry =>
          cases entry with
          | folder lower => exact ih there
          | file known =>
              cases rest with
              | nil =>
                  rintro _ ⟨⟩
                  exact ⟨by simp [Directory.Free, there], here, segment, entries, rfl, base⟩
              | cons next rest => trivial
          | link target =>
              dsimp only
              split_ifs
              · simp [Leg.Grounded, Spot.fileAt?]
              · exact ⟨entries, base⟩

def Leg.HeadsFor (location : List String) : Leg → Prop
  | .ended (.ok spot) => spot.fileAt? = some location
  | .ended (.error _) => False
  | .detour _ _ _ => True

def Leg.filled (content : ByteArray) : Leg → Leg
  | .ended (.ok (.file location _)) | .ended (.ok (.vacant location)) =>
    .ended (.ok (.file location content))
  | leg => leg

theorem walkLeg_written {before after : Directory} {location : List String} {content : ByteArray}
    (written : Written before after location content) (here segments : List String)
    (heads : (walkLeg before .create here segments).HeadsFor location) :
    walkLeg after .access here segments = (walkLeg before .create here segments).filled content := by
  induction segments generalizing here with
  | nil => rfl
  | cons segment rest ih =>
      by_cases skip : segment = "" ∨ segment = "."
      · rw [walkLeg_skip skip] at heads ⊢
        rw [walkLeg_skip skip]
        exact ih _ heads
      by_cases up : segment = ".."
      · subst up
        rw [walkLeg_up] at heads ⊢
        rw [walkLeg_up]
        exact ih _ heads
      by_cases refused : Purpose.create = .create ∧ rest ≠ [] ∧ rest.all (· == "")
      · rw [walkLeg_refused ⟨skip, up⟩ refused] at heads
        exact heads.elim
      rw [walkLeg_name ⟨skip, up⟩ refused] at heads ⊢
      rw [walkLeg_name ⟨skip, up⟩ (by simp)]
      cases there : before.at? (here ++ [segment]) with
      | none =>
          rw [there] at heads
          cases rest with
          | nil =>
              cases heads
              simp [written.there, Leg.filled]
          | cons next rest => exact heads.elim
      | some entry =>
          rw [there] at heads
          cases entry with
          | folder entries =>
              obtain ⟨later, still⟩ := written.folders _ _ there
              simp only [still]
              exact ih _ heads
          | file known =>
              cases rest with
              | nil =>
                  cases heads
                  simp [written.there, Leg.filled]
              | cons next rest => exact heads.elim
          | link target => simp [written.links _ _ there, Leg.filled]

theorem follow_grounded {top entries : Directory} {here : List String} {purpose : Purpose} {legs : Nat}
    {segments location : List String} {spot : Spot} (base : top.at? here = some (.folder entries))
    (found : follow top purpose legs here segments = .ok spot) (place : spot.fileAt? = some location) :
    top.Free location ∧ ∃ parent name upper, location = parent ++ [name] ∧
      top.at? parent = some (.folder upper) := by
  induction legs generalizing here entries segments with
  | zero => cases found
  | succ legs ih =>
      have grounded := walkLeg_grounded purpose segments base
      cases leg : walkLeg top purpose here segments with
      | ended result =>
          rw [follow_of_ended leg] at found
          rw [leg, found] at grounded
          exact grounded location place
      | detour there target rest =>
          rw [follow_of_detour leg] at found
          rw [leg] at grounded
          obtain ⟨lower, known⟩ := grounded
          split_ifs at found
          · have outset : top.at? [] = some (.folder top) := rfl
            exact ih outset found
          · exact ih known found

theorem follow_written {before after : Directory} {location : List String} {content : ByteArray}
    (written : Written before after location content) {legs : Nat} {here segments : List String}
    {spot : Spot} (found : follow before .create legs here segments = .ok spot)
    (place : spot.fileAt? = some location) :
    follow after .access legs here segments = .ok (.file location content) := by
  induction legs generalizing here segments with
  | zero => cases found
  | succ legs ih =>
      cases leg : walkLeg before .create here segments with
      | ended result =>
          rw [follow_of_ended leg] at found
          subst found
          have moved := walkLeg_written written here segments (by rwa [leg])
          rw [leg] at moved
          cases spot with
          | folder | link => cases place
          | file | vacant =>
              cases place
              exact follow_of_ended moved
      | detour there target rest =>
          have moved := walkLeg_written written here segments (by rw [leg]; trivial)
          rw [leg] at moved
          rw [follow_of_detour leg] at found
          rw [follow_of_detour moved]
          exact ih found

namespace FileSystem

def Grounded (files : FileSystem) : Prop :=
  ∃ entries, files.top.at? files.workingDirectory = some (.folder entries)

variable {files after : FileSystem} {path : Path} {content : ByteArray}

theorem locate_writeBytes (grounded : files.Grounded)
    (done : files.writeBytes path content = .ok after) :
    ∃ location, after.locate .access path = .ok (.file location content) := by
  obtain ⟨spot, found, result⟩ := bind_eq_ok_iff.mp done
  have placed : ∃ location, spot.fileAt? = some location ∧ after = files.set location (.file content) := by
    cases spot with
    | folder | link => cases result
    | file location | vacant location => exact ⟨location, rfl, (Except.ok.inj result).symm⟩
  obtain ⟨location, place, rfl⟩ := placed
  rw [locate] at found
  split at found
  next => cases found
  next given =>
    have start : ∃ entries, files.top.at? (if path.isAbsolute then [] else files.workingDirectory) =
        some (.folder entries) := by
      split
      · exact ⟨files.top, rfl⟩
      · exact grounded
    obtain ⟨entries, base⟩ := start
    obtain ⟨free, parent, name, upper, rfl, above⟩ := follow_grounded base found place
    have written := Directory.written_putAt content above free
    refine ⟨parent ++ [name], ?_⟩
    rw [locate, if_neg given]
    exact follow_written written found place

theorem read_write (grounded : files.Grounded) {text : List Char}
    (done : files.write path text = .ok after) : after.read path = .ok text := by
  obtain ⟨location, located⟩ := locate_writeBytes grounded done
  exact (read_eq_ok_iff after path text).mpr ⟨location, located⟩

end FileSystem

end Unbroken
