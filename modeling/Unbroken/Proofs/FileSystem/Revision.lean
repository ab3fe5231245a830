import Unbroken.Proofs.FileSystem.Walk
import Unbroken.Proofs.Text.Encoding

/-! Revisions of a tree of files: each file gets a new content, made from its location and the old
one, and names and links stay. Every path leads to the same places afterwards. -/

namespace Unbroken

/-- What new contents are made of: the location of a file and its old content. -/
abbrev Edit := List String → ByteArray → ByteArray

def Edit.below (edit : Edit) (name : String) : Edit :=
  fun location => edit (name :: location)

def Directory.revise (edit : Edit) : Directory → Directory
  | .empty => .empty
  | .file name content others => .file name (edit [name] content) (others.revise edit)
  | .link name target others => .link name target (others.revise edit)
  | .folder name entries others =>
    .folder name (entries.revise (edit.below name)) (others.revise edit)

def Entry.revise (edit : Edit) : Entry → Entry
  | .file content => .file (edit [] content)
  | .link target => .link target
  | .folder entries => .folder (entries.revise edit)

def Spot.revise (edit : Edit) : Spot → Spot
  | .file location content => .file location (edit location content)
  | .folder location => .folder location
  | .link location target => .link location target
  | .vacant location => .vacant location

def Leg.revise (edit : Edit) : Leg → Leg
  | .ended result => .ended (result.map (Spot.revise edit))
  | .detour location target rest => .detour location target rest

def FileSystem.revise (edit : Edit) (files : FileSystem) : FileSystem :=
  { files with top := files.top.revise edit }

namespace Directory

theorem find?_revise (edit : Edit) (sought : String) (directory : Directory) :
    (directory.revise edit).find? sought =
      (directory.find? sought).map (Entry.revise (edit.below sought)) := by
  induction directory with
  | empty => rfl
  | file name content others ih | link name target others ih | folder name entries others _ ih =>
      by_cases same : name = sought
      · subst same
        simp [revise, find?, Entry.revise, Edit.below]
      · simp [revise, find?, same, ih]

theorem at?_revise (edit : Edit) (location : List String) (directory : Directory) :
    (directory.revise edit).at? location =
      (directory.at? location).map (Entry.revise fun below => edit (location ++ below)) := by
  induction location generalizing edit directory with
  | nil => rfl
  | cons name below ih =>
      rw [at?, at?, find?_revise]
      cases directory.find? name with
      | none => rfl
      | some entry =>
          cases entry with
          | folder entries => exact ih (edit.below name) entries
          | file content | link target => cases below <;> rfl

theorem revise_id {edit : Edit} (idle : ∀ location content, edit location content = content)
    (directory : Directory) : directory.revise edit = directory := by
  induction directory generalizing edit with
  | empty => rfl
  | file name content others ih => rw [revise, idle, ih idle]
  | link name target others ih => rw [revise, ih idle]
  | folder name entries others inner ih =>
      have lower : entries.revise (edit.below name) = entries :=
        inner fun location => idle (name :: location)
      rw [revise, lower, ih idle]

theorem revise_revise (first second : Edit) (directory : Directory) :
    (directory.revise first).revise second =
      directory.revise fun location content => second location (first location content) := by
  induction directory generalizing first second with
  | empty => rfl
  | file name content others ih => rw [revise, revise, revise, ih]
  | link name target others ih => rw [revise, revise, revise, ih]
  | folder name entries others inner ih =>
      rw [revise, revise, revise, ih, inner]
      rfl

end Directory

theorem walkLeg_revise (edit : Edit) (top : Directory) (purpose : Purpose)
    (here segments : List String) :
    walkLeg (top.revise edit) purpose here segments =
      (walkLeg top purpose here segments).revise edit := by
  induction segments generalizing here with
  | nil => rfl
  | cons segment rest ih =>
      by_cases skip : segment = "" ∨ segment = "."
      · rw [walkLeg_skip skip, walkLeg_skip skip, ih]
      by_cases up : segment = ".."
      · subst up
        rw [walkLeg_up, walkLeg_up, ih]
      by_cases refused : purpose = .create ∧ rest ≠ [] ∧ rest.all (· == "")
      · rw [walkLeg_refused ⟨skip, up⟩ refused, walkLeg_refused ⟨skip, up⟩ refused]
        rfl
      rw [walkLeg_name ⟨skip, up⟩ refused, walkLeg_name ⟨skip, up⟩ refused, Directory.at?_revise]
      cases top.at? (here ++ [segment]) with
      | none => cases rest <;> rfl
      | some entry =>
          cases entry with
          | folder entries => exact ih (here ++ [segment])
          | file content =>
              cases rest with
              | nil => simp [Entry.revise, Leg.revise, Except.map, Spot.revise]
              | cons next rest => rfl
          | link target =>
              simp only [Option.map_some, Entry.revise]
              split_ifs <;> rfl

theorem follow_revise (edit : Edit) (top : Directory) (purpose : Purpose) (legs : Nat)
    (here segments : List String) :
    follow (top.revise edit) purpose legs here segments =
      (follow top purpose legs here segments).map (Spot.revise edit) := by
  induction legs generalizing here segments with
  | zero => rfl
  | succ legs ih =>
      rw [follow, follow, walkLeg_revise]
      cases walkLeg top purpose here segments with
      | ended result => rfl
      | detour location target rest => exact ih _ _

namespace FileSystem

variable (edit : Edit) (files : FileSystem)

theorem locate_revise (purpose : Purpose) (path : Path) :
    (files.revise edit).locate purpose path =
      (files.locate purpose path).map (Spot.revise edit) := by
  rw [locate, locate]
  split_ifs
  · rfl
  · exact follow_revise edit _ _ _ _ _
  · exact follow_revise edit _ _ _ _ _

theorem revise_revise (first second : Edit) :
    (files.revise first).revise second =
      files.revise fun location content => second location (first location content) := by
  rw [revise, revise, revise, Directory.revise_revise]

theorem revise_id {edit : Edit} (idle : ∀ location content, edit location content = content) :
    files.revise edit = files := by
  rw [revise, Directory.revise_id idle]

end FileSystem

namespace Directory

def Sound : Directory → Prop
  | empty => True
  | file name _ others | link name _ others =>
    ProperName name ∧ others.find? name = none ∧ others.Sound
  | folder name entries others =>
    ProperName name ∧ others.find? name = none ∧ entries.Sound ∧ others.Sound

theorem Sound.revise {directory : Directory} (sound : directory.Sound) (edit : Edit) :
    (directory.revise edit).Sound := by
  induction directory generalizing edit with
  | empty => trivial
  | file name content others ih | link name target others ih =>
      obtain ⟨proper, fresh, rest⟩ := sound
      exact ⟨proper, by rw [find?_revise, fresh]; rfl, ih rest edit⟩
  | folder name entries others inner ih =>
      obtain ⟨proper, fresh, lower, rest⟩ := sound
      exact ⟨proper, by rw [find?_revise, fresh]; rfl, inner lower _, ih rest edit⟩

theorem Sound.find? {directory : Directory} (sound : directory.Sound) {name : String} {entry : Entry}
    (found : directory.find? name = some entry) :
    ProperName name ∧ ∀ entries, entry = .folder entries → entries.Sound := by
  induction directory with
  | empty => cases found
  | file other content others ih | link other target others ih =>
      obtain ⟨proper, -, rest⟩ := sound
      rw [Directory.find?] at found
      split_ifs at found with same
      · cases found
        exact ⟨same ▸ proper, by simp⟩
      · exact ih rest found
  | folder other entries others _ ih =>
      obtain ⟨proper, -, lower, rest⟩ := sound
      rw [Directory.find?] at found
      split_ifs at found with same
      · cases found
        refine ⟨same ▸ proper, ?_⟩
        rintro _ ⟨⟩
        exact lower
      · exact ih rest found

theorem Sound.at? {directory : Directory} (sound : directory.Sound) {location : List String}
    {entry : Entry} (found : directory.at? location = some entry) :
    (∀ name ∈ location, ProperName name) ∧ ∀ entries, entry = .folder entries → entries.Sound := by
  induction location generalizing directory with
  | nil =>
      cases found
      refine ⟨by simp, ?_⟩
      rintro _ ⟨⟩
      exact sound
  | cons name below ih =>
      rw [Directory.at?] at found
      cases first : directory.find? name with
      | none => simp [first] at found
      | some top =>
          obtain ⟨proper, lower⟩ := sound.find? first
          rw [first] at found
          cases top with
          | folder entries =>
              obtain ⟨names, last⟩ := ih (lower entries rfl) found
              exact ⟨by simpa using ⟨proper, names⟩, last⟩
          | file content | link target =>
              cases below with
              | nil =>
                  cases found
                  exact ⟨by simpa using proper, by simp⟩
              | cons next below => simp at found

theorem at?_cons_file_iff {others : Directory} {name : String} (entry : Entry)
    (fresh : others.find? name = none) (location : List String) (content : ByteArray) :
    (cons name entry others).at? location = some (.file content) ↔
      (location = [name] ∧ entry = .file content) ∨
        (∃ below entries, location = name :: below ∧ entry = .folder entries ∧
          entries.at? below = some (.file content)) ∨
        others.at? location = some (.file content) := by
  cases location with
  | nil => simp [at?]
  | cons first below =>
      rw [at?_cons_cons_iff entry fresh, ← or_assoc]
      refine or_congr_left ?_
      cases entry with
      | folder entries => simp [Entry.at?, eq_comm]
      | file | link => cases below <;> simp [Entry.at?, eq_comm]

theorem at?_cons_of_others {others : Directory} {name : String} {location : List String}
    {content : ByteArray} (entry : Entry) (fresh : others.find? name = none)
    (found : others.at? location = some (.file content)) :
    (cons name entry others).at? location = some (.file content) :=
  (at?_cons_file_iff entry fresh location content).mpr (Or.inr (Or.inr found))

theorem Sound.revise_congr {directory : Directory} (sound : directory.Sound) {first second : Edit}
    (agree : ∀ location content, directory.at? location = some (.file content) →
      first location content = second location content) :
    directory.revise first = directory.revise second := by
  induction directory generalizing first second with
  | empty => rfl
  | file name content others ih =>
      obtain ⟨-, fresh, rest⟩ := sound
      have later := ih rest fun location known found =>
        agree location known (at?_cons_of_others (.file content) fresh found)
      have here := agree [name] content (by simp [Directory.at?, Directory.find?])
      rw [Directory.revise, Directory.revise, later, here]
  | link name target others ih =>
      obtain ⟨-, fresh, rest⟩ := sound
      have later := ih rest fun location known found =>
        agree location known (at?_cons_of_others (.link target) fresh found)
      rw [Directory.revise, Directory.revise, later]
  | folder name entries others inner ih =>
      obtain ⟨-, fresh, lower, rest⟩ := sound
      have later := ih rest fun location known found =>
        agree location known (at?_cons_of_others (.folder entries) fresh found)
      have within : entries.revise (first.below name) = entries.revise (second.below name) :=
        inner lower fun location known found =>
          agree (name :: location) known (by simpa [Directory.at?, Directory.find?] using found)
      rw [Directory.revise, Directory.revise, later, within]

theorem revise_eq_self {directory : Directory} {name : String} {edit : Edit}
    (absent : directory.find? name = none)
    (elsewhere : ∀ other ≠ name, ∀ below content, edit (other :: below) content = content) :
    directory.revise edit = directory := by
  induction directory with
  | empty => rfl
  | file other content others ih | link other content others ih =>
      rw [find?] at absent
      split_ifs at absent with same
      simp only [revise, ih absent, elsewhere other same]
  | folder other entries others _ ih =>
      rw [find?] at absent
      split_ifs at absent with same
      have lower : entries.revise (edit.below other) = entries := revise_id (elsewhere other same) _
      rw [revise, ih absent, lower]

theorem put_revise {directory : Directory} (sound : directory.Sound) {name : String} {entry : Entry}
    (found : directory.find? name = some entry) {edit : Edit}
    (elsewhere : ∀ other ≠ name, ∀ below content, edit (other :: below) content = content) :
    directory.put name (entry.revise (edit.below name)) = directory.revise edit := by
  induction directory with
  | empty => cases found
  | file other content others ih | link other content others ih =>
      obtain ⟨-, fresh, rest⟩ := sound
      rw [find?] at found
      rw [put]
      split_ifs at found ⊢ with same
      · cases found
        subst same
        rw [revise, revise_eq_self fresh elsewhere]
        rfl
      · simp only [ih rest found, revise, elsewhere other same]
  | folder other entries others _ ih =>
      obtain ⟨-, fresh, lower, rest⟩ := sound
      rw [find?] at found
      rw [put]
      split_ifs at found ⊢ with same
      · cases found
        subst same
        rw [revise, revise_eq_self fresh elsewhere]
        rfl
      · have inner : entries.revise (edit.below other) = entries :=
          revise_id (elsewhere other same) _
        rw [ih rest found, revise, inner]

def onlyAt (location : List String) (content : ByteArray) : Edit :=
  fun other old => if other = location then content else old

theorem putAt_eq_revise {directory : Directory} (sound : directory.Sound) {location : List String}
    {old : ByteArray} (found : directory.at? location = some (.file old)) (content : ByteArray) :
    directory.putAt (.file content) location = directory.revise (onlyAt location content) := by
  induction location generalizing directory with
  | nil => cases found
  | cons name below ih =>
      rw [at?] at found
      have elsewhere : ∀ other ≠ name, ∀ lower old,
          onlyAt (name :: below) content (other :: lower) old = old := by
        intro other differs lower old
        simp [onlyAt, differs]
      cases first : directory.find? name with
      | none => simp [first] at found
      | some top =>
          rw [first] at found
          have whole := put_revise sound first elsewhere
          cases top with
          | folder entries =>
              cases below with
              | nil => cases found
              | cons next below =>
                  have seen : (onlyAt (name :: next :: below) content).below name =
                      onlyAt (next :: below) content := by
                    funext other old
                    simp [Edit.below, onlyAt]
                  have inner := ih ((sound.find? first).2 entries rfl) found
                  rw [Entry.revise, seen, ← inner] at whole
                  rw [← whole, putAt, first]
                  simp
          | file known =>
              cases below with
              | nil =>
                  rw [putAt, ← whole]
                  simp [Entry.revise, Edit.below, onlyAt]
              | cons next below => simp at found
          | link target => cases below <;> simp at found

end Directory

namespace FileSystem

variable {files : FileSystem} {path : Path} {location : List String} {content : ByteArray}

theorem writeBytes_eq_revise (sound : files.top.Sound)
    (found : files.locate .access path = .ok (.file location content)) (bytes : ByteArray) :
    files.writeBytes path bytes = .ok (files.revise (Directory.onlyAt location bytes)) := by
  have place := at?_of_locate found
  rw [writeBytes, locate_create found]
  change Except.ok (files.set location (.file bytes)) = _
  rw [set, Directory.putAt_eq_revise sound place, revise]

theorem toOption_read (found : files.locate .access path = .ok (.file location content)) :
    (files.read path).toOption = (String.fromUTF8? content).map String.toList := by
  rw [read, found]
  simp only [bind, Except.bind]
  cases String.fromUTF8? content <;> rfl

theorem read_eq_ok_iff (files : FileSystem) (path : Path) (text : List Char) :
    files.read path = .ok text ↔
      ∃ location, files.locate .access path = .ok (.file location (String.ofList text).toUTF8) := by
  constructor
  · intro given
    cases found : files.locate .access path with
    | error error => simp [read, found, bind, Except.bind] at given
    | ok spot =>
        cases spot with
        | folder | link | vacant => simp [read, found, bind, Except.bind] at given
        | file location content =>
            have decoded := toOption_read found
            rw [given, Except.toOption] at decoded
            obtain ⟨known, read, rfl⟩ := Option.map_eq_some_iff.mp decoded.symm
            exact ⟨location, by rw [String.ofList_toList, ← (fromUTF8?_eq_some_iff _ _).mp read]⟩
  · rintro ⟨location, found⟩
    have decoded := toOption_read found
    rw [(fromUTF8?_eq_some_iff _ _).mpr rfl] at decoded
    cases given : files.read path with
    | error error => simp [given, Except.toOption] at decoded
    | ok known =>
        rw [given] at decoded
        simpa [Except.toOption] using decoded

end FileSystem

end Unbroken
