import Unbroken.Proofs.FileSystem.Revision

/-! Every way to change a file system keeps its tree sound. New names come from the segments of paths,
which hold no separators and are not passed over on the way. -/

namespace Unbroken

def Entry.Sound : Entry → Prop
  | .file _ | .link _ => True
  | .folder entries => entries.Sound

namespace Directory

theorem Sound.cons {name : String} {entry : Entry} {others : Directory} (proper : ProperName name)
    (fresh : others.find? name = none) (inner : entry.Sound) (rest : others.Sound) :
    (cons name entry others).Sound := by
  cases entry with
  | file content | link target => exact ⟨proper, fresh, rest⟩
  | folder entries => exact ⟨proper, fresh, inner, rest⟩

theorem Sound.put {directory : Directory} (sound : directory.Sound) {name : String} {entry : Entry}
    (proper : ProperName name) (inner : entry.Sound) : (directory.put name entry).Sound := by
  induction directory with
  | empty => exact .cons proper rfl inner trivial
  | file other content others ih | link other target others ih =>
      obtain ⟨known, fresh, rest⟩ := sound
      rw [Directory.put]
      split_ifs with same
      · subst same
        exact .cons known fresh inner rest
      · refine ⟨known, ?_, ih rest⟩
        rw [find?_put_of_ne (Ne.symm same), fresh]
  | folder other entries others _ ih =>
      obtain ⟨known, fresh, lower, rest⟩ := sound
      rw [Directory.put]
      split_ifs with same
      · subst same
        exact .cons known fresh inner rest
      · refine ⟨known, ?_, lower, ih rest⟩
        rw [find?_put_of_ne (Ne.symm same), fresh]

theorem Sound.putAt {directory : Directory} (sound : directory.Sound) {location : List String}
    {entry : Entry} (proper : ∀ name ∈ location.getLast?, ProperName name) (inner : entry.Sound) :
    (directory.putAt entry location).Sound := by
  induction location generalizing directory with
  | nil => exact sound
  | cons name below ih =>
      cases below with
      | nil => exact sound.put (proper name rfl) inner
      | cons next below =>
          rw [Directory.putAt]
          · cases found : directory.find? name with
            | none => exact sound
            | some known =>
                obtain ⟨names, lower⟩ := sound.find? found
                cases known with
                | file content | link target => exact sound
                | folder entries =>
                    refine sound.put names (ih (lower entries rfl) ?_)
                    rwa [List.getLast?_cons_cons] at proper
          · simp

theorem find?_erase_eq_none {directory : Directory} {sought : String}
    (absent : directory.find? sought = none) (name : String) :
    (directory.erase name).find? sought = none := by
  induction directory with
  | empty => rfl
  | file other content others ih | link other target others ih =>
      have differs : other ≠ sought := by
        rintro rfl
        simp [find?] at absent
      rw [find?, if_neg differs] at absent
      rw [erase]
      split_ifs
      · exact absent
      · rw [find?, if_neg differs, ih absent]
  | folder other entries others _ ih =>
      have differs : other ≠ sought := by
        rintro rfl
        simp [find?] at absent
      rw [find?, if_neg differs] at absent
      rw [erase]
      split_ifs
      · exact absent
      · rw [find?, if_neg differs, ih absent]

theorem Sound.erase {directory : Directory} (sound : directory.Sound) (name : String) :
    (directory.erase name).Sound := by
  induction directory with
  | empty => trivial
  | file other content others ih | link other target others ih =>
      obtain ⟨known, fresh, rest⟩ := sound
      rw [Directory.erase]
      split_ifs
      · exact rest
      · exact ⟨known, find?_erase_eq_none fresh name, ih rest⟩
  | folder other entries others _ ih =>
      obtain ⟨known, fresh, lower, rest⟩ := sound
      rw [Directory.erase]
      split_ifs
      · exact rest
      · exact ⟨known, find?_erase_eq_none fresh name, lower, ih rest⟩

theorem Sound.eraseAt {directory : Directory} (sound : directory.Sound) (location : List String) :
    (directory.eraseAt location).Sound := by
  induction location generalizing directory with
  | nil => exact sound
  | cons name below ih =>
      cases below with
      | nil => exact sound.erase name
      | cons next below =>
          rw [Directory.eraseAt]
          · cases found : directory.find? name with
            | none => exact sound
            | some known =>
                obtain ⟨names, lower⟩ := sound.find? found
                cases known with
                | file content | link target => exact sound
                | folder entries => exact sound.put names (ih (lower entries rfl))
          · simp

end Directory

def Spot.name? : Spot → Option String
  | .folder _ => none
  | .file location _ | .link location _ | .vacant location => location.getLast?

theorem walkLeg_name_proper {top : Directory} {purpose : Purpose} {here segments : List String}
    {spot : Spot} (whole : ∀ segment ∈ segments, '/' ∉ segment.toList)
    (found : walkLeg top purpose here segments = .ended (.ok spot)) :
    ∀ name ∈ spot.name?, ProperName name := by
  induction segments generalizing here with
  | nil =>
      cases found
      simp [Spot.name?]
  | cons segment rest ih =>
      have later := fun other member => whole other (List.mem_cons_of_mem _ member)
      by_cases skip : segment = "" ∨ segment = "."
      · rw [walkLeg_skip skip] at found
        exact ih later found
      by_cases up : segment = ".."
      · subst up
        rw [walkLeg_up] at found
        exact ih later found
      by_cases refused : purpose = .create ∧ rest ≠ [] ∧ rest.all (· == "")
      · rw [walkLeg_refused ⟨skip, up⟩ refused] at found
        cases found
      have proper : ProperName segment :=
        ⟨(not_or.mp skip).1, (not_or.mp skip).2, up, whole _ List.mem_cons_self⟩
      have last : ∀ name ∈ (here ++ [segment]).getLast?, ProperName name := by
        intro name member
        obtain rfl : segment = name := by simpa using member
        exact proper
      rw [walkLeg_name ⟨skip, up⟩ refused] at found
      cases there : top.at? (here ++ [segment]) with
      | none =>
          rw [there] at found
          cases rest with
          | nil =>
              cases found
              exact last
          | cons next rest => simp at found
      | some entry =>
          rw [there] at found
          cases entry with
          | folder entries => exact ih later found
          | file content =>
              cases rest with
              | nil =>
                  cases found
                  exact last
              | cons next rest => simp at found
          | link target =>
              dsimp only at found
              split_ifs at found
              cases found
              exact last

theorem walkLeg_detour {top : Directory} {purpose : Purpose} {here segments location rest : List String}
    {target : Path} (found : walkLeg top purpose here segments = .detour location target rest) :
    rest <:+ segments := by
  induction segments generalizing here with
  | nil => cases found
  | cons segment behind ih =>
      by_cases skip : segment = "" ∨ segment = "."
      · rw [walkLeg_skip skip] at found
        exact (ih found).trans (List.suffix_cons _ _)
      by_cases up : segment = ".."
      · subst up
        rw [walkLeg_up] at found
        exact (ih found).trans (List.suffix_cons _ _)
      by_cases refused : purpose = .create ∧ behind ≠ [] ∧ behind.all (· == "")
      · rw [walkLeg_refused ⟨skip, up⟩ refused] at found
        cases found
      rw [walkLeg_name ⟨skip, up⟩ refused] at found
      cases there : top.at? (here ++ [segment]) with
      | none => simp [there] at found
      | some entry =>
          rw [there] at found
          cases entry with
          | folder entries => exact (ih found).trans (List.suffix_cons _ _)
          | file content => simp at found
          | link known =>
              dsimp only at found
              split_ifs at found
              cases found
              exact List.suffix_cons _ _

theorem separator_not_mem_of_mem_segments {path : Path} {segment : String}
    (member : segment ∈ path.segments) : '/' ∉ segment.toList := by
  obtain ⟨piece, found, rfl⟩ := List.mem_map.mp member
  intro inside
  have cuts := not_cuts_of_mem_pieces found '/' (by simpa using inside)
  simp at cuts

theorem follow_name_proper {top : Directory} {purpose : Purpose} {legs : Nat}
    {here segments : List String} {spot : Spot} (whole : ∀ segment ∈ segments, '/' ∉ segment.toList)
    (found : follow top purpose legs here segments = .ok spot) :
    ∀ name ∈ spot.name?, ProperName name := by
  induction legs generalizing here segments with
  | zero => cases found
  | succ legs ih =>
      cases leg : walkLeg top purpose here segments with
      | ended result =>
          rw [follow_of_ended leg] at found
          exact walkLeg_name_proper whole (found ▸ leg)
      | detour place target rest =>
          rw [follow_of_detour leg] at found
          refine ih ?_ found
          intro segment member
          rcases List.mem_append.mp member with linked | behind
          · exact separator_not_mem_of_mem_segments linked
          · exact whole segment ((walkLeg_detour leg).subset behind)

namespace FileSystem

variable {files after : FileSystem} {path target : Path}

theorem locate_name_proper {purpose : Purpose} {spot : Spot}
    (found : files.locate purpose path = .ok spot) : ∀ name ∈ spot.name?, ProperName name := by
  rw [locate] at found
  split_ifs at found
  · exact follow_name_proper (fun segment => separator_not_mem_of_mem_segments) found
  · exact follow_name_proper (fun segment => separator_not_mem_of_mem_segments) found

theorem writeBytes_sound (sound : files.top.Sound) {content : ByteArray}
    (written : files.writeBytes path content = .ok after) : after.top.Sound := by
  obtain ⟨spot, found, result⟩ := bind_eq_ok_iff.mp written
  have proper := locate_name_proper found
  cases spot with
  | folder | link => cases result
  | file | vacant =>
      cases result
      exact sound.putAt proper trivial

theorem write_sound (sound : files.top.Sound) {text : List Char}
    (written : files.write path text = .ok after) : after.top.Sound :=
  writeBytes_sound sound written

theorem makeFolder_sound (sound : files.top.Sound) (made : files.makeFolder path = .ok after) :
    after.top.Sound := by
  obtain ⟨spot, found, result⟩ := bind_eq_ok_iff.mp made
  have proper := locate_name_proper found
  cases spot with
  | file | link => cases result
  | folder =>
      cases result
      exact sound
  | vacant =>
      cases result
      exact sound.putAt proper trivial

theorem makeFolders_sound (sound : files.top.Sound) (made : files.makeFolders path = .ok after) :
    after.top.Sound := by
  rw [makeFolders] at made
  generalize waypoints path = folders at made
  induction folders generalizing files with
  | nil =>
      cases made
      exact sound
  | cons folder folders ih =>
      rw [List.foldlM_cons] at made
      obtain ⟨next, first, rest⟩ := bind_eq_ok_iff.mp made
      exact ih (makeFolder_sound sound first) rest

theorem placeFile_sound (sound : files.top.Sound) {content : ByteArray}
    (placed : files.placeFile path content = .ok after) : after.top.Sound := by
  obtain ⟨next, parents, written⟩ := bind_eq_ok_iff.mp placed
  exact writeBytes_sound (makeFolders_sound sound parents) written

theorem placeLink_sound (sound : files.top.Sound) (placed : files.placeLink path target = .ok after) :
    after.top.Sound := by
  obtain ⟨next, parents, rest⟩ := bind_eq_ok_iff.mp placed
  have ready := makeFolders_sound sound parents
  obtain ⟨spot, found, result⟩ := bind_eq_ok_iff.mp rest
  have proper := locate_name_proper found
  cases spot with
  | folder => cases result
  | file | link | vacant =>
      cases result
      exact ready.putAt proper trivial

theorem remove_sound (sound : files.top.Sound) (removed : files.remove path = .ok after) :
    after.top.Sound := by
  obtain ⟨spot, found, rest⟩ := bind_eq_ok_iff.mp removed
  cases spot with
  | vacant => cases rest
  | folder | file | link =>
      cases rest
      exact sound.eraseAt _

end FileSystem

end Unbroken
