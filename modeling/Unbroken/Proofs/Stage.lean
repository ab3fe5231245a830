import Unbroken.Check
import Unbroken.Proofs.Pass
import Unbroken.Proofs.Search

/-! Files some passes on. What a pass over many files makes of one of them depends on its own text
only, so the files at any stage are told by how many passes went over each. -/

namespace Unbroken

def editContent (edit : List Char → List Char) (content : ByteArray) : ByteArray :=
  match String.fromUTF8? content with
  | some text => (String.ofList (edit text.toList)).toUTF8
  | none => content

theorem editContent_toUTF8 (edit : List Char → List Char) (text : List Char) :
    editContent edit (String.ofList text).toUTF8 = (String.ofList (edit text)).toUTF8 := by
  rw [editContent, (fromUTF8?_eq_some_iff _ _).mpr rfl]
  simp

theorem editContent_of_not_text {content : ByteArray} (unreadable : String.fromUTF8? content = none)
    (edit : List Char → List Char) : editContent edit content = content := by
  rw [editContent, unreadable]

theorem exists_text_or_not_text (content : ByteArray) :
    (∃ text, content = (String.ofList text).toUTF8) ∨ String.fromUTF8? content = none := by
  cases decoded : String.fromUTF8? content with
  | none => exact Or.inr rfl
  | some text => exact Or.inl ⟨text.toList, by simpa using (fromUTF8?_eq_some_iff _ _).mp decoded⟩

def mendContent (passes : Nat) (content : ByteArray) : ByteArray :=
  match String.fromUTF8? content with
  | some text => (String.ofList (mendOnce^[passes] text.toList)).toUTF8
  | none => content

theorem mendContent_toUTF8 (passes : Nat) (text : List Char) :
    mendContent passes (String.ofList text).toUTF8 =
      (String.ofList (mendOnce^[passes] text)).toUTF8 :=
  editContent_toUTF8 _ text

theorem mendContent_of_not_text {content : ByteArray} (unreadable : String.fromUTF8? content = none)
    (passes : Nat) : mendContent passes content = content :=
  editContent_of_not_text unreadable _

theorem mendContent_zero (content : ByteArray) : mendContent 0 content = content := by
  rcases exists_text_or_not_text content with ⟨text, rfl⟩ | unreadable
  · exact mendContent_toUTF8 0 text
  · exact mendContent_of_not_text unreadable 0

theorem size_mendContent_le (passes : Nat) (content : ByteArray) :
    (mendContent passes content).size ≤ content.size := by
  rcases exists_text_or_not_text content with ⟨text, rfl⟩ | unreadable
  · rw [mendContent_toUTF8]
    exact (mendOnce_iterate_sheds passes text).size_le
  · rw [mendContent_of_not_text unreadable]

namespace FileSystem

def place? (files : FileSystem) (path : Path) : Option (List String) :=
  match files.locate .access path with
  | .ok (.file location _) => some location
  | _ => none

/-- The files after an edit of each text as its location says. -/
def editedBy (files : FileSystem) (edits : List String → List Char → List Char) : FileSystem :=
  files.revise fun location => editContent (edits location)

def mendedBy (files : FileSystem) (passes : List String → Nat) : FileSystem :=
  files.revise fun location => mendContent (passes location)

def mendedAt (files : FileSystem) (paths : List Path) (passes : Nat) : FileSystem :=
  files.mendedBy fun location => if location ∈ paths.filterMap files.place? then passes else 0

end FileSystem

def advance (passes : List String → Nat) (location : List String) : List String → Nat :=
  fun other => if other = location then passes location + 1 else passes other

structure Holds (files : FileSystem) (path : Path) (text : List Char) (location : List String) :
    Prop where
  located : files.locate .access path = .ok (.file location (String.ofList text).toUTF8)

namespace Holds

variable {files : FileSystem} {path : Path} {text : List Char} {location : List String}

theorem place (holds : Holds files path text location) : files.place? path = some location := by
  rw [FileSystem.place?, holds.located]

theorem read (holds : Holds files path text location) : files.read path = .ok text :=
  (FileSystem.read_eq_ok_iff _ _ _).mpr ⟨location, holds.located⟩

theorem at? (holds : Holds files path text location) :
    files.top.at? location = some (.file (String.ofList text).toUTF8) :=
  FileSystem.at?_of_locate holds.located

theorem editedBy (holds : Holds files path text location) (edits : List String → List Char → List Char) :
    Holds (files.editedBy edits) path (edits location text) location := by
  refine ⟨?_⟩
  rw [FileSystem.editedBy, FileSystem.locate_revise, holds.located, Except.map, Spot.revise,
    editContent_toUTF8]

theorem mendedBy (holds : Holds files path text location) (passes : List String → Nat) :
    Holds (files.mendedBy passes) path (mendOnce^[passes location] text) location :=
  holds.editedBy fun location => mendOnce^[passes location]

theorem text_eq (holds : Holds files path text location) {other : List Char}
    (found : files.top.at? location = some (.file (String.ofList other).toUTF8)) : other = text := by
  have same := found.symm.trans holds.at?
  simp only [Option.some.injEq, Entry.file.injEq] at same
  exact toUTF8_ofList_inj same

end Holds

theorem FileSystem.editedBy_congr {files : FileSystem} (sound : files.top.Sound)
    {first second : List String → List Char → List Char}
    (agree : ∀ location text, files.top.at? location = some (.file (String.ofList text).toUTF8) →
      first location text = second location text) :
    files.editedBy first = files.editedBy second := by
  rw [editedBy, editedBy, revise, revise, sound.revise_congr]
  intro location content found
  rcases exists_text_or_not_text content with ⟨text, rfl⟩ | unreadable
  · rw [editContent_toUTF8, editContent_toUTF8, agree location text found]
  · rw [editContent_of_not_text unreadable, editContent_of_not_text unreadable]

theorem FileSystem.editedBy_id (files : FileSystem) :
    files.editedBy (fun _ text => text) = files := by
  apply FileSystem.revise_id
  intro location content
  rcases exists_text_or_not_text content with ⟨text, rfl⟩ | unreadable
  · exact editContent_toUTF8 _ text
  · exact editContent_of_not_text unreadable _

section

variable {files : FileSystem} {path : Path} {text : List Char} {location : List String}

theorem Holds.of_at? (found : files.top.at? location = some (.file (String.ofList text).toUTF8))
    (place : files.place? path = some location) : Holds files path text location := by
  rw [FileSystem.place?] at place
  split at place
  next there content located =>
    obtain rfl := Option.some.inj place
    have known := found.symm.trans (FileSystem.at?_of_locate located)
    simp only [Option.some.injEq, Entry.file.injEq] at known
    exact ⟨known ▸ located⟩
  next => cases place

theorem locate_editedBy_of_unreadable (unreadable : (files.read path).toOption = none)
    (edits : List String → List Char → List Char) :
    (files.editedBy edits).locate .access path = files.locate .access path := by
  rw [FileSystem.editedBy, FileSystem.locate_revise]
  cases located : files.locate .access path with
  | error failed => rfl
  | ok spot =>
      cases spot with
      | folder | link | vacant => rfl
      | file location content =>
          have decoded := FileSystem.toOption_read located
          rw [unreadable, eq_comm, Option.map_eq_none_iff] at decoded
          rw [Except.map, Spot.revise, editContent_of_not_text decoded]

theorem toOption_read_editedBy_of_none (unreadable : (files.read path).toOption = none)
    (edits : List String → List Char → List Char) :
    ((files.editedBy edits).read path).toOption = none := by
  rw [FileSystem.read, locate_editedBy_of_unreadable unreadable]
  exact unreadable

theorem exists_holds_of_read (given : files.read path = .ok text) :
    ∃ location, Holds files path text location := by
  obtain ⟨location, located⟩ := (FileSystem.read_eq_ok_iff _ _ _).mp given
  exact ⟨location, ⟨located⟩⟩

theorem write_editedBy (sound : files.top.Sound) (holds : Holds files path text location)
    (edits : List String → List Char → List Char) (edit : List Char → List Char) :
    (files.editedBy edits).write path (edit (edits location text)) =
      .ok (files.editedBy (Function.update edits location (edit ∘ edits location))) := by
  have later := holds.editedBy edits
  rw [FileSystem.write, FileSystem.writeBytes_eq_revise (sound.revise _) later.located,
    FileSystem.editedBy, FileSystem.revise_revise]
  congr 1
  rw [FileSystem.editedBy, FileSystem.revise, FileSystem.revise]
  congr 1
  refine sound.revise_congr fun other content found => ?_
  by_cases same : other = location
  · subst same
    have known := holds.at?.symm.trans found
    simp only [Option.some.injEq, Entry.file.injEq] at known
    subst known
    rw [Directory.onlyAt, if_pos rfl, Function.update_self, editContent_toUTF8, Function.comp_apply]
  · rw [Directory.onlyAt, if_neg same, Function.update_of_ne same]

theorem mendedBy_advance (files : FileSystem) (passes : List String → Nat) (location : List String) :
    files.mendedBy (advance passes location) = files.editedBy (Function.update
      (fun place => mendOnce^[passes place]) location (mendOnce ∘ mendOnce^[passes location])) := by
  change files.editedBy (fun place => mendOnce^[advance passes location place]) = _
  congr 1
  funext place
  by_cases same : place = location
  · subst same
    rw [advance, if_pos rfl, Function.update_self, Function.iterate_succ']
  · rw [advance, if_neg same, Function.update_of_ne same]

theorem mendedBy_advance_of_clean (sound : files.top.Sound) (holds : Holds files path text location)
    {passes : List String → Nat} (clean : Clean (mendOnce^[passes location] text)) :
    files.mendedBy (advance passes location) = files.mendedBy passes := by
  rw [mendedBy_advance]
  refine FileSystem.editedBy_congr sound fun other content found => ?_
  by_cases same : other = location
  · subst same
    rw [holds.text_eq found, Function.update_self, Function.comp_apply, mendOnce_of_clean clean]
  · rw [Function.update_of_ne same]

theorem mendFile_editedBy (sound : files.top.Sound) (holds : Holds files path text location)
    (edits : List String → List Char → List Char) (edit : List Char → List Char) {breaks : List Break}
    (mends : (mend (Template.ofText (edits location text)) breaks).template.text =
      edit (edits location text)) :
    (files.editedBy edits).mendFile path breaks =
      .ok (if (mend (Template.ofText (edits location text)) breaks).changed then
        some (files.editedBy (Function.update edits location (edit ∘ edits location))) else none) := by
  have loaded : (files.editedBy edits).loadTemplate path =
      .ok (Template.ofText (edits location text)) := by
    rw [FileSystem.loadTemplate, (holds.editedBy edits).read]
  rw [FileSystem.mendFile, loaded]
  simp only [bind, Except.bind]
  split_ifs
  · rw [FileSystem.saveTemplate, mends, write_editedBy sound holds]
    rfl
  · rfl

theorem mendFile_breaksIn (sound : files.top.Sound) (holds : Holds files path text location)
    (passes : List String → Nat) :
    (files.mendedBy passes).mendFile path (breaksIn path (mendOnce^[passes location] text)) =
      .ok (if Clean (mendOnce^[passes location] text) then none
        else some (files.mendedBy (advance passes location))) := by
  have mends : (mend (Template.ofText (mendOnce^[passes location] text))
      (breaksIn path (mendOnce^[passes location] text))).template.text =
        mendOnce (mendOnce^[passes location] text) := by
    rw [mend_breaksIn_default, mendOnce]
  have mended := mendFile_editedBy sound holds (fun place => mendOnce^[passes place]) mendOnce mends
  rw [← mendedBy_advance] at mended
  refine mended.trans ?_
  simp only [changed_mend_iff, ite_not]

end

end Unbroken
