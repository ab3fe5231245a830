import Unbroken.Proofs.Invocation
import Unbroken.Proofs.Toml.Printed

/-! The three layers of a search: what is usual, the file, and the options. The options could as well
have been written into the file. -/

namespace Unbroken

namespace Toml.Members

def put (key : String) (value : Option Value) (members : Members) : Members :=
  match value with
  | some value => members.remove key ++ [(key, value)]
  | none => members

variable {members : Members} {key : String} {value : Option Value}

theorem find?_remove_of_ne {name : String} (other : name ≠ key) (members : Members) :
    find? name (members.remove key) = find? name members := by
  induction members with
  | nil => rfl
  | cons first others ih =>
      obtain ⟨here, content⟩ := first
      rw [remove] at ih ⊢
      by_cases removed : here = key
      · subst removed
        simpa [other] using ih
      · simp only [ne_eq, decide_not] at ih
        simp [removed, ih]

theorem find?_append (name : String) (members others : Members) :
    find? name (members ++ others) = (find? name members).or (find? name others) :=
  List.lookup_append

theorem put_distinct (distinct : (members.map Prod.fst).Nodup) :
    ((members.put key value).map Prod.fst).Nodup := by
  cases value with
  | none => exact distinct
  | some content => exact nodup_append_new (nodup_remove distinct) (find?_remove key members)

theorem forall_mem_put {holds : String × Value → Prop} (all : ∀ member ∈ members, holds member)
    (new : ∀ content ∈ value, holds (key, content)) :
    ∀ member ∈ members.put key value, holds member := by
  cases value with
  | none => exact all
  | some content =>
      simp only [put, List.mem_append, List.mem_singleton]
      rintro member (kept | rfl)
      · exact all member (List.mem_of_mem_filter kept)
      · exact new content rfl

variable {α ε : Type} (read : Value → Except ε α)

theorem given_put_some (content : Value) (members : Members) :
    given read key (members.put key (some content)) = (read content).toOption := by
  simp [given, put, find?_append, find?_remove]

theorem given_put_of_ne {name : String} (other : name ≠ key) (value : Option Value)
    (members : Members) : given read name (members.put key value) = given read name members := by
  cases value with
  | none => rfl
  | some content =>
      have last : find? name [(key, content)] = none := by simp [other, find?]
      rw [given, put, find?_append, find?_remove_of_ne other, last, Option.or_none, given]

end Toml.Members

namespace Arguments

def writtenInto (arguments : Arguments) (members : Toml.Members) : Toml.Members :=
  let names := (members.given Settings.readStrings "exclude").getD Exclusions.usual.names
  ((members.put "extension" (arguments.extension.map fun text => .string text.toList)).put "exclude"
    (if arguments.exclude = [] then none
      else some (.array ((names ++ arguments.exclude).map fun name => .string name.toList)))).put
    "max_file_size" (arguments.maxFileSize.map fun (size : Nat) => .integer size)

def withoutSettings (arguments : Arguments) : Arguments :=
  { arguments with extension := none, exclude := [], maxFileSize := none }

end Arguments

/-- A search as its layers make it. An option comes before the file and the file before what is
usual, and excluded names of an option come to those of the file. -/
structure Search.Layered (search : Search) (arguments : Arguments) (members : Toml.Members) :
    Prop where
  root : search.root = Invocation.rootOf arguments
  extension : search.extension = Settings.withoutDots
    ((arguments.extension.or (members.given Settings.readString "extension")).getD templateExtension)
  exclusions : ∀ name, search.exclusions.excludes name = true ↔
    name ∈ (members.given Settings.readStrings "exclude").getD Exclusions.usual.names ∨
      name ∈ arguments.exclude
  maxFileSize : search.maxFileSize =
    arguments.maxFileSize.or (members.given Settings.readSize "max_file_size")

namespace Settings

open Toml.Members

variable {text : List Char} {members : Toml.Members}

theorem ofText_eq_ok_iff (settings : Settings) : ofText text = .ok settings ↔
    ∃ members, Toml.parse? text = some members ∧
      (∀ member ∈ members, Fits member.1 member.2) ∧ settings = usual.overlaid members := by
  unfold ofText
  cases parsed : Toml.parse? text with
  | none => simp
  | some members =>
      simp only [Option.some.injEq, exists_eq_left',
        ← ofMembers_eq_ok_iff (Toml.parse?_proper parsed)]
      cases ofMembers members <;> simp [Except.mapError]

theorem toOption_eq_some_iff {ε α : Type} {result : Except ε α} {value : α} :
    result.toOption = some value ↔ result = .ok value := by
  cases result <;> simp [Except.toOption]

theorem toOption_ofMembers_perm {others : Toml.Members} (parsed : Toml.parse? text = some members)
    (perm : members.Perm others) : (ofMembers others).toOption = (ofText text).toOption := by
  have proper := Toml.parse?_proper parsed
  ext settings
  simp only [toOption_eq_some_iff, ofMembers_eq_ok_iff (proper.perm perm), ofText_eq_ok_iff, parsed,
    Option.some.injEq, exists_eq_left', overlaid_perm proper.distinct perm, perm.mem_iff]

theorem searchOf_layered (arguments : Arguments) (members : Toml.Members) :
    (Invocation.searchOf arguments (usual.overlaid members)).Layered arguments members := by
  constructor
  · rfl
  · have dotless : withoutDots templateExtension = templateExtension := rfl
    cases option : arguments.extension <;>
      cases file : members.given readString "extension" <;>
        simp [Invocation.searchOf, Invocation.adjust, search, overlaid, usual, option, file, dotless]
  · intro name
    simp [Invocation.searchOf, Invocation.adjust, search, overlaid, Exclusions.excludes, usual]
  · simp [Invocation.searchOf, Invocation.adjust, search, overlaid, usual]

theorem given_extension_writtenInto (arguments : Arguments) (members : Toml.Members) :
    (arguments.writtenInto members).given readString "extension" =
      arguments.extension.or (members.given readString "extension") := by
  have sizeDiffers : "extension" ≠ "max_file_size" := by decide
  have excludeDiffers : "extension" ≠ "exclude" := by decide
  rw [Arguments.writtenInto, given_put_of_ne _ sizeDiffers, given_put_of_ne _ excludeDiffers]
  cases arguments.extension with
  | none => rfl
  | some text =>
      rw [Option.map_some, given_put_some, (readString_eq_ok_iff _ text).mpr rfl]
      rfl

theorem given_exclude_writtenInto (arguments : Arguments) (members : Toml.Members) :
    (arguments.writtenInto members).given readStrings "exclude" =
      if arguments.exclude = [] then members.given readStrings "exclude"
      else some ((members.given readStrings "exclude").getD Exclusions.usual.names ++
        arguments.exclude) := by
  have sizeDiffers : "exclude" ≠ "max_file_size" := by decide
  have extensionDiffers : "exclude" ≠ "extension" := by decide
  rw [Arguments.writtenInto, given_put_of_ne _ sizeDiffers]
  split
  · exact given_put_of_ne _ extensionDiffers _ _
  · rw [given_put_some, readStrings, (mapM_readString_eq_ok_iff _ _).mpr rfl]
    rfl

theorem given_maxFileSize_writtenInto (arguments : Arguments) (members : Toml.Members) :
    (arguments.writtenInto members).given readSize "max_file_size" =
      arguments.maxFileSize.or (members.given readSize "max_file_size") := by
  have excludeDiffers : "max_file_size" ≠ "exclude" := by decide
  have extensionDiffers : "max_file_size" ≠ "extension" := by decide
  rw [Arguments.writtenInto]
  cases arguments.maxFileSize with
  | none =>
      change given readSize _ (put _ _ (put _ _ members)) = _
      rw [given_put_of_ne _ excludeDiffers, given_put_of_ne _ extensionDiffers, Option.none_or]
  | some size =>
      rw [Option.map_some, given_put_some, (readSize_eq_ok_iff _ size).mpr rfl]
      rfl

theorem searchOf_writtenInto (arguments : Arguments) (members : Toml.Members) :
    Invocation.searchOf arguments.withoutSettings (usual.overlaid (arguments.writtenInto members)) =
      Invocation.searchOf arguments (usual.overlaid members) := by
  simp only [Invocation.searchOf, Invocation.adjust, search, overlaid, given_extension_writtenInto,
    given_exclude_writtenInto, given_maxFileSize_writtenInto, Arguments.withoutSettings,
    Invocation.rootOf, Search.mk.injEq, true_and]
  refine ⟨?_, ?_, ?_⟩
  · cases arguments.extension <;> simp
  · by_cases none : arguments.exclude = [] <;> simp [none, usual]
  · cases arguments.maxFileSize <;> simp

theorem writtenInto_distinct (arguments : Arguments) (distinct : (members.map Prod.fst).Nodup) :
    ((arguments.writtenInto members).map Prod.fst).Nodup :=
  put_distinct (put_distinct (put_distinct distinct))

theorem writtenInto_fits {arguments : Arguments} (sizes : ∀ size ∈ arguments.maxFileSize, size < 2 ^ 63)
    (fit : ∀ member ∈ members, Fits member.1 member.2) :
    ∀ member ∈ arguments.writtenInto members, Fits member.1 member.2 := by
  refine forall_mem_put (forall_mem_put (forall_mem_put fit ?_) ?_) ?_
  · simp only [Option.mem_def, Option.map_eq_some_iff]
    rintro _ ⟨text, -, rfl⟩
    exact .extension _
  · simp only [Option.mem_def, Option.ite_none_left_eq_some, Option.some.injEq]
    rintro _ ⟨-, rfl⟩
    exact .exclude _
  · simp only [Option.mem_def, Option.map_eq_some_iff]
    rintro _ ⟨size, given, rfl⟩
    have bound := sizes size given
    exact .maxFileSize (Int.natCast_nonneg size) (by omega)

theorem ofFile_eq_ok_iff {files : FileSystem} {path : Path} {settings : Settings} :
    ofFile files path = .ok settings ↔
      ∃ text, files.read path = .ok text ∧ ofText text = .ok settings := by
  rw [ofFile]
  cases files.read path with
  | error failed => simp
  | ok text =>
      simp only [Except.ok.injEq, exists_eq_left']
      cases ofText text <;> simp [Except.mapError]

/-- The text in which the settings are looked up: that of the named file, else that of the usual file in
the folder if it is there, and else one without members. -/
inductive Consulted (files : FileSystem) (named : Option Path) (folder : Path) (text : List Char) : Prop
  | named (path : Path) : named = some path → files.read path = .ok text →
      Consulted files named folder text
  | usual : named = none → files.isFile (folder.join usualFile) = true →
      files.read (folder.join usualFile) = .ok text → Consulted files named folder text
  | nothing : named = none → files.isFile (folder.join usualFile) = false →
      Toml.parse? text = some [] → Consulted files named folder text

theorem find_eq_ok_iff {files : FileSystem} {named : Option Path} {folder : Path}
    {settings : Settings} : find files named folder = .ok settings ↔
      ∃ text, Consulted files named folder text ∧ ofText text = .ok settings := by
  have empty : ∀ {text}, Toml.parse? text = some [] → ofText text = .ok Settings.usual :=
    fun parsed => (ofText_eq_ok_iff _).mpr ⟨[], parsed, by simp, rfl⟩
  cases named with
  | some path =>
      rw [find, ofFile_eq_ok_iff]
      constructor
      · rintro ⟨text, read, made⟩
        exact ⟨text, .named path rfl read, made⟩
      · rintro ⟨text, ⟨known, same, read⟩ | ⟨other⟩ | ⟨other⟩, made⟩
        · cases same
          exact ⟨text, read, made⟩
        · cases other
        · cases other
  | none =>
      simp only [find]
      split_ifs with there
      · rw [ofFile_eq_ok_iff]
        constructor
        · rintro ⟨text, read, made⟩
          exact ⟨text, .usual rfl there read, made⟩
        · rintro ⟨text, ⟨_, other⟩ | ⟨_, _, read⟩ | ⟨_, absent⟩, made⟩
          · cases other
          · exact ⟨text, read, made⟩
          · exact absurd there (by rw [absent]; decide)
      · have absent : files.isFile (folder.join usualFile) = false := Bool.eq_false_iff.mpr there
        constructor
        · rintro ⟨⟩
          have parsed := Toml.parse?_printed Toml.Members.Proper.nil.distinct (by simp)
          exact ⟨_, .nothing rfl absent parsed, empty parsed⟩
        · rintro ⟨text, ⟨_, other⟩ | ⟨_, present⟩ | ⟨_, _, parsed⟩, made⟩
          · cases other
          · exact absurd present there
          · exact congrArg Except.ok (Except.ok.inj ((empty parsed).symm.trans made))

/-- A text is settings if it is a document whose members all fit their keys, in whatever order they
come. The search takes each of its settings from the topmost layer that has it, and the options make
no other search than they would in the file. -/
theorem settings_layers :
    (∀ text, (∃ settings, ofText text = .ok settings) ↔
      ∃ members, Toml.parse? text = some members ∧ ∀ member ∈ members, Fits member.1 member.2) ∧
    (∀ files named folder settings, find files named folder = .ok settings ↔
      ∃ text, Consulted files named folder text ∧ ofText text = .ok settings) ∧
    ∀ text members, Toml.parse? text = some members →
      (∀ others, members.Perm others → (ofMembers others).toOption = (ofText text).toOption) ∧
      ∀ settings, ofText text = .ok settings → ∀ arguments : Arguments,
        (Invocation.searchOf arguments settings).Layered arguments members ∧
        ((∀ size ∈ arguments.maxFileSize, size < 2 ^ 63) →
          ∃ page written, Toml.parse? page = some (arguments.writtenInto members) ∧
            ofText page = .ok written ∧
            Invocation.searchOf arguments.withoutSettings written =
              Invocation.searchOf arguments settings) := by
  refine ⟨fun text => ?_, fun _ _ _ _ => find_eq_ok_iff, fun text members parsed =>
    ⟨fun others => toOption_ofMembers_perm parsed, fun settings read arguments => ?_⟩⟩
  · simp only [ofText_eq_ok_iff]
    exact ⟨fun ⟨_, members, parsed, fit, _⟩ => ⟨members, parsed, fit⟩,
      fun ⟨members, parsed, fit⟩ => ⟨_, members, parsed, fit, rfl⟩⟩
  · obtain ⟨_, again, fit, rfl⟩ := (ofText_eq_ok_iff settings).mp read
    cases parsed.symm.trans again
    refine ⟨searchOf_layered arguments members, fun sizes => ?_⟩
    have fits := writtenInto_fits sizes fit
    have distinct := writtenInto_distinct arguments (Toml.parse?_proper parsed).distinct
    have page := Toml.parse?_printed distinct fits
    exact ⟨_, _, page, (ofText_eq_ok_iff _).mpr ⟨_, page, fits, rfl⟩,
      searchOf_writtenInto arguments members⟩

def forPages : Toml.Members :=
  [("extension", .string "..html".toList), ("exclude", .array [.string "out".toList])]

def forTemplates : Arguments :=
  { extension := some ".j2", exclude := ["vendor"], maxFileSize := some 4096 }

theorem forPages_fit : ∀ member ∈ forPages, Fits member.1 member.2 := by
  simp only [forPages, List.forall_mem_cons]
  exact ⟨.extension _, .exclude ["out"], by simp⟩

theorem settings_layers_pages :
    let settings : Settings := { extension := "html", exclude := ["out"], maxFileSize := none }
    Toml.parse? (Toml.printed forPages) = some forPages ∧
      ofText (Toml.printed forPages) = .ok settings ∧
      (∀ size ∈ forTemplates.maxFileSize, size < 2 ^ 63) ∧
      Invocation.searchOf forTemplates settings =
        { root := ⟨"."⟩, extension := "j2", exclusions := ⟨["out", "vendor"]⟩,
          maxFileSize := some 4096 } ∧
      (Invocation.searchOf forTemplates settings).Layered forTemplates forPages ∧
      ∃ page written, Toml.parse? page = some (forTemplates.writtenInto forPages) ∧
        ofText page = .ok written ∧
        Invocation.searchOf forTemplates.withoutSettings written =
          Invocation.searchOf forTemplates settings := by
  intro settings
  have parsed : Toml.parse? (Toml.printed forPages) = some forPages :=
    Toml.parse?_printed (by decide) forPages_fit
  have read : ofText (Toml.printed forPages) = .ok settings :=
    (ofText_eq_ok_iff settings).mpr ⟨forPages, parsed, forPages_fit, rfl⟩
  have sizes : ∀ size ∈ forTemplates.maxFileSize, size < 2 ^ 63 := by simp [forTemplates]
  have layers := (settings_layers.2.2 _ forPages parsed).2 settings read forTemplates
  exact ⟨parsed, read, sizes, rfl, layers.1, layers.2 sizes⟩

end Settings

end Unbroken
