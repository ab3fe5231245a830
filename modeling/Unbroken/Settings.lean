import Unbroken.Search
import Unbroken.Storage
import Unbroken.Text.Quoted
import Unbroken.Toml.Document

/-! The settings of a search: their defaults, the TOML file that may change them, and where that
file is looked for. -/

namespace Unbroken

structure Settings where
  extension : String
  exclude : List String
  maxFileSize : Option Nat
  deriving DecidableEq, Repr

inductive ShapeError where
  | unknownField (key : String)
  | wrongType (found : Toml.Value) (expected : String)
  | negativeSize (size : Int)

namespace ShapeError

def describe : Toml.Value → String
  | .string text => "string " ++ String.ofList (Quoted.quote text)
  | .integer value => "integer `" ++ toString value ++ "`"
  | .float value => "floating point `" ++ value.positional ++ "`"
  | .boolean value => "boolean `" ++ toString value ++ "`"
  | .array _ | .tables _ => "sequence"
  | .dateTime _ | .table _ _ => "map"

def message : ShapeError → String
  | unknownField key =>
    "unknown field `" ++ key ++ "`, expected one of `extension`, `exclude`, `max_file_size`"
  | wrongType found expected => "invalid type: " ++ describe found ++ ", expected " ++ expected
  | negativeSize size => "invalid value: integer `" ++ toString size ++ "`, expected u64"

end ShapeError

inductive SettingsError where
  | badSyntax
  | badShape (error : ShapeError)

inductive SettingsFailure where
  | unreadable (failure : FileFailure)
  | unusable (path : Path) (error : SettingsError)

def SettingsFailure.context : SettingsFailure → String
  | unreadable failure => failure.message
  | unusable path _ => "parse config " ++ path.spelling

namespace Settings

def usual : Settings :=
  { extension := templateExtension, exclude := Exclusions.usual.names, maxFileSize := none }

def usualFile : String := "transline.toml"

def withoutDots (extension : String) : String :=
  String.ofList (extension.toList.dropWhile (· == '.'))

def readString : Toml.Value → Except ShapeError String
  | .string text => .ok (String.ofList text)
  | value => .error (.wrongType value "a string")

def readStrings : Toml.Value → Except ShapeError (List String)
  | .array elements => elements.mapM readString
  | .tables elements => (elements.map (Toml.Value.table .header)).mapM readString
  | value => .error (.wrongType value "a sequence")

def readSize : Toml.Value → Except ShapeError Nat
  | .integer value => if value < 0 then .error (.negativeSize value) else .ok value.toNat
  | value => .error (.wrongType value "u64")

def setMember (settings : Settings) (key : String) (value : Toml.Value) :
    Except ShapeError Settings :=
  match key with
  | "extension" => do
    let extension ← readString value
    .ok { settings with extension := withoutDots extension }
  | "exclude" => do
    let exclude ← readStrings value
    .ok { settings with exclude := exclude }
  | "max_file_size" => do
    let size ← readSize value
    .ok { settings with maxFileSize := some size }
  | _ => .error (.unknownField key)

def ofMembers (members : Toml.Members) : Except ShapeError Settings :=
  members.foldlM (fun settings (key, value) => settings.setMember key value) usual

def ofText (text : List Char) : Except SettingsError Settings :=
  match Toml.parse? text with
  | some members => (ofMembers members).mapError .badShape
  | none => .error .badSyntax

def ofFile (files : FileSystem) (path : Path) : Except SettingsFailure Settings :=
  match files.read path with
  | .error error => .error (.unreadable { action := .readConfig, path := path, error := error })
  | .ok text => (ofText text).mapError (.unusable path)

/-- The settings of a named file, which must be there; without a name, those of the usual file in a
directory, if it is there, and else the usual ones. -/
def find (files : FileSystem) (named : Option Path) (folder : Path) :
    Except SettingsFailure Settings :=
  match named with
  | some path => ofFile files path
  | none =>
    let path := folder.join usualFile
    if files.isFile path then ofFile files path else .ok usual

def search (settings : Settings) (root : Path) : Search :=
  { root := root
    extension := settings.extension
    exclusions := ⟨settings.exclude⟩
    maxFileSize := settings.maxFileSize }

end Settings

end Unbroken
