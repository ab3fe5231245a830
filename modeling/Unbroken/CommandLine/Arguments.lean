import Unbroken.Path

/-! The words of a command line. Options may stand before and behind the root, as `--name value` or
`--name=value`; two dashes alone end them. Each may be given once, except exclusions. -/

namespace Unbroken

structure Arguments where
  root : Option Path := none
  fix : Bool := false
  prepush : Bool := false
  config : Option Path := none
  extension : Option String := none
  exclude : List String := []
  maxFileSize : Option Nat := none
  maxPasses : Option Nat := none
  /-- Accepted for what it may say, but a check runs on one thread. -/
  threads : Option String := none
  json : Option Path := none
  deriving DecidableEq, Repr

namespace Arguments

def once {α : Type} (known : Option α) (value : Option α) : Option (Option α) :=
  match known, value with
  | none, some value => some (some value)
  | _, _ => none

def path? (word : String) : Option Path :=
  if word = "" then none else some ⟨word⟩

def number? (word : String) : Option Nat :=
  let digits : List Char := match word.toList with
    | '+' :: digits => digits
    | digits => digits
  let value : Nat := digits.foldl (fun value digit => 10 * value + (digit.toNat - 48)) 0
  if digits ≠ [] ∧ digits.all Char.isDigit ∧ value < Nat.pow 2 64 then some value else none

def place (arguments : Arguments) (word : String) : Option Arguments := do
  let root ← once arguments.root (path? word)
  some { arguments with root := root }

def raise (arguments : Arguments) (name : String) : Option (Option Arguments) :=
  match name with
  | "fix" => some (if arguments.fix then none else some { arguments with fix := true })
  | "prepush" => some (if arguments.prepush then none else some { arguments with prepush := true })
  | _ => none

def assign (arguments : Arguments) (name value : String) : Option Arguments :=
  match name with
  | "config" => do
    let config ← once arguments.config (path? value)
    some { arguments with config := config }
  | "ext" => do
    let extension ← once arguments.extension (some value)
    some { arguments with extension := extension }
  | "exclude" => some { arguments with exclude := arguments.exclude ++ [value] }
  | "max-file-size" => do
    let maxFileSize ← once arguments.maxFileSize (number? value)
    some { arguments with maxFileSize := maxFileSize }
  | "max-passes" => do
    let maxPasses ← once arguments.maxPasses (number? value)
    some { arguments with maxPasses := maxPasses }
  | "threads" => do
    let threads ← once arguments.threads (some value)
    some { arguments with threads := threads }
  | "json" => do
    let json ← once arguments.json (path? value)
    some { arguments with json := json }
  | _ => none

def isOption (word : List Char) : Bool :=
  match word with
  | '-' :: _ :: _ => true
  | _ => false

def split (option : List Char) : String × Option String :=
  let name := option.takeWhile (· ≠ '=')
  let value := match option.drop name.length with
    | _ :: value => some (String.ofList value)
    | [] => none
  (String.ofList name, value)

def read (arguments : Arguments) : List String → Option Arguments
  | [] => some arguments
  | word :: rest =>
    match word.toList with
    | ['-', '-'] => rest.foldlM place arguments
    | '-' :: '-' :: option =>
      match split option, rest with
      | (name, some value), rest => do (← arguments.assign name value).read rest
      | (name, none), rest =>
        match arguments.raise name, rest with
        | some raised, rest => do (← raised).read rest
        | none, value :: rest =>
          if isOption value.toList then none else do (← arguments.assign name value).read rest
        | none, [] => none
    | letters => if isOption letters then none else do (← arguments.place word).read rest

end Arguments

inductive Command where
  | version
  | check (arguments : Arguments)
  deriving DecidableEq, Repr

def Command.ofWords? : List String → Option Command
  | [] => none
  | word :: rest =>
    if word = "--version" ∨ "-V".toList.isPrefixOf word.toList then some .version
    else if word = "check" then (Arguments.read {} rest).map .check
    else none

end Unbroken
