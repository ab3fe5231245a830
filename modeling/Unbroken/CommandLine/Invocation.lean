import Unbroken.Text.Lines
import Unbroken.Check
import Unbroken.Settings
import Unbroken.CommandLine.Log
import Unbroken.CommandLine.Staging
import Unbroken.JsonReport

/-! One invocation of the program: find the settings, run the check, write the report, and before a
push stage the files that were mended. -/

namespace Unbroken

structure Complaint where
  summary : String
  causes : List String
  deriving DecidableEq, Repr

def labelled (label cause : List Char) : List Char :=
  let indent := List.replicate label.length ' '
  label ++ ('\n' :: indent).intercalate (splitLines cause) ++ ['\n']

def Complaint.text (complaint : Complaint) : String :=
  let causes : List (List Char) := match complaint.causes with
    | [cause] => [labelled "    ".toList cause.toList]
    | causes => causes.mapIdx fun index (cause : String) =>
      labelled ("    ".toList ++ Nat.toDigits 10 index ++ [':', ' ']) cause.toList
  "Error: " ++ complaint.summary ++ "\n\nCaused by:\n" ++ String.ofList causes.flatten

inductive Output where
  | message (message : Message)
  | log (entry : LogEntry)
  deriving DecidableEq, Repr

def Output.message? : Output → Option Message
  | message told => some told
  | log _ => none

structure Invocation where
  exitCode : Nat
  output : List Output
  complaint : Option Complaint
  stagingCalls : List Path
  files : FileSystem

namespace Invocation

def told (invocation : Invocation) : List Message :=
  invocation.output.filterMap Output.message?

def stdout (invocation : Invocation) : String :=
  String.join (invocation.told.filterMap fun message =>
    if message.severity = .info then some (message.text ++ "\n") else none)

/-- What goes to the standard error: warnings, errors and the log, then the complaint. Whoever keeps the
log decides which of its entries are written, and how; by default it is off. -/
def stderr (invocation : Invocation) (logged : LogEntry → Option String := fun _ => none) : String :=
  let line : Output → Option String
    | .message told => if told.severity = .info then none else some (told.text ++ "\n")
    | .log entry => logged entry
  String.join (invocation.output.filterMap line) ++
    (invocation.complaint.map Complaint.text).getD ""

def adjust (arguments : Arguments) (settings : Settings) : Settings :=
  { extension := (arguments.extension.map Settings.withoutDots).getD settings.extension
    exclude := settings.exclude ++ arguments.exclude
    maxFileSize := arguments.maxFileSize.or settings.maxFileSize }

def rootOf (arguments : Arguments) : Path :=
  arguments.root.getD ⟨"."⟩

def searchOf (arguments : Arguments) (settings : Settings) : Search :=
  (adjust arguments settings).search (rootOf arguments)

def optionsOf (arguments : Arguments) : Options :=
  { fix := arguments.fix || arguments.prepush
    maxPasses := arguments.maxPasses.getD usualPasses }

def banner (arguments : Arguments) : Message :=
  if arguments.prepush then .info "Running translation strings test (pre-push hook)...\n"
  else .info "Checking for multi-line translation strings...\n"

def announced (arguments : Arguments) (progress : Progress) : Progress :=
  { progress with told := banner arguments :: progress.told }

def reasonOf : SettingsFailure → String
  | .unreadable failure => failure.error.description
  | .unusable _ .badSyntax => "TOML parse error"
  | .unusable _ (.badShape error) => "TOML parse error\n" ++ error.message

def printed (arguments : Arguments) (progress : Progress) : List Output :=
  .log (.starting (rootOf arguments) arguments.fix arguments.prepush) :: progress.told.map .message

def ended (arguments : Arguments) (progress : Progress) (complaint : Complaint) : Invocation :=
  { exitCode := 1
    output := printed arguments progress
    complaint := some complaint
    stagingCalls := []
    files := progress.files }

def withReport (arguments : Arguments) (refuses : Refusals) (progress : Progress) (breaks : List Break) :
    Except FileError FileSystem :=
  match arguments.json with
  | some path => progress.files.write path (JsonReport.render breaks) (refuses progress path)
  | none => .ok progress.files

def stagingMessage (complete : Bool) : Message :=
  if complete then .info "Staged fixed files for commit.\n"
  else .warn "Could not stage files automatically. Please stage them manually.\n"

def stagingOutput : Option String → List Output
  | none => [.message (stagingMessage true)]
  | some failure => [.log (.unstaged failure), .message (stagingMessage false)]

def staging (arguments : Arguments) (stager : Stager) (mended : List Path) : List Path × List Output :=
  if arguments.prepush && !mended.isEmpty then
    let (calls, failure) := stager.stage mended
    (calls, stagingOutput failure)
  else ([], [])

def hint : Failure → List Output
  | .broken _ => [.message (.error "Or run with --fix flag to auto-fix: transline check --fix")]
  | .unmended _ => []

def conclusion : Verdict → List Output
  | .clean | .mended => []
  | .failed failure => hint failure ++ [.log (.failed failure)]

def finish (stager : Stager) (refuses : Refusals) (arguments : Arguments) (progress : Progress)
    (report : Report) : Invocation :=
  match withReport arguments refuses progress report.breaks with
  | .error error =>
    ended arguments progress { summary := "create json report", causes := [error.description] }
  | .ok files =>
    let (calls, staged) := staging arguments stager report.mendedFiles
    { exitCode := if report.verdict.isSuccess then 0 else 1
      output := printed arguments progress ++ staged ++ .log (.finished report.tally) ::
        conclusion report.verdict
      complaint := none
      stagingCalls := calls
      files := files }

def check (stager : Stager) (refuses : Refusals) (arguments : Arguments) (files : FileSystem) :
    Invocation :=
  match Settings.find files arguments.config (rootOf arguments) with
  | .error failure =>
    ended arguments { files := files, told := [] }
      { summary := "load config", causes := [failure.context, reasonOf failure] }
  | .ok settings =>
    let source := Source.search (searchOf arguments settings)
    match Check.run source (.silent refuses) (optionsOf arguments) files with
    | .error halted =>
      ended arguments (announced arguments halted.progress)
        { summary := "check failed", causes := [halted.reason] }
    | .ok (progress, report) => finish stager refuses arguments (announced arguments progress) report

def version (files : FileSystem) : Invocation :=
  { exitCode := 0
    output := [.message (.info "transline 0.1.0")]
    complaint := none
    stagingCalls := []
    files := files }

/-- What the program does with the words of a command line, if it takes them. -/
def run? (stager : Stager) (words : List String) (files : FileSystem) (refuses : Refusals := .never) :
    Option Invocation :=
  (Command.ofWords? words).map fun command =>
    match command with
    | .version => version files
    | .check arguments => check stager refuses arguments files

end Invocation

end Unbroken
