import Unbroken.CommandLine.Invocation
import Unbroken.Proofs.Afresh
import Unbroken.Proofs.Spoken

/-! The course of an invocation. Up to the end of its check it asks nobody to stage files, and what it is
answered then decides on one message and on how many files it goes on to ask for, and on nothing else. -/

namespace Unbroken

namespace Stager

variable (stager : Stager)

/-- Either all files are staged, or there is a first one that is not. That one was asked for, too, unless
there was nobody to ask. -/
theorem stage_cases (paths : List Path) :
    (stager.stage paths = (paths, none) ∧ ∀ path ∈ paths, stager path = .staged) ∨
      ∃ before path after, paths = before ++ path :: after ∧
        (∀ other ∈ before, stager other = .staged) ∧
        ((∃ status, stager path = .refused status ∧
            stager.stage paths = (before ++ [path], some (refusalText path status))) ∨
          stager path = .unavailable ∧ stager.stage paths = (before, some "spawn git")) := by
  induction paths with
  | nil => exact Or.inl ⟨rfl, by simp⟩
  | cons first others ih =>
      rw [stage]
      cases answer : stager first with
      | refused status =>
          exact Or.inr ⟨[], first, others, rfl, by simp, Or.inl ⟨status, answer, rfl⟩⟩
      | unavailable => exact Or.inr ⟨[], first, others, rfl, by simp, Or.inr ⟨answer, rfl⟩⟩
      | staged =>
          rcases ih with ⟨whole, all⟩ | ⟨before, path, after, rfl, all, last⟩
          · refine Or.inl ⟨?_, List.forall_mem_cons.mpr ⟨answer, all⟩⟩
            rw [whole]
          · refine Or.inr ⟨first :: before, path, after, rfl, List.forall_mem_cons.mpr ⟨answer, all⟩, ?_⟩
            rcases last with ⟨status, refused, asked⟩ | ⟨unavailable, asked⟩
            · exact Or.inl ⟨status, refused, by rw [asked]; rfl⟩
            · exact Or.inr ⟨unavailable, by rw [asked]⟩

end Stager

namespace Invocation

variable (arguments : Arguments)

def mendedFiles (files : FileSystem) (refuses : Refusals := .never) : List Path :=
  match Settings.find files arguments.config (rootOf arguments) with
  | .error _ => []
  | .ok settings =>
    match Check.run (.search (searchOf arguments settings)) (.silent refuses) (optionsOf arguments)
      files with
    | .error _ => []
    | .ok (_, report) => report.mendedFiles

@[simp] theorem files_announced (progress : Progress) :
    (announced arguments progress).files = progress.files :=
  rfl

theorem filterMap_message?_printed (progress : Progress) :
    (printed arguments progress).filterMap Output.message? = progress.told := by
  rw [printed, List.filterMap_cons, List.filterMap_map]
  exact List.filterMap_some

theorem told_ended (progress : Progress) (complaint : Complaint) :
    (ended arguments progress complaint).told = progress.told :=
  filterMap_message?_printed arguments progress

variable {arguments} {files : FileSystem}

theorem check_of_found {settings : Settings}
    (found : Settings.find files arguments.config (rootOf arguments) = .ok settings)
    (refuses : Refusals) :
    ∃ progress report,
      Check.run (.search (searchOf arguments settings)) (.silent refuses) (optionsOf arguments) files =
        .ok (progress, report) ∧
      mendedFiles arguments files refuses = report.mendedFiles ∧
      ∀ stager, check stager refuses arguments files =
        finish stager refuses arguments (announced arguments progress) report := by
  have steady : ∀ round system, (Source.search (searchOf arguments settings)).list round system =
      .ok ((searchOf arguments settings).files system) := fun _ _ => rfl
  obtain ⟨progress, report, done, -⟩ := Check.run_tells refuses steady (optionsOf arguments) files
  refine ⟨progress, report, done, ?_, fun stager => ?_⟩
  · rw [mendedFiles, found]
    simp only [done]
  · rw [check, found]
    simp only [done]

def aboutStaging (message : Message) : Bool :=
  message = stagingMessage true ∨ message = stagingMessage false

theorem aboutStaging_stagingMessage (complete : Bool) :
    aboutStaging (stagingMessage complete) = true := by
  cases complete <;> decide

theorem aboutStaging_eq_false {message : Message}
    (told : message.severity = .info → message.text.toList.head? ≠ some 'S')
    (warned : message.severity = .warn → message.text.toList.head? ≠ some 'C') :
    aboutStaging message = false := by
  rw [aboutStaging, decide_eq_false_iff_not]
  rintro (rfl | rfl)
  · exact told rfl (by decide)
  · exact warned rfl (by decide)

theorem aboutStaging_of_mem_listing {breaks : List Break} {message : Message}
    (member : message ∈ listing breaks) : aboutStaging message = false := by
  rcases List.mem_cons.mp member with rfl | member
  · exact aboutStaging_eq_false nofun nofun
  obtain ⟨entry, listed, inside⟩ := List.mem_flatten.mp member
  obtain ⟨index, bound, rfl⟩ := List.mem_mapIdx.mp listed
  simp only [Break.entry, List.cons_append, List.nil_append, List.mem_cons, List.mem_append,
    List.mem_map, List.not_mem_nil, or_false] at inside
  rcases inside with rfl | rfl | ⟨row, -, rfl⟩ | rfl
  · refine aboutStaging_eq_false (fun _ => ?_) nofun
    obtain ⟨digit, isDigit, heading⟩ := Break.exists_head?_heading (index + 1) breaks[index]
    change (Break.heading _ _).toList.head? ≠ _
    rw [heading]
    rintro ⟨⟩
    cases isDigit
  · decide
  · refine aboutStaging_eq_false nofun fun _ => ?_
    simp [Message.warn, Break.numbered]
  · decide

theorem aboutStaging_of_speech {message : Message} (speech : Check.Speech message) :
    aboutStaging message = false := by
  cases speech with
  | listed member => exact aboutStaging_of_mem_listing member
  | allClear | attempt => decide
  | mended path =>
      refine aboutStaging_eq_false (fun _ => ?_) nofun
      simp [Message.info]
  | again count =>
      refine aboutStaging_eq_false (fun _ => ?_) nofun
      simp [Message.info]
  | error text => exact aboutStaging_eq_false nofun nofun

theorem filter_aboutStaging_announced {settings : Settings} {refuses : Refusals} {progress : Progress}
    {report : Report} (done : Check.run (.search (searchOf arguments settings)) (.silent refuses)
      (optionsOf arguments) files = .ok (progress, report)) :
    (announced arguments progress).told.filter aboutStaging = [] := by
  have spoken := Check.run_spoken (.search (searchOf arguments settings)) (.silent refuses)
    (optionsOf arguments) files
  rw [done] at spoken
  refine List.filter_eq_nil_iff.mpr (List.forall_mem_cons.mpr ⟨?_, fun message member => ?_⟩)
  · rw [banner]
    split_ifs <;> decide
  · rw [aboutStaging_of_speech (spoken message member)]
    exact Bool.false_ne_true

theorem run?_of_check {words : List String} {arguments : Arguments}
    (asked : Command.ofWords? words = some (.check arguments)) (stager : Stager) (refuses : Refusals)
    (files : FileSystem) :
    run? stager words files refuses = some (check stager refuses arguments files) := by
  rw [run?, asked, Option.map_some]

end Invocation

end Unbroken
