import Mathlib.Tactic.SplitIfs
import Unbroken.Check

/-! What lasts through a check. Whatever the files, the source and what goes on around it, a check only
tells messages of a few kinds and mends files, so that a property that neither ends holds of how far it
comes, whether it is completed or halted. -/

namespace Unbroken

theorem Break.exists_head?_heading (position : Nat) (broken : Break) :
    ∃ digit, digit.isDigit = true ∧ (broken.heading position).toList.head? = some digit := by
  obtain ⟨digit, more, digits⟩ := List.exists_cons_of_ne_nil (@Nat.toDigits_ne_nil position 10)
  refine ⟨digit, Nat.isDigit_of_mem_toDigits (by decide) (Nat.le_refl 10) (digits ▸ List.mem_cons_self), ?_⟩
  simp [heading, digits]

namespace Check

/-- The messages of a check. -/
inductive Speech : Message → Prop
  | listed {breaks message} : message ∈ listing breaks → Speech message
  | allClear : Speech allClear
  | attempt : Speech (.info "Attempting to auto-fix...\n")
  | mended (path : Path) : Speech (.info ("Fixed: " ++ path.spelling))
  | again (count : Nat) : Speech (.info
      ("\nAuto-fixed " ++ toString count ++ " file(s). Re-running check...\n"))
  | error (text : String) : Speech (.error text)

def reached {Result : Type} (progress : Result → Progress) : Except Halted Result → Progress
  | .ok result => progress result
  | .error halted => halted.progress

structure Lasting (around : Surroundings) (Held : Progress → Prop) : Prop where
  told : ∀ progress message, Speech message → Held progress → Held (progress.tell around message)
  mended : ∀ progress path breaks after, Held progress →
    progress.files.mendFile path breaks = .ok (some after) → Held { progress with files := after }

namespace Lasting

variable {around : Surroundings} {Held : Progress → Prop} (lasting : Lasting around Held)

include lasting

theorem tellAll {progress : Progress} (held : Held progress) {messages : List Message}
    (speech : ∀ message ∈ messages, Speech message) : Held (progress.tellAll around messages) := by
  induction messages generalizing progress with
  | nil => exact held
  | cons message later ih =>
      obtain ⟨first, rest⟩ := List.forall_mem_cons.mp speech
      exact ih (lasting.told progress message first held) rest

theorem mendGroup {pass : Pass} (held : Held pass.progress) (group : List Break) :
    Held (mendGroup around pass group).progress := by
  rcases mendGroup_cases around pass group with idle | ⟨broken, others, files, -, -, mended, done⟩
  · rw [idle]
    exact held
  · rw [done]
    exact lasting.told _ _ (.mended broken.file) (lasting.mended _ _ _ files held mended)

theorem mendFiles {progress : Progress} (held : Held progress) (breaks : List Break) :
    Held (mendFiles around progress breaks).progress := by
  rw [Check.mendFiles]
  generalize groups breaks = all
  have start : Held (Pass.mk progress []).progress := held
  generalize Pass.mk progress [] = pass at start
  induction all generalizing pass with
  | nil => exact start
  | cons group later ih => exact ih _ (lasting.mendGroup start group)

theorem mendPasses (source : Source) (left : Nat) {mending : Mending} (held : Held mending.progress) :
    Held (reached Mending.progress (mendPasses source around left mending)) := by
  induction left generalizing mending with
  | zero => exact held
  | succ left ih =>
      have pass := lasting.mendFiles held mending.remaining
      have told := lasting.told _ _
        (.again (Check.mendFiles around mending.progress mending.remaining).mended.length) pass
      rw [Check.mendPasses]
      dsimp only
      split_ifs
      · exact pass
      · split
        · exact told
        · split_ifs
          · exact told
          · exact ih (lasting.tellAll told fun _ => .listed)

theorem failed {progress : Progress} (held : Held progress) (reason : String) :
    Held (progress.tellAll around [.error reason, .error advice]) :=
  lasting.tellAll held
    (List.forall_mem_cons.mpr ⟨.error reason, List.forall_mem_singleton.mpr (.error advice)⟩)

theorem conclude (first : Overview) {result : Except Halted Mending}
    (held : Held (reached Mending.progress result)) :
    Held (reached Prod.fst (result.map (conclude around first))) := by
  cases result with
  | error halted => exact held
  | ok mending =>
      change Held (Check.conclude around first mending).1
      rw [Check.conclude]
      split_ifs
      · exact lasting.told _ _ .allClear held
      · exact lasting.failed held _

theorem run (source : Source) (options : Options) {files : FileSystem}
    (start : Held { files := files, told := [] }) :
    Held (reached Prod.fst (run source around options files)) := by
  rw [Check.run]
  dsimp only
  split
  · exact start
  next paths _ =>
    have listed := lasting.tellAll start
      fun message (member : message ∈ listing (surveyFiles files paths).breaks) => .listed member
    split_ifs
    · exact lasting.told _ _ .allClear start
    · apply lasting.conclude
      apply lasting.mendPasses
      exact lasting.told _ _ .attempt listed
    · exact lasting.failed listed _

end Lasting

def Spoken (progress : Progress) : Prop :=
  ∀ message ∈ progress.told, Speech message

theorem lasting_spoken (around : Surroundings) : Lasting around Spoken where
  told progress message speech spoken := by
    intro told member
    rcases List.mem_append.mp member with earlier | last
    · exact spoken told earlier
    · rwa [List.mem_singleton.mp last]
  mended _ _ _ _ spoken _ := spoken

theorem run_spoken (source : Source) (around : Surroundings) (options : Options) (files : FileSystem) :
    Spoken (reached Prod.fst (run source around options files)) :=
  (lasting_spoken around).run source options fun _ member => absurd member List.not_mem_nil

end Check

end Unbroken
