import Mathlib.Tactic.SplitIfs
import Unbroken.FileSystem.Access

/-! How paths are followed, segment by segment: what a longer path does after a shorter one, and how
the purposes for which a path is followed differ. -/

namespace Unbroken

def ProperName (name : String) : Prop :=
  name ≠ "" ∧ name ≠ "." ∧ name ≠ ".." ∧ '/' ∉ name.toList

instance (name : String) : Decidable (ProperName name) :=
  inferInstanceAs (Decidable (_ ∧ _))

section

variable {top : Directory} {purpose : Purpose} {here rest : List String} {segment : String}

theorem walkLeg_skip (skip : segment = "" ∨ segment = ".") :
    walkLeg top purpose here (segment :: rest) = walkLeg top purpose here rest := by
  rw [walkLeg, if_pos skip]

theorem walkLeg_up : walkLeg top purpose here (".." :: rest) = walkLeg top purpose here.dropLast rest := by
  rw [walkLeg, if_neg (by decide), if_pos rfl]

theorem walkLeg_refused (ordinary : ¬ (segment = "" ∨ segment = ".") ∧ segment ≠ "..")
    (refused : purpose = .create ∧ rest ≠ [] ∧ rest.all (· == "")) :
    walkLeg top purpose here (segment :: rest) = .ended (.error .isDirectory) := by
  rw [walkLeg, if_neg ordinary.1, if_neg ordinary.2, if_pos refused]

theorem walkLeg_name (ordinary : ¬ (segment = "" ∨ segment = ".") ∧ segment ≠ "..")
    (allowed : ¬ (purpose = .create ∧ rest ≠ [] ∧ rest.all (· == ""))) :
    walkLeg top purpose here (segment :: rest) =
      match top.at? (here ++ [segment]) with
      | none => .ended (if rest.isEmpty then .ok (.vacant (here ++ [segment])) else .error .notFound)
      | some (.folder _) => walkLeg top purpose (here ++ [segment]) rest
      | some (.file content) =>
        .ended (if rest.isEmpty then .ok (.file (here ++ [segment]) content) else .error .notDirectory)
      | some (.link target) =>
        if purpose = .inspect ∧ rest = [] then .ended (.ok (.link (here ++ [segment]) target))
        else .detour here target rest := by
  rw [walkLeg]
  exact (if_neg ordinary.1).trans ((if_neg ordinary.2).trans (if_neg allowed))

theorem follow_of_ended {result : Except FileError Spot} {legs : Nat} {segments : List String}
    (leg : walkLeg top purpose here segments = .ended result) :
    follow top purpose (legs + 1) here segments = result := by
  rw [follow, leg]

theorem follow_of_detour {location : List String} {target : Path} {legs : Nat}
    {segments : List String} (leg : walkLeg top purpose here segments = .detour location target rest) :
    follow top purpose (legs + 1) here segments =
      follow top purpose legs (if target.isAbsolute then [] else location) (target.segments ++ rest) := by
  rw [follow, leg]

end

theorem Directory.at?_append (directory : Directory) {location : List String} {entries : Directory}
    (found : directory.at? location = some (.folder entries)) (below : List String) :
    directory.at? (location ++ below) = entries.at? below := by
  induction location generalizing directory with
  | nil =>
      cases found
      rfl
  | cons name location ih =>
      rw [at?] at found
      rw [List.cons_append, at?]
      cases first : directory.find? name with
      | none => simp [first] at found
      | some top =>
          rw [first] at found
          cases top with
          | folder lower => exact ih lower found
          | file content | link target => cases location <;> simp at found

theorem Directory.at?_cons_eq_some_iff (directory : Directory) (name : String) (below : List String)
    (entry : Entry) :
    directory.at? (name :: below) = some entry ↔
      (below = [] ∧ directory.find? name = some entry) ∨
        (below ≠ [] ∧ ∃ entries, directory.find? name = some (.folder entries) ∧
          entries.at? below = some entry) := by
  rw [at?]
  cases directory.find? name with
  | none => simp
  | some top =>
      cases top with
      | folder entries =>
          cases below with
          | nil => simp [at?]
          | cons next below => simp
      | file content | link target => cases below <;> simp

def Entry.at? : Entry → List String → Option Entry
  | .folder entries, names => entries.at? names
  | entry, [] => some entry
  | _, _ :: _ => none

theorem Directory.at?_cons_of_none {directory : Directory} {name : String}
    (absent : directory.find? name = none) (below : List String) : directory.at? (name :: below) = none := by
  rw [at?, absent]

theorem Directory.at?_cons_cons_iff {others : Directory} {name : String} {found : Entry} (entry : Entry)
    (fresh : others.find? name = none) (first : String) (below : List String) :
    (cons name entry others).at? (first :: below) = some found ↔
      (name = first ∧ entry.at? below = some found) ∨ others.at? (first :: below) = some found := by
  by_cases same : name = first
  · subst same
    rw [at?, find?_cons_self, at?_cons_of_none fresh]
    cases entry with
    | folder inner => simp [Entry.at?]
    | file | link => cases below <;> simp [Entry.at?]
  · rw [at?, at?, find?_cons_of_ne same]
    simp [same]

theorem Directory.at?_cons_of_folder {directory entries : Directory} {name : String}
    (found : directory.find? name = some (.folder entries)) (below : List String) :
    directory.at? (name :: below) = entries.at? below := by
  rw [at?, found]

theorem Directory.exists_folder_of_at?_append {directory : Directory} {parent below : List String}
    {entry : Entry} (deeper : below ≠ []) (found : directory.at? (parent ++ below) = some entry) :
    ∃ entries, directory.at? parent = some (.folder entries) := by
  induction parent generalizing directory with
  | nil => exact ⟨directory, rfl⟩
  | cons name parent ih =>
      rcases (directory.at?_cons_eq_some_iff _ _ _).mp found with ⟨same, -⟩ | ⟨-, inner, first, onward⟩
      · exact absurd same (by simp [deeper])
      · rw [at?_cons_of_folder first]
        exact ih onward

def Leg.goOn (top : Directory) (more : List String) : Leg → Leg
  | .ended (.ok (.folder location)) => walkLeg top .access location more
  | .ended (.ok (.file _ _)) => .ended (.error .notDirectory)
  | .ended (.ok (.link location target)) => .ended (.ok (.link location target))
  | .ended (.ok (.vacant _)) => .ended (.error .notFound)
  | .ended (.error error) => .ended (.error error)
  | .detour location target rest => .detour location target (rest ++ more)

theorem walkLeg_append (top : Directory) (here segments : List String) {more : List String}
    (nonempty : more ≠ []) :
    walkLeg top .access here (segments ++ more) = (walkLeg top .access here segments).goOn top more := by
  induction segments generalizing here with
  | nil => rfl
  | cons segment rest ih =>
      rw [List.cons_append]
      by_cases skip : segment = "" ∨ segment = "."
      · rw [walkLeg_skip skip, walkLeg_skip skip, ih]
      by_cases up : segment = ".."
      · subst up
        rw [walkLeg_up, walkLeg_up, ih]
      rw [walkLeg_name ⟨skip, up⟩ (by simp), walkLeg_name ⟨skip, up⟩ (by simp)]
      cases top.at? (here ++ [segment]) with
      | none => cases rest <;> simp [nonempty, Leg.goOn]
      | some entry =>
          cases entry with
          | folder entries => exact ih _
          | file content => cases rest <;> simp [nonempty, Leg.goOn]
          | link target => simp [Leg.goOn]

theorem follow_separator {top : Directory} {legs : Nat} {here segments location : List String}
    (found : follow top .access legs here (segments ++ [""]) = .ok (.folder location)) :
    follow top .access legs here segments = .ok (.folder location) := by
  induction legs generalizing here segments with
  | zero => cases found
  | succ legs ih =>
      have longer := walkLeg_append top here segments (List.cons_ne_nil "" [])
      cases leg : walkLeg top .access here segments with
      | detour there target rest =>
          rw [leg] at longer
          rw [follow_of_detour longer, ← List.append_assoc] at found
          rw [follow_of_detour leg]
          exact ih found
      | ended result =>
          rw [follow_of_ended leg]
          rw [leg] at longer
          rw [follow, longer] at found
          cases result with
          | error error => cases found
          | ok spot =>
              cases spot with
              | folder there =>
                  rw [Leg.goOn, walkLeg_skip (Or.inl rfl), walkLeg] at found
                  exact found
              | file | link | vacant => cases found

theorem follow_append {top : Directory} {legs : Nat} {here segments location more : List String}
    {result : Except FileError Spot} (nonempty : more ≠ [])
    (found : follow top .access legs here segments = .ok (.folder location))
    (onward : walkLeg top .access location more = .ended result) :
    follow top .access legs here (segments ++ more) = result := by
  induction legs generalizing here segments with
  | zero => cases found
  | succ legs ih =>
      have longer := walkLeg_append top here segments nonempty
      cases leg : walkLeg top .access here segments with
      | detour there target rest =>
          rw [leg] at longer
          rw [follow_of_detour leg] at found
          rw [follow_of_detour longer, ← List.append_assoc]
          exact ih found
      | ended last =>
          rw [follow_of_ended leg] at found
          subst found
          rw [leg, Leg.goOn, onward] at longer
          exact follow_of_ended longer

theorem walkLeg_names {top entries : Directory} {location names : List String} {content : ByteArray}
    (base : top.at? location = some (.folder entries)) (found : entries.at? names = some (.file content))
    (proper : ∀ name ∈ names, ProperName name) :
    walkLeg top .access location names = .ended (.ok (.file (location ++ names) content)) := by
  induction names generalizing location entries with
  | nil => cases found
  | cons name below ih =>
      obtain ⟨nonempty, here, parent, -⟩ := proper name List.mem_cons_self
      have step := top.at?_append base [name]
      rw [walkLeg_name ⟨by simp [nonempty, here], parent⟩ (by simp)]
      rcases (entries.at?_cons_eq_some_iff _ _ _).mp found with ⟨rfl, last⟩ | ⟨-, lower, first, onward⟩
      · have there : top.at? (location ++ [name]) = some (.file content) := by
          simp [step, Directory.at?, last]
        simp [there]
      · have there : top.at? (location ++ [name]) = some (.folder lower) := by
          simp [step, Directory.at?, first]
        have rest := ih there onward fun other member => proper other (List.mem_cons_of_mem _ member)
        simpa [there] using rest

theorem walkLeg_inspect (top : Directory) (here segments : List String) :
    walkLeg top .inspect here segments = walkLeg top .access here segments ∨
      ∃ location target, walkLeg top .inspect here segments = .ended (.ok (.link location target)) := by
  induction segments generalizing here with
  | nil => exact Or.inl rfl
  | cons segment rest ih =>
      by_cases skip : segment = "" ∨ segment = "."
      · rw [walkLeg_skip skip, walkLeg_skip skip]
        exact ih here
      by_cases up : segment = ".."
      · subst up
        rw [walkLeg_up, walkLeg_up]
        exact ih here.dropLast
      rw [walkLeg_name ⟨skip, up⟩ (by simp), walkLeg_name ⟨skip, up⟩ (by simp)]
      cases top.at? (here ++ [segment]) with
      | none => exact Or.inl rfl
      | some entry =>
          cases entry with
          | folder entries => exact ih _
          | file content => exact Or.inl rfl
          | link target =>
              by_cases last : rest = []
              · exact Or.inr ⟨here ++ [segment], target, by simp [last]⟩
              · simp [last]

theorem follow_access_of_inspect {top : Directory} {legs : Nat} {here segments : List String}
    {spot : Spot} (found : follow top .inspect legs here segments = .ok spot)
    (direct : ∀ location target, spot ≠ .link location target) :
    follow top .access legs here segments = .ok spot := by
  induction legs generalizing here segments with
  | zero => cases found
  | succ legs ih =>
      rcases walkLeg_inspect top here segments with same | ⟨location, target, link⟩
      · cases leg : walkLeg top .access here segments with
        | ended result =>
            rw [follow_of_ended (same.trans leg)] at found
            rw [follow_of_ended leg, found]
        | detour there target rest =>
            rw [follow_of_detour (same.trans leg)] at found
            rw [follow_of_detour leg]
            exact ih found
      · rw [follow_of_ended link] at found
        cases found
        exact absurd rfl (direct location target)

theorem follow_inspect_of_access {top : Directory} {legs : Nat} {here segments : List String}
    {spot : Spot} (found : follow top .access legs here segments = .ok spot) :
    follow top .inspect legs here segments = .ok spot ∨
      ∃ location target, follow top .inspect legs here segments = .ok (.link location target) := by
  induction legs generalizing here segments with
  | zero => cases found
  | succ legs ih =>
      rcases walkLeg_inspect top here segments with same | ⟨location, target, link⟩
      · cases leg : walkLeg top .access here segments with
        | ended result =>
            rw [follow_of_ended leg] at found
            rw [follow_of_ended (same.trans leg)]
            exact Or.inl found
        | detour there target rest =>
            rw [follow_of_detour leg] at found
            rw [follow_of_detour (same.trans leg)]
            exact ih found
      · exact Or.inr ⟨location, target, follow_of_ended link⟩

theorem walkLeg_create (top : Directory) (here segments : List String) :
    walkLeg top .create here segments = walkLeg top .access here segments ∨
      segments.getLast? = some "" := by
  induction segments generalizing here with
  | nil => exact Or.inl rfl
  | cons segment rest ih =>
      have later : rest.getLast? = some "" → (segment :: rest).getLast? = some "" := by
        intro last
        cases rest with
        | nil => cases last
        | cons next rest => rwa [List.getLast?_cons_cons]
      by_cases skip : segment = "" ∨ segment = "."
      · rw [walkLeg_skip skip, walkLeg_skip skip]
        exact (ih here).imp_right later
      by_cases up : segment = ".."
      · subst up
        rw [walkLeg_up, walkLeg_up]
        exact (ih here.dropLast).imp_right later
      by_cases refused : rest ≠ [] ∧ rest.all (· == "")
      · refine Or.inr (later ?_)
        rw [List.getLast?_eq_some_getLast refused.1]
        have blank := List.all_eq_true.mp refused.2 _ (List.getLast_mem refused.1)
        simpa using blank
      rw [walkLeg_name ⟨skip, up⟩ (by simpa using refused), walkLeg_name ⟨skip, up⟩ (by simp)]
      cases top.at? (here ++ [segment]) with
      | none => exact Or.inl rfl
      | some entry =>
          cases entry with
          | folder entries => exact (ih _).imp_right later
          | file content | link target => simp

theorem follow_separator_ne_file {top : Directory} {legs : Nat} {here segments location : List String}
    {content : ByteArray} (last : segments.getLast? = some "") :
    follow top .access legs here segments ≠ .ok (.file location content) := by
  obtain ⟨front, rfl⟩ := List.getLast?_eq_some_iff.mp last
  clear last
  induction legs generalizing here front with
  | zero => simp [follow]
  | succ legs ih =>
      have longer := walkLeg_append top here front (List.cons_ne_nil "" [])
      cases leg : walkLeg top .access here front with
      | detour there target rest =>
          rw [leg] at longer
          rw [follow_of_detour longer, ← List.append_assoc]
          exact ih _
      | ended result =>
          rw [follow, longer, leg]
          cases result with
          | error error => simp [Leg.goOn]
          | ok spot =>
              cases spot with
              | folder there => simp [Leg.goOn, walkLeg]
              | file | link | vacant => simp [Leg.goOn]

/-- A file that can be accessed is also found in its place when it is to be written. -/
theorem follow_create {top : Directory} {legs : Nat} {here segments location : List String}
    {content : ByteArray}
    (found : follow top .access legs here segments = .ok (.file location content)) :
    follow top .create legs here segments = .ok (.file location content) := by
  induction legs generalizing here segments with
  | zero => cases found
  | succ legs ih =>
      rcases walkLeg_create top here segments with same | last
      · cases leg : walkLeg top .access here segments with
        | ended result =>
            rw [follow_of_ended leg] at found
            rw [follow_of_ended (same.trans leg), found]
        | detour there target rest =>
            rw [follow_of_detour leg] at found
            rw [follow_of_detour (same.trans leg)]
            exact ih found
      · exact absurd found (follow_separator_ne_file last)

theorem at?_of_walkLeg {top : Directory} {purpose : Purpose} {here segments location : List String}
    {content : ByteArray}
    (found : walkLeg top purpose here segments = .ended (.ok (.file location content))) :
    top.at? location = some (.file content) := by
  induction segments generalizing here with
  | nil => cases found
  | cons segment rest ih =>
      by_cases skip : segment = "" ∨ segment = "."
      · rw [walkLeg_skip skip] at found
        exact ih found
      by_cases up : segment = ".."
      · subst up
        rw [walkLeg_up] at found
        exact ih found
      by_cases refused : purpose = .create ∧ rest ≠ [] ∧ rest.all (· == "")
      · rw [walkLeg_refused ⟨skip, up⟩ refused] at found
        cases found
      rw [walkLeg_name ⟨skip, up⟩ refused] at found
      cases there : top.at? (here ++ [segment]) with
      | none => cases rest <;> simp [there] at found
      | some entry =>
          rw [there] at found
          cases entry with
          | folder entries => exact ih found
          | file known =>
              cases rest with
              | nil =>
                  cases found
                  exact there
              | cons next rest => simp at found
          | link target =>
              simp only at found
              split_ifs at found
              cases found

theorem at?_of_follow {top : Directory} {purpose : Purpose} {legs : Nat}
    {here segments location : List String} {content : ByteArray}
    (found : follow top purpose legs here segments = .ok (.file location content)) :
    top.at? location = some (.file content) := by
  induction legs generalizing here segments with
  | zero => cases found
  | succ legs ih =>
      cases leg : walkLeg top purpose here segments with
      | detour there target rest =>
          rw [follow_of_detour leg] at found
          exact ih found
      | ended result =>
          rw [follow_of_ended leg] at found
          exact at?_of_walkLeg (leg.trans (congrArg Leg.ended found))

namespace FileSystem

variable {files : FileSystem} {path : Path} {location : List String} {content : ByteArray}

theorem at?_of_locate {purpose : Purpose}
    (found : files.locate purpose path = .ok (.file location content)) :
    files.top.at? location = some (.file content) := by
  rw [locate] at found
  split at found
  · cases found
  · exact at?_of_follow found

theorem locate_access_of_inspect {spot : Spot} (found : files.locate .inspect path = .ok spot)
    (direct : ∀ location target, spot ≠ .link location target) :
    files.locate .access path = .ok spot := by
  rw [locate] at found ⊢
  split at found
  next => cases found
  next given =>
    rw [if_neg given]
    exact follow_access_of_inspect found direct

theorem locate_inspect_of_access {spot : Spot} (found : files.locate .access path = .ok spot) :
    files.locate .inspect path = .ok spot ∨
      ∃ place target, files.locate .inspect path = .ok (.link place target) := by
  rw [locate] at found ⊢
  split at found
  next => cases found
  next given =>
    rw [if_neg given]
    exact follow_inspect_of_access found

theorem locate_create (found : files.locate .access path = .ok (.file location content)) :
    files.locate .create path = .ok (.file location content) := by
  rw [locate] at found ⊢
  split at found
  next => cases found
  next given =>
    rw [if_neg given]
    exact follow_create found

end FileSystem

end Unbroken
