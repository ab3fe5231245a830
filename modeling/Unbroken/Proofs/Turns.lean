import Unbroken.Proofs.Grouped
import Unbroken.Proofs.Seam

/-! Breaks that are mended in a text other than the one they were found in. Each has its turn: it is
passed over if its markers are not there, and otherwise puts its own message between them, whatever
stood there. The visible letters stay just if that was the same message. -/

namespace Unbroken

def mendTurns (turns : List Break) (text : List Char) : List Char :=
  (turns.foldl Mended.step { template := Template.ofText text, count := 0 }).template.text

namespace Mended

/-- Whether every break that finds its markers, when its turn comes, finds between them the visible letters
of its own message. -/
def Faithful (mended : Mended) : List Break → Prop
  | [] => True
  | broken :: later =>
    (∀ body ∈ broken.bodyIn? mended.template.lines, solid body = solid broken.text) ∧
      (mended.step broken).Faithful later

instance decidableFaithful (mended : Mended) : (turns : List Break) → Decidable (mended.Faithful turns)
  | [] => inferInstanceAs (Decidable True)
  | broken :: later =>
    have := (mended.step broken).decidableFaithful later
    inferInstanceAs (Decidable (_ ∧ _))

theorem solid_step_iff {broken : Break} (proper : broken.Proper) (mended : Mended) :
    solid (mended.step broken).template.text = solid mended.template.text ↔
      ∀ body ∈ broken.bodyIn? mended.template.lines, solid body = solid broken.text := by
  rcases unite?_cases proper mended.template.lines with ⟨missing, nothing, -⟩ | ⟨gap, united, body, -⟩
  · simp [step_of_none missing, nothing]
  · rw [step_of_some united, body]
    simp only [Template.text, gap.joinLines_united, gap.joinLines_eq, solid_append, Option.mem_def,
      Option.some.injEq, forall_eq', List.append_cancel_right_eq, List.append_cancel_left_eq]
    exact eq_comm

theorem faithful_iff {turns : List Break} (proper : ∀ broken ∈ turns, broken.Proper) (mended : Mended) :
    mended.Faithful turns ↔ ∀ count, solid ((turns.take count).foldl step mended).template.text =
      solid mended.template.text := by
  induction turns generalizing mended with
  | nil => simp [Faithful]
  | cons broken later ih =>
      obtain ⟨first, others⟩ := List.forall_mem_cons.mp proper
      rw [Faithful, ih others, ← solid_step_iff first]
      constructor
      · rintro ⟨here, behind⟩ count
        cases count with
        | zero => rfl
        | succ count => exact (behind count).trans here
      · intro stays
        -- Counting one turn tells of the first; counting one more each time, of the others.
        have here := stays 1
        refine ⟨here, ?_⟩
        intro count
        exact (stays (count + 1)).trans here.symm

theorem template_foldl_step_congr (turns : List Break) {first second : Mended}
    (same : first.template = second.template) :
    (turns.foldl step first).template = (turns.foldl step second).template := by
  induction turns generalizing first second with
  | nil => exact same
  | cons broken later ih =>
      apply ih
      rw [step, step, same]
      cases unite? broken second.template.lines with
      | none => exact same
      | some lines => rfl

end Mended

theorem mendTurns_nil (text : List Char) : mendTurns [] text = text :=
  joinLines_splitLines text

theorem mendTurns_append {turns : List Break} (proper : ∀ broken ∈ turns, broken.Proper)
    (more : List Break) (text : List Char) :
    mendTurns (turns ++ more) text = mendTurns more (mendTurns turns text) := by
  have lined : Lined (turns.foldl Mended.step
      { template := Template.ofText text, count := 0 }).template.lines := by
    have mends := (Mended.mends_foldl { template := Template.ofText text, count := 0 } turns).1
    apply mends.lined _ (lined_splitLines text)
    intro broken member
    exact (proper broken (mends.sublist.subset member)).flat
  rw [mendTurns, List.foldl_append, mendTurns]
  refine congrArg Template.text (Mended.template_foldl_step_congr more ?_)
  exact congrArg Template.mk lined.splitLines_joinLines.symm

def FaithfulIn (text : List Char) (turns : List Break) : Prop :=
  Mended.Faithful { template := Template.ofText text, count := 0 } turns

instance (text : List Char) (turns : List Break) : Decidable (FaithfulIn text turns) :=
  Mended.decidableFaithful _ turns

theorem faithfulIn_iff {turns : List Break} (proper : ∀ broken ∈ turns, broken.Proper)
    (text : List Char) :
    FaithfulIn text turns ↔ ∀ count, solid (mendTurns (turns.take count) text) = solid text := by
  have whole : (Template.ofText text).text = text := joinLines_splitLines text
  rw [FaithfulIn, Mended.faithful_iff proper]
  simp only [mendTurns, whole]

/-! Groups of breaks, each mended in the file that it leads to. -/

theorem mend_of_not_changed {template : Template} {breaks : List Break}
    (idle : ¬ (mend template breaks).changed = true) : (mend template breaks).template = template := by
  rw [Mended.changed, decide_eq_true_eq] at idle
  rw [mend] at idle ⊢
  rcases Mended.foldl_step_cases { template := template, count := 0 } (bottomUp breaks) with
    ⟨-, same⟩ | ⟨-, more⟩
  · rw [same]
  · exact absurd more idle

namespace Check

variable {files : FileSystem} {all : List (List Break)} {location : List String}

theorem files_mendGroup (sound : files.top.Sound) {broken : Break} {others : List Break}
    {text : List Char} (holds : Holds files broken.file text location)
    {edits : List String → List Char → List Char} {pass : Pass}
    (here : pass.progress.files = files.editedBy edits) :
    (mendGroup .quiet pass (broken :: others)).progress.files = files.editedBy
      (Function.update edits location (mendTurns (bottomUp (broken :: others)) ∘ edits location)) := by
  have mends : (mend (Template.ofText (edits location text)) (broken :: others)).template.text =
      mendTurns (bottomUp (broken :: others)) (edits location text) := rfl
  rw [mendGroup, Surroundings.refuses_quiet, here, mendFile_editedBy sound holds edits _ mends]
  by_cases changed : (mend (Template.ofText (edits location text)) (broken :: others)).changed = true
  · rw [if_pos changed]
    rfl
  · rw [if_neg changed]
    refine here.trans (FileSystem.editedBy_congr sound fun other content found => ?_)
    by_cases same : other = location
    · subst same
      rw [holds.text_eq found, Function.update_self, Function.comp_apply, ← mends,
        mend_of_not_changed changed]
      exact (joinLines_splitLines _).symm
    · rw [Function.update_of_ne same]

def groupsOf (files : FileSystem) (all : List (List Break)) (location : List String) :
    List (List Break) :=
  all.filter fun group => group.head?.bind (fun broken => files.place? broken.file) = some location

def turnsOf (files : FileSystem) (all : List (List Break)) (location : List String) : List Break :=
  (groupsOf files all location).flatMap bottomUp

theorem turnsOf_cons_of_eq {broken : Break} {others : List Break}
    (place : files.place? broken.file = some location) (later : List (List Break)) :
    turnsOf files ((broken :: others) :: later) location =
      bottomUp (broken :: others) ++ turnsOf files later location := by
  simp [turnsOf, groupsOf, place]

theorem turnsOf_cons_of_ne {broken : Break} {others : List Break}
    (place : files.place? broken.file ≠ some location) (later : List (List Break)) :
    turnsOf files ((broken :: others) :: later) location = turnsOf files later location := by
  simp [turnsOf, groupsOf, place]

theorem exists_leader_of_mem_groupsOf {group : List Break} (chosen : group ∈ groupsOf files all location) :
    group ∈ all ∧ ∃ broken ∈ group, files.place? broken.file = some location := by
  rw [groupsOf, List.mem_filter, decide_eq_true_eq] at chosen
  obtain ⟨broken, first, there⟩ := Option.bind_eq_some_iff.mp chosen.2
  exact ⟨chosen.1, broken, List.mem_of_mem_head? first, there⟩

theorem mem_of_mem_turnsOf {broken : Break} (turn : broken ∈ turnsOf files all location) :
    broken ∈ all.flatten := by
  obtain ⟨group, chosen, inside⟩ := List.mem_flatMap.mp turn
  have member := (exists_leader_of_mem_groupsOf chosen).1
  exact List.mem_flatten.mpr ⟨group, member, List.mem_mergeSort.mp inside⟩

theorem mendGroup_of_unreadable {pass : Pass} {broken : Break}
    (unreadable : (pass.progress.files.read broken.file).toOption = none) (others : List Break) :
    mendGroup .quiet pass (broken :: others) = pass := by
  rcases mendGroup_cases .quiet pass (broken :: others) with
    idle | ⟨first, later, files, same, -, mended, -⟩
  · exact idle
  · cases same
    exact absurd unreadable (FileSystem.toOption_read_ne_none_of_mendFile mended)

/-- Groups of breaks, wherever they were found, have their turns in the files that they lead to. -/
theorem files_foldl_turns (sound : files.top.Sound)
    (proper : ∀ group ∈ all, ∀ broken ∈ group, broken.Proper)
    {edits : List String → List Char → List Char} {pass : Pass}
    (here : pass.progress.files = files.editedBy edits) :
    (all.foldl (mendGroup .quiet) pass).progress.files =
      files.editedBy fun location text => mendTurns (turnsOf files all location) (edits location text) := by
  -- The files are told from the first ones throughout: a group adds its turns to the edit of its own
  -- file, and what a path leads to does not change with the texts.
  induction all generalizing edits pass with
  | nil =>
      rw [List.foldl_nil, here]
      congr 1
      funext location text
      exact (mendTurns_nil _).symm
  | cons group later ih =>
      obtain ⟨first, rest⟩ := List.forall_mem_cons.mp proper
      rw [List.foldl_cons]
      cases group with
      | nil => exact ih rest here
      | cons broken others =>
          cases given : files.read broken.file with
          | error failed =>
              have unreadable : (files.read broken.file).toOption = none := by
                rw [given]
                rfl
              have still := toOption_read_editedBy_of_none unreadable edits
              rw [← here] at still
              rw [mendGroup_of_unreadable still, ih rest here]
              refine FileSystem.editedBy_congr sound fun location text found => ?_
              rw [turnsOf_cons_of_ne]
              intro place
              rw [(Holds.of_at? found place).read] at given
              cases given
          | ok text =>
              obtain ⟨place, holds⟩ := exists_holds_of_read given
              rw [ih rest (files_mendGroup sound holds here)]
              congr 1
              funext location text
              by_cases same : location = place
              · subst same
                have sorted : ∀ other ∈ bottomUp (broken :: others), other.Proper :=
                  fun other member => first other (List.mem_mergeSort.mp member)
                rw [Function.update_self, turnsOf_cons_of_eq holds.place, mendTurns_append sorted]
                rfl
              · rw [Function.update_of_ne same, turnsOf_cons_of_ne]
                rw [holds.place]
                exact fun known => same (Option.some.inj known).symm

theorem turnsOf_groups {breaks : List Break} {path : Path}
    (sorted : breaks.Pairwise fun left right => (Break.order left right).isLE = true)
    (told : ∀ broken ∈ breaks,
      path.same broken.file = true ↔ files.place? broken.file = some location) :
    turnsOf files (groups breaks) location =
      bottomUp (breaks.filter fun broken => path.same broken.file) := by
  have own : ∀ group ∈ groupsOf files (groups breaks) location, group ∈ groups breaks ∧
      ∃ broken ∈ group, path.components = broken.file.components := by
    intro group chosen
    obtain ⟨member, broken, inside, there⟩ := exists_leader_of_mem_groupsOf chosen
    have same := (told broken (mem_of_mem_groups member inside)).mpr there
    exact ⟨member, broken, inside, (Path.same_iff _ _).mp same⟩
  have ascending := (groups_ascending sorted).filter fun group =>
    group.head?.bind (fun broken => files.place? broken.file) = some location
  change (groupsOf files (groups breaks) location).Pairwise _ at ascending
  rw [turnsOf]
  -- No two groups are of the same path, so one of them leads there at most.
  cases chosen : groupsOf files (groups breaks) location with
  | nil =>
      suffices nothing : breaks.filter (fun broken => path.same broken.file) = [] by
        rw [nothing, bottomUp, List.mergeSort_nil]
        rfl
      refine List.filter_eq_nil_iff.mpr fun broken found same => ?_
      rw [← flatten_groups breaks] at found
      obtain ⟨group, member, inside⟩ := List.mem_flatten.mp found
      obtain ⟨leader, others, rfl⟩ := List.exists_cons_of_ne_nil (List.ne_nil_of_mem_splitBy member)
      have alike := components_eq_of_mem_groups member broken inside leader List.mem_cons_self
      have leads := (told leader (mem_of_mem_groups member List.mem_cons_self)).mp
        ((Path.same_iff _ _).mpr (((Path.same_iff _ _).mp same).trans alike))
      have passed := List.filter_eq_nil_iff.mp chosen _ member
      simp [leads] at passed
  | cons group rest =>
      rw [chosen] at own ascending
      obtain ⟨member, broken, inside, same⟩ := own group List.mem_cons_self
      have alone : rest = [] := by
        refine List.eq_nil_iff_forall_not_mem.mpr fun other there => ?_
        obtain ⟨-, second, behind, alike⟩ := own other (List.mem_cons_of_mem _ there)
        have less := (List.pairwise_cons.mp ascending).1 other there broken inside second behind
        rw [(Path.order_eq_iff _ _).mpr (same.symm.trans alike)] at less
        cases less
      rw [alone, List.flatMap_singleton, eq_filter_of_mem_groups sorted member inside]
      simp only [Path.same, same]

theorem filter_same_breaksIn (path other : Path) (text : List Char) :
    (breaksIn other text).filter (fun broken => path.same broken.file) =
      if path.same other = true then breaksIn other text else [] := by
  split_ifs with same
  · refine List.filter_eq_self.mpr fun broken inside => ?_
    rwa [file_of_mem_breaksIn inside]
  · refine List.filter_eq_nil_iff.mpr fun broken inside => ?_
    rwa [file_of_mem_breaksIn inside]

theorem filter_same_surveyed (files : FileSystem) (paths : List Path) (path : Path) :
    (paths.filterMap fun other => (files.breaksOf other).toOption).flatten.filter
      (fun broken => path.same broken.file) =
        ((paths.filter path.same).filterMap fun other => (files.breaksOf other).toOption).flatten := by
  induction paths with
  | nil => rfl
  | cons other later ih =>
      rw [List.filterMap_cons, List.filter_cons, toOption_breaksOf]
      cases given : (files.read other).toOption with
      | none =>
          rw [Option.map_none, ih]
          split_ifs
          · rw [List.filterMap_cons, toOption_breaksOf, given, Option.map_none]
          · rfl
      | some text =>
          rw [Option.map_some, List.flatten_cons, List.filter_append, ih, filter_same_breaksIn]
          split_ifs
          · rw [List.filterMap_cons, toOption_breaksOf, given, Option.map_some, List.flatten_cons]
          · rfl

theorem breaks_sorted (files : FileSystem) (paths : List Path) :
    (surveyFiles files paths).breaks.Pairwise fun left right => (Break.order left right).isLE = true :=
  Break.sorted_pairwise _

theorem proper_of_mem_breaks {paths : List Path} {broken : Break}
    (member : broken ∈ (surveyFiles files paths).breaks) : broken.Proper := by
  obtain ⟨path, -, text, -, inside⟩ := (mem_breaks_iff files paths broken).mp member
  exact proper_of_mem_breaksIn inside

end Check

end Unbroken
