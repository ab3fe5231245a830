import Unbroken.Text.Blank
import Unbroken.Proofs.Text.FirstCut
import Unbroken.Proofs.Text.LineSplit

/-! What spacing a text singly does to it: letter by letter, to the patterns that stand in it, and
to what remains when blanks do not count. -/

namespace Unbroken

def squeezed : (inRun : Bool) → List Char → List Char
  | _, [] => []
  | inRun, letter :: rest =>
    if isBlank letter then if inRun then squeezed true rest else ' ' :: squeezed true rest
    else letter :: squeezed false rest

theorem squeezed_cons_of_not_blank {letter : Char} (visible : isBlank letter = false) (inRun : Bool)
    (rest : List Char) : squeezed inRun (letter :: rest) = letter :: squeezed false rest := by
  simp [squeezed, visible]

theorem squeezed_true_cons_of_blank {letter : Char} (blank : isBlank letter = true)
    (rest : List Char) : squeezed true (letter :: rest) = squeezed true rest := by
  simp [squeezed, blank]

theorem squeezed_false_cons_of_blank {letter : Char} (blank : isBlank letter = true)
    (rest : List Char) : squeezed false (letter :: rest) = ' ' :: squeezed true rest := by
  simp [squeezed, blank]

theorem squeezed_append_cons {letter : Char} (visible : isBlank letter = false) (inRun : Bool)
    (before rest : List Char) :
    squeezed inRun (before ++ letter :: rest) =
      squeezed inRun before ++ letter :: squeezed false rest := by
  induction before generalizing inRun with
  | nil => simp [squeezed, visible]
  | cons head before ih =>
      by_cases blank : isBlank head
      · cases inRun <;> simp [squeezed, blank, ih]
      · simp [squeezed, blank, ih]

theorem trimEnd_cons (letter : Char) (rest : List Char) :
    trimEnd (letter :: rest) =
      if isBlank letter ∧ trimEnd rest = [] then [] else letter :: trimEnd rest := by
  simp only [trimEnd, List.reverse_cons, List.dropWhile_append, List.reverse_eq_nil_iff]
  by_cases nothing : rest.reverse.dropWhile isBlank = []
  · by_cases blank : isBlank letter <;> simp [nothing, blank]
  · simp [nothing]

theorem trimEnd_cons_of_not_blank {letter : Char} (visible : isBlank letter = false)
    (rest : List Char) : trimEnd (letter :: rest) = letter :: trimEnd rest := by
  simp [trimEnd_cons, visible]

theorem trimEnd_append_cons {letter : Char} (visible : isBlank letter = false)
    (before rest : List Char) :
    trimEnd (before ++ letter :: rest) = before ++ letter :: trimEnd rest := by
  induction before with
  | nil => exact trimEnd_cons_of_not_blank visible rest
  | cons head before ih => simp [trimEnd_cons, ih]

theorem trimEnd_starts (text : List Char) : trimEnd text <+: text := by
  rw [trimEnd, ← List.reverse_suffix, List.reverse_reverse]
  exact List.dropWhile_suffix isBlank

theorem words_append_cons_of_blank {letter : Char} (blank : isBlank letter = true)
    (before rest : List Char) : words (before ++ letter :: rest) = words before ++ words rest := by
  simp only [words, pieces_eq_splitOnP, List.splitOnP_append_cons before rest blank,
    List.filter_append]

theorem words_intercalate_of_blank {left right : Char} (leftBlank : isBlank left = true)
    (rightBlank : isBlank right = true) (parts : List (List Char)) :
    words ([left].intercalate parts) = words ([right].intercalate parts) := by
  induction parts with
  | nil => rfl
  | cons part others ih =>
      cases others with
      | nil => simp
      | cons next others =>
          simp only [List.intercalate_cons_cons, List.append_assoc, List.singleton_append,
            words_append_cons_of_blank leftBlank, words_append_cons_of_blank rightBlank, ih]

theorem singleSpaced_intercalate_space (parts : List (List Char)) :
    singleSpaced ([' '].intercalate parts) = singleSpaced (joinLines parts) := by
  rw [singleSpaced, words_intercalate_of_blank (by decide) (by decide : isBlank '\n' = true)]
  rfl

theorem word_of_mem_words {text word : List Char} (member : word ∈ words text) :
    word ≠ [] ∧ ∀ letter ∈ word, isBlank letter = false := by
  obtain ⟨piece, nonempty⟩ := List.mem_filter.mp member
  exact ⟨by simpa using nonempty, not_cuts_of_mem_pieces piece⟩

private theorem intercalate_eq_nil_of_words (text : List Char) :
    [' '].intercalate (words text) = [] ↔ words text = [] := by
  constructor
  · intro nothing
    cases found : words text with
    | nil => rfl
    | cons word others =>
        have member : word ∈ words text := by simp [found]
        have nonempty := (word_of_mem_words member).1
        cases others <;> simp_all [List.intercalate_cons_cons]
  · intro nothing
    simp [nothing]

/-- The induction goes over both states of `squeezed` at once: within a run of blanks the words are
still to come, and outside the first piece continues a word. -/
private theorem trimEnd_squeezed (text : List Char) :
    trimEnd (squeezed true text) = [' '].intercalate (words text) ∧
      ∀ first others, pieces isBlank text = first :: others →
        trimEnd (squeezed false text) =
          [' '].intercalate (first :: others.filter fun piece => !piece.isEmpty) := by
  induction text with
  | nil =>
      refine ⟨rfl, ?_⟩
      intro first others split
      obtain ⟨rfl, rfl⟩ := List.cons.inj split
      rfl
  | cons letter rest ih =>
      obtain ⟨inside, outside⟩ := ih
      obtain ⟨head, tail, split⟩ := List.exists_cons_of_ne_nil (pieces_ne_nil isBlank rest)
      by_cases blank : isBlank letter
      · have same : words (letter :: rest) = words rest := words_append_cons_of_blank blank [] rest
        refine ⟨by rw [squeezed_true_cons_of_blank blank, same, inside], ?_⟩
        intro first others parts
        simp only [pieces, blank, if_true, List.cons.injEq] at parts
        obtain ⟨rfl, rfl⟩ := parts
        change _ = [' '].intercalate ([] :: words rest)
        rw [squeezed_false_cons_of_blank blank, trimEnd_cons, inside]
        simp only [intercalate_eq_nil_of_words]
        cases found : words rest with
        | nil => simp [isBlank]
        | cons word words => simp [List.intercalate_cons_cons]
      · have visible : isBlank letter = false := by simpa using blank
        have parts : pieces isBlank (letter :: rest) = (letter :: head) :: tail := by
          simp [pieces, visible, split]
        have written : trimEnd (letter :: squeezed false rest) =
            [' '].intercalate ((letter :: head) :: tail.filter fun piece => !piece.isEmpty) := by
          rw [trimEnd_cons_of_not_blank visible, outside head tail split]
          cases tail.filter fun piece => !piece.isEmpty <;> simp [List.intercalate_cons_cons]
        constructor
        · rw [squeezed_cons_of_not_blank visible, written, words, parts]
          simp
        · intro first others split
          obtain ⟨rfl, rfl⟩ := List.cons.inj (parts.symm.trans split)
          rw [squeezed_cons_of_not_blank visible, written]

theorem singleSpaced_eq (text : List Char) : singleSpaced text = trimEnd (squeezed true text) :=
  (trimEnd_squeezed text).1.symm

theorem singleSpaced_eq_trim (text : List Char) : singleSpaced text = trim (squeezed false text) := by
  have leading : ∀ text, trimStart (squeezed true text) = squeezed true text := by
    intro text
    induction text with
    | nil => rfl
    | cons letter rest ih =>
        by_cases blank : isBlank letter
        · rw [squeezed_true_cons_of_blank blank, ih]
        · simp [squeezed, blank, trimStart]
  rw [singleSpaced_eq, trim]
  cases text with
  | nil => rfl
  | cons letter rest =>
      by_cases blank : isBlank letter
      · have space : isBlank ' ' = true := by decide
        rw [squeezed_true_cons_of_blank blank, squeezed_false_cons_of_blank blank]
        rw [trimStart, List.dropWhile_cons_of_pos space]
        exact congrArg trimEnd (leading rest).symm
      · simp [squeezed, blank, trimStart]

theorem singleSpaced_append_cons {letter : Char} (visible : isBlank letter = false)
    (before rest : List Char) :
    singleSpaced (before ++ letter :: rest) =
      squeezed true before ++ letter :: trimEnd (squeezed false rest) := by
  rw [singleSpaced_eq, squeezed_append_cons visible, trimEnd_append_cons visible]

theorem starts_singleSpaced {word : List Char} (visible : ∀ letter ∈ word, isBlank letter = false)
    (rest : List Char) : word <+: singleSpaced (word ++ rest) := by
  rw [singleSpaced_eq]
  generalize true = inRun
  induction word generalizing inRun with
  | nil => exact List.nil_prefix
  | cons letter word ih =>
      have here := visible letter List.mem_cons_self
      rw [List.cons_append, squeezed_cons_of_not_blank here, trimEnd_cons_of_not_blank here]
      exact List.cons_prefix_cons.mpr
        ⟨rfl, ih (fun other inside => visible other (List.mem_cons_of_mem _ inside)) false⟩

theorem newline_not_mem_squeezed (inRun : Bool) (text : List Char) : '\n' ∉ squeezed inRun text := by
  induction text generalizing inRun with
  | nil => simp [squeezed]
  | cons letter rest ih =>
      by_cases blank : isBlank letter
      · cases inRun <;> simp [squeezed, blank, ih]
      · have other : '\n' ≠ letter := by
          rintro rfl
          exact blank (by decide)
        simp [squeezed, blank, ih, other]

theorem newline_not_mem_singleSpaced (text : List Char) : '\n' ∉ singleSpaced text := by
  rw [singleSpaced_eq]
  exact fun inside => newline_not_mem_squeezed true text ((trimEnd_starts _).subset inside)

/-- Blanks stand only between two letters that are not blank, and there as one space. -/
def SinglySpaced (text : List Char) : Prop :=
  ∀ before blank after, text = before ++ blank :: after → isBlank blank = true →
    blank = ' ' ∧ ∃ front left right behind, before = front ++ [left] ∧ after = right :: behind ∧
      isBlank left = false ∧ isBlank right = false

theorem append_cons_cases {α : Type} {left right before after : List α} {here there : α}
    (same : left ++ here :: right = before ++ there :: after) :
    (left = before ∧ here = there ∧ right = after) ∨
      (∃ more, before = left ++ here :: more ∧ right = more ++ there :: after) ∨
      ∃ more, left = before ++ there :: more ∧ after = more ++ here :: right := by
  rcases List.append_eq_append_iff.mp same with ⟨more, rfl, rest⟩ | ⟨more, rfl, rest⟩
  · cases more with
    | nil => simp_all
    | cons head more =>
        obtain ⟨rfl, rfl⟩ := List.cons.inj rest
        exact Or.inr (Or.inl ⟨more, rfl, rfl⟩)
  · cases more with
    | nil => simp_all
    | cons head more =>
        obtain ⟨rfl, rfl⟩ := List.cons.inj rest
        exact Or.inr (Or.inr ⟨more, rfl, rfl⟩)

theorem singlySpaced_intercalate {words : List (List Char)}
    (whole : ∀ word ∈ words, word ≠ [] ∧ ∀ letter ∈ word, isBlank letter = false) :
    SinglySpaced ([' '].intercalate words) := by
  induction words with
  | nil =>
      intro before blank after parts
      simp at parts
  | cons word others ih =>
      obtain ⟨⟨nonempty, visible⟩, later⟩ := List.forall_mem_cons.mp whole
      intro before blank after parts here
      cases others with
      | nil =>
          have seen := visible blank (by simp_all)
          simp [here] at seen
      | cons next others =>
          rw [List.intercalate_cons_cons, List.append_assoc, List.singleton_append] at parts
          -- The blank is the space behind the first word, or stands behind that space; no word has one.
          rcases append_cons_cases parts with ⟨rfl, rfl, rfl⟩ | ⟨more, rfl, rest⟩ | ⟨more, rfl, -⟩
          · obtain ⟨front, left, rfl⟩ := (List.eq_nil_or_concat' word).resolve_left nonempty
            obtain ⟨right, tail, rfl⟩ := List.exists_cons_of_ne_nil (later next List.mem_cons_self).1
            have begins : ∃ behind, [' '].intercalate ((right :: tail) :: others) = right :: behind := by
              cases others <;> simp [List.intercalate_cons_cons]
            obtain ⟨behind, begins⟩ := begins
            exact ⟨rfl, front, left, right, behind, rfl, begins, visible left (by simp),
              (later _ List.mem_cons_self).2 right List.mem_cons_self⟩
          · obtain ⟨space, front, left, right, behind, rfl, rfl, between⟩ :=
              ih later _ _ _ rest here
            exact ⟨space, word ++ ' ' :: front, left, right, behind, by simp, rfl, between⟩
          · have seen := visible blank (by simp)
            simp [here] at seen

theorem singlySpaced_singleSpaced (text : List Char) : SinglySpaced (singleSpaced text) :=
  singlySpaced_intercalate fun _ => word_of_mem_words

theorem starts_of_starts_squeezed {pattern : List Char} (text more : List Char)
    (visible : ∀ letter ∈ pattern, isBlank letter = false)
    (stands : pattern <+: squeezed false text ++ more) : pattern <+: text ++ more := by
  induction text generalizing pattern with
  | nil => exact stands
  | cons letter rest ih =>
      cases pattern with
      | nil => exact List.nil_prefix
      | cons first others =>
          by_cases blank : isBlank letter
          · rw [squeezed_false_cons_of_blank blank, List.cons_append, List.cons_prefix_cons] at stands
            have seen := visible first List.mem_cons_self
            rw [stands.1] at seen
            exact absurd seen (by decide)
          · rw [squeezed_cons_of_not_blank (by simpa using blank), List.cons_append,
              List.cons_prefix_cons] at stands
            exact List.cons_prefix_cons.mpr ⟨stands.1,
              ih (fun other member => visible other (List.mem_cons_of_mem _ member)) stands.2⟩

theorem cut_squeezed_append {pattern before after : List Char} (nonempty : pattern ≠ [])
    (visible : ∀ letter ∈ pattern, isBlank letter = false)
    (found : cut pattern (before ++ pattern ++ after) = some (before, after)) (inRun : Bool)
    (more : List Char) :
    cut pattern (squeezed inRun before ++ pattern ++ more) =
      some (squeezed inRun before, more) := by
  induction before generalizing inRun with
  | nil => exact (cut_eq_some_iff _ _ _ _).mpr ⟨rfl, by simp [squeezed]⟩
  | cons letter before ih =>
      obtain ⟨-, first⟩ := (cut_eq_some_iff _ _ _ _).mp found
      have later : cut pattern (before ++ pattern ++ after) = some (before, after) := by
        refine (cut_eq_some_iff _ _ _ _).mpr ⟨rfl, ?_⟩
        intro position bound
        exact first (position + 1) (by simpa using bound)
      by_cases blank : isBlank letter
      · cases inRun with
        | true => simpa [squeezed, blank] using ih later true
        | false =>
            have notHere : ¬ pattern <+: ' ' :: (squeezed true before ++ pattern ++ more) := by
              intro stands
              obtain ⟨head, others, rfl⟩ := List.exists_cons_of_ne_nil nonempty
              have seen := visible head List.mem_cons_self
              rw [(List.cons_prefix_cons.mp stands).1] at seen
              exact absurd seen (by decide)
            rw [squeezed_false_cons_of_blank blank, List.cons_append, List.cons_append,
              cut_cons_of_not_starts notHere, ih later true]
            rfl
      · have seen : isBlank letter = false := by simpa using blank
        have notHere : ¬ pattern <+: letter :: (squeezed false before ++ pattern ++ more) := by
          intro stands
          rw [← List.cons_append, ← List.cons_append, ← squeezed_cons_of_not_blank seen false,
            List.append_assoc] at stands
          have reaches := starts_of_starts_squeezed (letter :: before) _ visible stands
          have extended : pattern <+: (letter :: before ++ pattern) ++ more := by
            rwa [List.append_assoc]
          have within : pattern <+: letter :: before ++ pattern :=
            List.prefix_of_prefix_length_le extended (List.prefix_append _ _) (by simp; omega)
          exact first 0 (by simp) (within.trans (List.prefix_append _ _))
        rw [squeezed_cons_of_not_blank seen, List.cons_append, List.cons_append,
          cut_cons_of_not_starts notHere, ih later false]
        rfl

end Unbroken
