import Unbroken.Proofs.Text.LineSplit
import Unbroken.Proofs.Text.Tightens

/-! Places in a text by the number of visible letters before them. They stay the same when blanks are
lost, so the words and line feeds of a text can be followed through passes over it. -/

namespace Unbroken

/-- A word stands in a text behind so many visible letters. -/
def ReadsAt (word text : List Char) (offset : Nat) : Prop :=
  ∃ front behind, text = front ++ word ++ behind ∧ (solid front).length = offset

def OnOneLine (text : List Char) (first stop : Nat) : Prop :=
  ∀ offset, ReadsAt ['\n'] text offset → offset ≤ first ∨ stop ≤ offset

theorem length_solid_take_le (text : List Char) {first last : Nat} (ordered : first ≤ last) :
    (solid (text.take first)).length ≤ (solid (text.take last)).length := by
  have starts : text.take first <+: text.take last := List.take_prefix_take_left ordered
  exact (starts.sublist.filter _).length_le

namespace ReadsAt

variable {word left right : List Char} {offset : Nat}

theorem append (reads : ReadsAt word left offset) (right : List Char) :
    ReadsAt word (left ++ right) offset := by
  obtain ⟨front, behind, rfl, rfl⟩ := reads
  exact ⟨front, behind ++ right, by simp, rfl⟩

theorem shift (left : List Char) (reads : ReadsAt word right offset) :
    ReadsAt word (left ++ right) ((solid left).length + offset) := by
  obtain ⟨front, behind, rfl, rfl⟩ := reads
  exact ⟨left ++ front, behind, by simp, by rw [solid_append, List.length_append]⟩

theorem of_append (reads : ReadsAt word (left ++ right) offset) :
    ReadsAt word left offset ∨
      (∃ rest, offset = (solid left).length + rest ∧ ReadsAt word right rest) ∨
      ∃ first last front behind, first ≠ [] ∧ last ≠ [] ∧ word = first ++ last ∧
        left = front ++ first ∧ right = last ++ behind ∧ (solid front).length = offset := by
  obtain ⟨front, behind, parts, rfl⟩ := reads
  rw [List.append_assoc] at parts
  rcases List.append_eq_append_iff.mp parts with ⟨more, rfl, rfl⟩ | ⟨start, rfl, rest⟩
  · refine Or.inr (Or.inl ⟨(solid more).length, ?_, more, behind, by simp, rfl⟩)
    rw [solid_append, List.length_append]
  · rcases List.append_eq_append_iff.mp rest with ⟨more, rfl, rfl⟩ | ⟨last, rfl, rfl⟩
    · exact Or.inl ⟨front, more, by simp, rfl⟩
    · by_cases whole : start = []
      · subst whole
        exact Or.inr (Or.inl ⟨0, by simp, [], behind, by simp, rfl⟩)
      by_cases nothing : last = []
      · subst nothing
        exact Or.inl ⟨front, [], by simp, rfl⟩
      exact Or.inr (Or.inr ⟨start, last, front, behind, whole, nothing, rfl, rfl, rfl, rfl⟩)

theorem newline_of_append (reads : ReadsAt ['\n'] (left ++ right) offset) :
    ReadsAt ['\n'] left offset ∨
      ∃ rest, offset = (solid left).length + rest ∧ ReadsAt ['\n'] right rest := by
  rcases reads.of_append with here | there | ⟨first, last, -, -, nonempty, more, parts, -⟩
  · exact Or.inl here
  · exact Or.inr there
  · have size := congrArg List.length parts
    have firstSize := List.length_pos_of_ne_nil nonempty
    have lastSize := List.length_pos_of_ne_nil more
    simp only [List.length_singleton, List.length_append] at size
    omega

theorem pair_of_append {one two : Char} (reads : ReadsAt [one, two] (left ++ right) offset) :
    ReadsAt [one, two] left offset ∨
      (∃ rest, offset = (solid left).length + rest ∧ ReadsAt [one, two] right rest) ∨
      ∃ front behind, left = front ++ [one] ∧ right = two :: behind ∧
        (solid front).length = offset := by
  rcases reads.of_append with here | there | ⟨first, last, front, behind, nonempty, more, parts, rest⟩
  · exact Or.inl here
  · exact Or.inr (Or.inl there)
  · obtain ⟨head, others, rfl⟩ := List.exists_cons_of_ne_nil nonempty
    obtain ⟨next, others', rfl⟩ := List.exists_cons_of_ne_nil more
    have shape : others = [] ∧ others' = [] ∧ head = one ∧ next = two := by
      cases others with
      | nil => simp_all
      | cons => simp at parts
    obtain ⟨rfl, rfl, rfl, rfl⟩ := shape
    exact Or.inr (Or.inr ⟨front, behind, rest⟩)

theorem of_cons {letter : Char} (reads : ReadsAt word (letter :: right) offset) :
    (word <+: letter :: right ∧ offset = 0) ∨
      ∃ rest, offset = (solid [letter]).length + rest ∧ ReadsAt word right rest := by
  obtain ⟨front, behind, parts, rfl⟩ := reads
  cases front with
  | nil => exact Or.inl ⟨⟨behind, parts.symm⟩, rfl⟩
  | cons first front =>
      obtain ⟨rfl, rfl⟩ := List.cons.inj parts
      refine Or.inr ⟨(solid front).length, ?_, front, behind, rfl, rfl⟩
      rw [← List.singleton_append, solid_append, List.length_append]

theorem le (reads : ReadsAt word left offset) : offset ≤ (solid left).length := by
  obtain ⟨front, behind, rfl, rfl⟩ := reads
  simp only [solid_append, List.length_append]
  omega

theorem ne_nil (nonempty : word ≠ []) (reads : ReadsAt word left offset) : left ≠ [] := by
  obtain ⟨front, behind, rfl, -⟩ := reads
  simp [nonempty]

theorem not_newline_of_not_mem (flat : '\n' ∉ left) : ¬ ReadsAt ['\n'] left offset := by
  rintro ⟨front, behind, rfl, -⟩
  simp at flat

end ReadsAt

namespace Tightens

variable {new old : List Char}

theorem onOneLine (tightens : Tightens new old) {first stop : Nat} (line : OnOneLine old first stop) :
    OnOneLine new first stop := by
  rintro offset ⟨front, behind, rfl, rfl⟩
  rw [List.append_assoc, List.singleton_append] at tightens
  obtain ⟨left, right, rfl, upper, -⟩ := tightens.split_new (by decide)
  exact line _ ⟨left, right, by simp, by rw [upper.solid_eq]⟩

end Tightens

theorem readsAt_of_squeezed {word text : List Char} (nonempty : word ≠ [])
    (whole : ∀ letter ∈ word, isBlank letter = false) (inRun : Bool) {offset : Nat}
    (reads : ReadsAt word (squeezed inRun text) offset) : ReadsAt word text offset := by
  induction text generalizing inRun offset with
  | nil => exact reads
  | cons letter rest ih =>
      by_cases blank : isBlank letter
      · have weight : (solid [letter]).length = 0 := by
          rw [solid_cons_of_blank blank]
          rfl
        have behind : ∀ {offset}, ReadsAt word (squeezed true rest) offset →
            ReadsAt word (letter :: rest) offset := by
          intro offset later
          have there := (ih true later).shift [letter]
          rwa [weight, Nat.zero_add] at there
        cases inRun with
        | true =>
            rw [squeezed_true_cons_of_blank blank] at reads
            exact behind reads
        | false =>
            rw [squeezed_false_cons_of_blank blank] at reads
            rcases reads.of_cons with ⟨starts, -⟩ | ⟨later, rfl, rest⟩
            · obtain ⟨first, others, rfl⟩ := List.exists_cons_of_ne_nil nonempty
              have seen := whole first List.mem_cons_self
              rw [(List.cons_prefix_cons.mp starts).1] at seen
              exact absurd seen (by decide)
            · have space : (solid [' ']).length = 0 := by decide
              rw [space, Nat.zero_add]
              exact behind rest
      · have visible : isBlank letter = false := by simpa using blank
        rw [squeezed_cons_of_not_blank visible] at reads
        rcases reads.of_cons with ⟨starts, rfl⟩ | ⟨later, rfl, rest⟩
        · obtain ⟨first, others, rfl⟩ := List.exists_cons_of_ne_nil nonempty
          obtain ⟨rfl, more⟩ := List.cons_prefix_cons.mp starts
          have onward := starts_of_starts_squeezed rest []
            (fun other member => whole other (List.mem_cons_of_mem _ member)) (by simpa using more)
          have starts : first :: others <+: first :: rest :=
            List.cons_prefix_cons.mpr ⟨rfl, by simpa using onward⟩
          obtain ⟨behind, parts⟩ := starts
          exact ⟨[], behind, by simpa using parts.symm, rfl⟩
        · exact (ih false rest).shift [letter]

theorem readsAt_of_singleSpaced {word text : List Char} (nonempty : word ≠ [])
    (whole : ∀ letter ∈ word, isBlank letter = false) {offset : Nat}
    (reads : ReadsAt word (singleSpaced text) offset) : ReadsAt word text offset := by
  rw [singleSpaced_eq] at reads
  obtain ⟨behind, parts⟩ := trimEnd_starts (squeezed true text)
  have longer := reads.append behind
  rw [parts] at longer
  exact readsAt_of_squeezed nonempty whole true longer

theorem infix_of_infix_singleSpaced {word text : List Char} (nonempty : word ≠ [])
    (whole : ∀ letter ∈ word, isBlank letter = false) (inside : word <:+: singleSpaced text) :
    word <:+: text := by
  obtain ⟨front, behind, parts⟩ := inside
  obtain ⟨front', behind', rfl, -⟩ :=
    readsAt_of_singleSpaced nonempty whole ⟨front, behind, parts.symm, rfl⟩
  exact ⟨front', behind', rfl⟩

theorem joinLines_cons_eq (line : List Char) (rest : List (List Char)) :
    joinLines (line :: rest) = line ++ joinLines ([] :: rest) := by
  rw [← joinLines_append_head, List.append_nil]

theorem readsAt_joinLines_cons {word line : List Char} {rest : List (List Char)} {offset : Nat}
    (reads : ReadsAt word (joinLines rest) offset) (nonempty : rest ≠ []) :
    ReadsAt word (joinLines (line :: rest)) ((solid line).length + offset) := by
  have newline : (solid ['\n']).length = 0 := by decide
  have below := (reads.shift ['\n']).shift line
  rw [newline, Nat.zero_add] at below
  rwa [joinLines_cons_of_ne_nil _ nonempty]

theorem ReadsAt.of_joinLines_cons {word line : List Char} {rest : List (List Char)} {offset : Nat}
    (nonempty : word ≠ []) (flat : '\n' ∉ word) (reads : ReadsAt word (joinLines (line :: rest)) offset) :
    ReadsAt word line offset ∨
      ∃ later, offset = (solid line).length + later ∧ ReadsAt word (joinLines rest) later := by
  cases rest with
  | nil => exact Or.inl (by simpa using reads)
  | cons next rest =>
      rw [joinLines_cons_cons] at reads
      rcases reads.of_append with here | ⟨later, rfl, lower⟩ | ⟨first, last, _, _, -, more, rfl, -, parts, -⟩
      · exact Or.inl here
      · rcases lower.of_cons with ⟨starts, -⟩ | ⟨more, rfl, inside⟩
        · obtain ⟨head, others, rfl⟩ := List.exists_cons_of_ne_nil nonempty
          obtain ⟨rfl, -⟩ := List.cons_prefix_cons.mp starts
          exact absurd List.mem_cons_self flat
        · have newline : (solid ['\n']).length = 0 := by decide
          exact Or.inr ⟨more, by rw [newline, Nat.zero_add], inside⟩
      · obtain ⟨head, others, rfl⟩ := List.exists_cons_of_ne_nil more
        obtain ⟨rfl, -⟩ := List.cons.inj parts
        simp at flat

theorem newline_of_joinLines_cons {line : List Char} (flat : '\n' ∉ line) {rest : List (List Char)}
    {offset : Nat} (reads : ReadsAt ['\n'] (joinLines (line :: rest)) offset) :
    offset = (solid line).length ∨
      ∃ later, offset = (solid line).length + later ∧ ReadsAt ['\n'] (joinLines rest) later := by
  cases rest with
  | nil =>
      rw [joinLines_singleton] at reads
      exact absurd reads (ReadsAt.not_newline_of_not_mem flat)
  | cons next rest =>
      rw [joinLines_cons_cons] at reads
      rcases reads.newline_of_append with here | ⟨later, rfl, lower⟩
      · exact absurd here (ReadsAt.not_newline_of_not_mem flat)
      · rcases lower.of_cons with ⟨-, rfl⟩ | ⟨more, rfl, inside⟩
        · exact Or.inl rfl
        · have newline : (solid ['\n']).length = 0 := by decide
          exact Or.inr ⟨more, by rw [newline, Nat.zero_add], inside⟩

namespace OnOneLine

theorem shift {line : List Char} (flat : '\n' ∉ line) {rest : List (List Char)} {first stop : Nat}
    (below : OnOneLine (joinLines rest) first stop) :
    OnOneLine (joinLines (line :: rest)) ((solid line).length + first)
      ((solid line).length + stop) := by
  intro offset reads
  rcases newline_of_joinLines_cons flat reads with rfl | ⟨later, rfl, lower⟩
  · omega
  · have bound := below later lower
    omega

theorem trans {text : List Char} {first middle last stop : Nat} (left : OnOneLine text first middle)
    (right : OnOneLine text last stop) (shared : last < middle) :
    OnOneLine text first stop := by
  intro offset reads
  have before := left offset reads
  have behind := right offset reads
  omega

end OnOneLine

theorem ReadsAt.onOneLine {word text : List Char} {offset : Nat} (flat : '\n' ∉ word)
    (reads : ReadsAt word text offset) : OnOneLine text offset (offset + (solid word).length) := by
  obtain ⟨front, behind, rfl, rfl⟩ := reads
  intro place newline
  rcases newline.newline_of_append with upper | ⟨later, rfl, -⟩
  · rcases upper.newline_of_append with first | ⟨rest, -, inside⟩
    · exact Or.inl first.le
    · exact absurd inside (ReadsAt.not_newline_of_not_mem flat)
  · rw [solid_append, List.length_append]
    exact Or.inr (Nat.le_add_right _ _)

end Unbroken
