import Unbroken.Proofs.Settle
import Unbroken.Proofs.Text.Sheds

/-! The line that a message is put on. Every closing marker that was found on the first line of the
message is found there too, behind the same visible letters. -/

namespace Unbroken

theorem blank_free_closer (quote : Quote) : ∀ letter ∈ quote.closer, isBlank letter = false := by
  have bracket : isBlank ')' = false := by decide
  simp [Quote.closer, bracket, isBlank_char]

theorem closer_ne_nil (quote : Quote) : quote.closer ≠ [] := by
  simp [Quote.closer]

theorem cut_closer_cons_of_ne {letter : Char} (quote : Quote) (other : letter ≠ quote.char)
    (rest : List Char) :
    cut quote.closer (letter :: rest) =
      (cut quote.closer rest).map fun (before, after) => (letter :: before, after) := by
  refine cut_cons_of_not_starts fun stands => other ?_
  exact (List.cons_prefix_cons.mp stands).1.symm

theorem cut_closer_behind (before : List Char) (quote other : Quote) (rest : List Char)
    (clear : cut other.closer before = none) :
    cut other.closer (before ++ quote.opener ++ rest) =
      (cut other.closer (quote.char :: rest)).map
        fun (head, after) => (before ++ ['_', '('] ++ head, after) := by
  have foreign : '_' ∉ other.closer := by cases other <;> decide
  have paren : '(' ≠ other.char := by cases other <;> decide
  have parts : before ++ quote.opener ++ rest = before ++ '_' :: '(' :: quote.char :: rest := by
    simp [Quote.opener]
  rw [parts, cut_append_cons_of_eq_none foreign clear, cut_closer_cons_of_ne other paren]
  simp [Option.map_map, Function.comp_def]

theorem cut_closer_quote_bracket (quote : Quote) (rest : List Char) :
    cut quote.closer (quote.char :: ')' :: rest) = some ([], rest) :=
  (cut_eq_some_iff _ _ _ _).mpr ⟨rfl, by simp⟩

theorem cut_closer_quote {quote other : Quote} {rest : List Char}
    (apart : other = quote → ∀ tail, rest ≠ ')' :: tail) :
    cut other.closer (quote.char :: rest) =
      (cut other.closer rest).map fun (before, after) => (quote.char :: before, after) := by
  by_cases same : other = quote
  · subst same
    refine cut_cons_of_not_starts fun stands => ?_
    obtain ⟨tail, parts⟩ := (List.cons_prefix_cons.mp stands).2
    exact apart rfl tail (by simpa using parts.symm)
  · refine cut_closer_cons_of_ne other ?_ rest
    intro equal
    exact same (Quote.eq_of_char_eq equal).symm

theorem cut_closer_singleSpaced {quote : Quote} {tail head after : List Char}
    (found : cut quote.closer tail = some (head, after)) (more rest : List Char) :
    ∃ later, cut quote.closer (singleSpaced (tail ++ more) ++ rest) =
        some (squeezed true head, later) ∧ Sheds later (after ++ more ++ rest) := by
  have parts := cut_append found
  have spaced : singleSpaced (tail ++ more) =
      squeezed true head ++ quote.closer ++ trimEnd (squeezed false (after ++ more)) := by
    have seen := isBlank_char quote
    have bracket : isBlank ')' = false := by decide
    rw [parts, show head ++ quote.closer ++ after ++ more =
        head ++ quote.char :: ')' :: (after ++ more) by simp [Quote.closer],
      singleSpaced_append_cons seen, squeezed_cons_of_not_blank bracket,
      trimEnd_cons_of_not_blank bracket]
    simp [Quote.closer]
  refine ⟨trimEnd (squeezed false (after ++ more)) ++ rest, ?_, ?_⟩
  · rw [spaced, List.append_assoc]
    exact cut_squeezed_append (closer_ne_nil quote) (blank_free_closer quote) (parts ▸ found) true _
  · exact ((trimEnd_sheds _).trans (squeezed_sheds false _)).append (.refl rest)

namespace Span

variable {line : List Char} {below : List (List Char)}

theorem body_eq (span : Span line below) :
    span.body = span.marker.tail ++ '\n' :: joinLines (span.between ++ [span.head]) := by
  rw [body, List.cons_append, joinLines_cons_of_ne_nil _ (by simp)]

/-- A closing marker of the line is also the first of its kind on the line that the message is put
on. There are three places for it: before the opening marker, across the end of it, and behind. -/
theorem cut_united (span : Span line below) (after : List Char) {quote : Quote}
    {head behind : List Char} (found : cut quote.closer line = some (head, behind)) :
    ∃ front later, cut quote.closer (span.united after) = some (front, later) ∧
      solid front = solid head ∧
      Sheds later (behind ++ ('\n' :: joinLines (span.between ++ [span.head])) ++
        (span.marker.quote.closer ++ after)) := by
  have text : span.text = singleSpaced
      (span.marker.tail ++ '\n' :: joinLines (span.between ++ [span.head])) := by
    rw [Span.text, body_eq]
  generalize '\n' :: joinLines (span.between ++ [span.head]) = more at text ⊢
  generalize ending : span.marker.quote.closer ++ after = rest
  have united : span.united after =
      span.marker.before ++ span.marker.quote.opener ++ (singleSpaced (span.marker.tail ++ more) ++ rest) := by
    rw [Span.united, text, ← ending]
    simp only [List.append_assoc]
  have spacedSheds : Sheds (singleSpaced (span.marker.tail ++ more) ++ rest)
      (span.marker.tail ++ more ++ rest) := (singleSpaced_sheds _).append (.refl rest)
  rw [united]
  rw [span.line_eq] at found
  cases front : cut quote.closer span.marker.before with
  | some pair =>
      obtain ⟨start, middle⟩ := pair
      rw [List.append_assoc, cut_append_of_eq_some front] at found ⊢
      obtain ⟨rfl, rfl⟩ := Prod.mk.inj (Option.some.inj found)
      refine ⟨start, _, rfl, rfl, ?_⟩
      have whole := (Sheds.refl (middle ++ span.marker.quote.opener)).append spacedSheds
      simpa only [List.append_assoc] using whole
  | none =>
      rw [cut_closer_behind _ _ _ _ front] at found ⊢
      by_cases across : quote = span.marker.quote ∧ ∃ tail, span.marker.tail = ')' :: tail
      · obtain ⟨rfl, tail, bracket⟩ := across
        have visible : isBlank ')' = false := by decide
        have spaced : singleSpaced (')' :: tail ++ more) =
            ')' :: trimEnd (squeezed false (tail ++ more)) := by
          simpa [squeezed] using singleSpaced_append_cons visible [] (tail ++ more)
        rw [bracket, cut_closer_quote_bracket] at found
        obtain ⟨rfl, rfl⟩ := Prod.mk.inj (Option.some.inj found)
        rw [bracket, spaced, List.cons_append, cut_closer_quote_bracket]
        refine ⟨_, _, rfl, rfl, ?_⟩
        exact ((trimEnd_sheds _).trans (squeezed_sheds false _)).append (.refl rest)
      · have apart : quote = span.marker.quote → ∀ tail, span.marker.tail ≠ ')' :: tail :=
          fun same tail bracket => across ⟨same, tail, bracket⟩
        rw [cut_closer_quote apart] at found
        simp only [Option.map_eq_some_iff, Prod.mk.injEq, Prod.exists] at found
        obtain ⟨start, _, ⟨inner, last, inside, rfl, rfl⟩, rfl, rfl⟩ := found
        have differs : quote ≠ span.marker.quote := by
          rintro rfl
          rw [span.stays] at inside
          cases inside
        obtain ⟨later, kept, sheds⟩ := cut_closer_singleSpaced inside more rest
        rw [cut_closer_quote fun same => absurd same differs, kept]
        refine ⟨_, _, rfl, ?_, sheds⟩
        rw [solid_append, solid_append _ (span.marker.quote.char :: inner)]
        have quoted : ∀ text, solid (span.marker.quote.char :: text) =
            solid [span.marker.quote.char] ++ solid text := fun text => solid_append [_] text
        rw [quoted (squeezed true inner), quoted inner, solid_squeezed]

end Span

end Unbroken
