import Unbroken.Proofs.Lossless
import Unbroken.Proofs.Text.Places

/-! Where the closing markers of a text come from when a pass that loses nothing went over it. Most of
them stood there before. Only the quote of an opening marker and a bracket that blanks kept off it may
come together to a new one, and then the message is put on one line with what follows it up to its
own closing marker. -/

namespace Unbroken

/-- Every closing marker of a new text is on one line with a closing marker of the old text, which
stands in the same place or behind it. -/
def ClosersStem (old new : List Char) : Prop :=
  ∀ (quote : Quote) offset, ReadsAt quote.closer new offset →
    ∃ stop, offset ≤ stop ∧ ReadsAt quote.closer old stop ∧ OnOneLine new offset (stop + 2)

theorem length_solid_closer (quote : Quote) : (solid quote.closer).length = 2 := by
  cases quote <;> decide

theorem length_solid_opener (quote : Quote) : (solid quote.opener).length = 3 := by
  cases quote <;> decide

theorem ReadsAt.closer_onOneLine {quote : Quote} {text : List Char} {offset : Nat}
    (reads : ReadsAt quote.closer text offset) : OnOneLine text offset (offset + 2) := by
  have line := reads.onOneLine (newline_not_mem_closer quote)
  rwa [length_solid_closer] at line

namespace Span

variable {line : List Char} {below : List (List Char)}

def closed (span : Span line below) : List Char :=
  span.marker.before ++ span.marker.quote.opener ++ span.text ++ span.marker.quote.closer

def spread (span : Span line below) : List Char :=
  span.marker.before ++ span.marker.quote.opener ++ span.body ++ span.marker.quote.closer

theorem solid_closed (span : Span line below) : solid span.closed = solid span.spread := by
  simp only [closed, spread, text, solid_append, solid_singleSpaced]

theorem joinLines_united (span : Span line below) (after : List Char) (rest : List (List Char)) :
    joinLines (span.united after :: rest) = span.closed ++ joinLines (after :: rest) :=
  joinLines_append_head _ _ _

theorem joinLines_spread (span : Span line below) :
    joinLines (line :: below) = span.spread ++ joinLines (span.after :: span.lower) := by
  have parts := span.joinLines_eq span.lower
  rw [← span.parts] at parts
  rw [parts, spread, List.append_assoc _ span.marker.quote.closer]

theorem reads_closed (span : Span line below) {quote : Quote} {offset : Nat}
    (reads : ReadsAt quote.closer span.closed offset) :
    ReadsAt quote.closer span.spread offset ∨
      (quote = span.marker.quote ∧ offset + 2 ≤ (solid span.closed).length) := by
  rcases reads.pair_of_append with inner | ⟨later, rfl, last⟩ | ⟨front, behind, -, bracket, -⟩
  · rcases inner.pair_of_append with first | ⟨later, rfl, message⟩ | ⟨front, behind, ends, -, rfl⟩
    · left
      exact (first.append span.body).append span.marker.quote.closer
    · left
      have stood : ReadsAt quote.closer span.body later :=
        readsAt_of_singleSpaced (closer_ne_nil quote) (blank_free_closer quote) message
      exact (stood.shift _).append span.marker.quote.closer
    · right
      have quotes : span.marker.before ++ ['_', '('] = front ∧ span.marker.quote.char = quote.char := by
        have split : (span.marker.before ++ ['_', '(']) ++ [span.marker.quote.char] = front ++ [quote.char] := by
          simpa [Quote.opener] using ends
        obtain ⟨same, rest⟩ := List.append_inj' split rfl
        exact ⟨same, (List.cons.inj rest).1⟩
      obtain ⟨rfl, same⟩ := quotes
      refine ⟨(Quote.eq_of_char_eq same).symm, ?_⟩
      have two : (solid ['_', '(']).length = 2 := by decide
      simp only [closed, solid_append, List.length_append, length_solid_opener, length_solid_closer, two]
      omega
  · left
    have same : quote = span.marker.quote ∧ later = 0 := by
      rcases last.of_cons with ⟨starts, rfl⟩ | ⟨more, -, bracket⟩
      · exact ⟨Quote.eq_of_char_eq (List.cons_prefix_cons.mp starts).1, rfl⟩
      · rcases bracket.of_cons with ⟨starts, -⟩ | ⟨_, -, front, behind, nothing, -⟩
        · exact absurd (List.cons_prefix_cons.mp starts).1.symm (quote.bracket_ne_char)
        · simp at nothing
    obtain ⟨rfl, rfl⟩ := same
    refine ⟨span.marker.before ++ span.marker.quote.opener ++ span.body, [], by simp [spread], ?_⟩
    simp only [text, solid_append, solid_singleSpaced, Nat.add_zero]
  · exact absurd (List.cons.inj bracket).1.symm (Quote.bracket_ne_char _)

theorem newline_not_mem_closed (span : Span line below) (flat : '\n' ∉ line) : '\n' ∉ span.closed := by
  rw [span.line_eq] at flat
  simp only [List.mem_append, not_or] at flat
  simp only [closed, List.mem_append, not_or]
  exact ⟨⟨flat.1, newline_not_mem_singleSpaced _⟩, newline_not_mem_closer _⟩

end Span

namespace ClosersStem

theorem cons {line : List Char} {below lower : List (List Char)} (flat : '\n' ∉ line)
    (rest : ClosersStem (joinLines below) (joinLines lower)) :
    ClosersStem (joinLines (line :: below)) (joinLines (line :: lower)) := by
  intro quote offset reads
  rcases reads.of_joinLines_cons (closer_ne_nil quote) (newline_not_mem_closer quote) with
    here | ⟨later, rfl, inside⟩
  · refine ⟨offset, Nat.le_refl _, ?_, reads.closer_onOneLine⟩
    rw [joinLines_cons_eq]
    exact here.append _
  · obtain ⟨stop, bound, stood, together⟩ := rest quote later inside
    have nonempty : below ≠ [] := by
      rintro rfl
      exact stood.ne_nil (closer_ne_nil quote) joinLines_nil
    exact ⟨_, by omega, readsAt_joinLines_cons stood nonempty, together.shift flat⟩

theorem unite {line reached ahead after : List Char} {below lower further : List (List Char)}
    {above : Nat} {mended : List Break} (span : Span line below) (flat : '\n' ∉ line)
    (found : lower[span.between.length]? = some reached)
    (closes : cut span.marker.quote.closer reached = some (ahead, after))
    (same : lower.take span.between.length = span.between)
    (block : Block mended above span.last further reached)
    (rest : ClosersStem (joinLines below) (joinLines lower)) :
    ClosersStem (joinLines (line :: below))
      (joinLines (span.united after :: lower.drop span.depth)) := by
  have lowerNonempty : lower ≠ [] := by
    rintro rfl
    simp at found
  have belowNonempty : below ≠ [] := by
    rw [span.parts]
    simp
  -- Below the first line, the lines that were settled go on like the new text behind the message.
  obtain ⟨front, lowerEq⟩ : ∃ front, joinLines lower = front ++ joinLines (after :: lower.drop span.depth) := by
    obtain ⟨inside, rfl⟩ := List.getElem?_eq_some_iff.mp found
    refine ⟨rows (lower.take span.between.length) ++ (ahead ++ span.marker.quote.closer), ?_⟩
    conv_lhs => rw [← List.take_append_drop span.between.length lower, List.drop_eq_getElem_cons inside]
    rw [joinLines_append_cons, cut_append closes, joinLines_append_head, Span.depth]
    simp only [List.append_assoc]
  have weight : (solid line).length + (solid front).length = (solid span.closed).length := by
    have kept := congrArg List.length (solid_unite span found closes same block)
    rw [span.joinLines_united, joinLines_cons_of_ne_nil _ lowerNonempty, lowerEq] at kept
    simp only [solid_append, solid_cons_of_blank (show isBlank '\n' = true by decide),
      List.length_append] at kept
    omega
  have flatClosed := span.newline_not_mem_closed flat
  intro quote offset reads
  rw [span.joinLines_united] at reads ⊢
  rcases reads.pair_of_append with here | ⟨later, rfl, inside⟩ | ⟨start, _, ends, -, -⟩
  · rcases span.reads_closed here with stood | ⟨rfl, bound⟩
    · refine ⟨offset, Nat.le_refl _, ?_, reads.closer_onOneLine⟩
      rw [span.joinLines_spread]
      exact stood.append _
    · have size := congrArg List.length span.solid_closed
      simp only [Span.spread, solid_append, List.length_append, length_solid_closer] at size
      refine ⟨_, ?_, ⟨span.marker.before ++ span.marker.quote.opener ++ span.body,
        joinLines (span.after :: span.lower), ?_, rfl⟩, ?_⟩
      · simp only [solid_append, List.length_append]
        omega
      · rw [span.joinLines_spread, Span.spread]
      · intro place newline
        rcases newline.newline_of_append with upper | ⟨lowest, rfl, -⟩
        · exact absurd upper (ReadsAt.not_newline_of_not_mem flatClosed)
        · simp only [solid_append, List.length_append]
          omega
  · obtain ⟨stop, bound, stood, together⟩ := rest quote _ (lowerEq ▸ inside.shift front)
    refine ⟨_, ?_, readsAt_joinLines_cons stood belowNonempty, ?_⟩
    · omega
    · intro place newline
      rcases newline.newline_of_append with upper | ⟨lowest, rfl, behind⟩
      · exact absurd upper (ReadsAt.not_newline_of_not_mem flatClosed)
      · have apart := together _ (lowerEq ▸ behind.shift front)
        omega
  · have bracket : ')' = quote.char := by
      have split : (span.marker.before ++ span.marker.quote.opener ++ span.text ++
          [span.marker.quote.char]) ++ [')'] = start ++ [quote.char] := by
        simpa [Span.closed, Quote.closer] using ends
      exact (List.cons.inj (List.append_inj' split rfl).2).1
    exact absurd bracket quote.bracket_ne_char

end ClosersStem

theorem Settles.closersStem {file : Path} {above : Nat} {lines settled : List (List Char)}
    {mended : List Break} (settles : Settles file above lines settled mended) (apart : Apart mended)
    (whole : ∀ line ∈ lines, '\n' ∉ line) : ClosersStem (joinLines lines) (joinLines settled) := by
  induction settles with
  | done =>
      intro quote offset reads
      exact absurd joinLines_nil (reads.ne_nil (closer_ne_nil quote))
  | keeps _ _ ih | passes _ _ _ ih =>
      exact .cons (whole _ List.mem_cons_self)
        (ih apart fun other member => whole other (List.mem_cons_of_mem _ member))
  | unites span found closes rest ih =>
      obtain ⟨lower, clear⟩ := (apart_cons_iff file span rest.lt_firstLine).mp apart
      have stems := ih lower fun other member => whole other (List.mem_cons_of_mem _ member)
      obtain ⟨further, lowest, -, -, ⟨-, same, block⟩ | ⟨moved, -⟩⟩ := rest.blocks.reach span found
      · exact .unite span (whole _ List.mem_cons_self) found closes same block stems
      · obtain ⟨broken, member, behind, bound⟩ := moved
        have place := clear broken member behind
        omega

end Unbroken
