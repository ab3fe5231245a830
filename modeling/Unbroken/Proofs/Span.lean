import Unbroken.Proofs.Text.Spacing
import Unbroken.Survey

/-! How a break lies in its lines: the marker that leads its first line, the lines that its message
runs through, and the part of its last line before the closing marker. -/

namespace Unbroken

namespace Marker

theorem atStart?_eq_some_iff (text tail : List Char) (quote : Quote) :
    atStart? text = some (quote, tail) ↔ text = quote.opener ++ tail := by
  constructor
  · intro found
    unfold atStart? at found
    split at found
    next letter rest =>
      obtain ⟨known, read, same⟩ := Option.map_eq_some_iff.mp found
      obtain ⟨rfl, rfl⟩ := Prod.mk.inj same
      simp [Quote.opener, (Quote.ofChar?_eq_some_iff _ _).mp read]
    next => cases found
  · rintro rfl
    cases quote <;> rfl

theorem atStart?_eq_none_iff (text : List Char) :
    atStart? text = none ↔ ∀ quote : Quote, ¬ quote.opener <+: text := by
  constructor
  · rintro nothing quote ⟨tail, rfl⟩
    rw [(atStart?_eq_some_iff _ tail quote).mpr rfl] at nothing
    cases nothing
  · intro absent
    cases found : atStart? text with
    | none => rfl
    | some pair =>
        obtain ⟨quote, tail⟩ := pair
        exact absurd ⟨tail, ((atStart?_eq_some_iff _ _ _).mp found).symm⟩ (absent quote)

theorem leftmost?_eq_some_iff (line : List Char) (marker : Marker) :
    leftmost? line = some marker ↔
      line = marker.before ++ marker.quote.opener ++ marker.tail ∧
        ∀ position < marker.before.length, ∀ quote : Quote,
          ¬ StandsAt quote.opener line position := by
  induction line generalizing marker with
  | nil => cases marker; simp [leftmost?, Quote.opener]
  | cons letter rest ih =>
      obtain ⟨before, quote, tail⟩ := marker
      rw [leftmost?]
      cases here : atStart? (letter :: rest) with
      | some pair =>
          obtain ⟨known, behind⟩ := pair
          have starts := (atStart?_eq_some_iff _ _ _).mp here
          simp only [Option.some.injEq, Marker.mk.injEq]
          constructor
          · rintro ⟨rfl, rfl, rfl⟩
            exact ⟨by simpa using starts, by simp⟩
          · rintro ⟨parts, first⟩
            cases before with
            | nil =>
                have same := (atStart?_eq_some_iff _ _ _).mpr (by simpa using parts)
                simpa [here] using same
            | cons head before =>
                exact absurd ⟨behind, starts.symm⟩ (first 0 (by simp) known)
      | none =>
          have absent := (atStart?_eq_none_iff _).mp here
          simp only [Option.map_eq_some_iff]
          cases before with
          | nil =>
              constructor
              · rintro ⟨later, _, same⟩
                simp at same
              · rintro ⟨parts, _⟩
                exact absurd ⟨tail, by simpa using parts.symm⟩ (absent quote)
          | cons head before =>
              constructor
              · rintro ⟨later, known, same⟩
                simp only [Marker.mk.injEq, List.cons.injEq] at same
                obtain ⟨⟨rfl, rfl⟩, rfl, rfl⟩ := same
                obtain ⟨parts, first⟩ := (ih later).mp known
                refine ⟨by simp [parts], ?_⟩
                intro position bound other
                cases position with
                | zero => exact absent other
                | succ position => exact first position (by simpa using bound) other
              · rintro ⟨parts, first⟩
                simp only [List.cons_append, List.cons.injEq] at parts
                obtain ⟨rfl, parts⟩ := parts
                refine ⟨⟨before, quote, tail⟩, (ih _).mpr ⟨parts, ?_⟩, rfl⟩
                intro position bound other
                exact first (position + 1) (by simpa using bound) other

theorem leftmost?_with_tail {line : List Char} {marker : Marker} (found : leftmost? line = some marker)
    (tail : List Char) :
    leftmost? (marker.before ++ marker.quote.opener ++ tail) = some { marker with tail := tail } := by
  obtain ⟨parts, first⟩ := (leftmost?_eq_some_iff line marker).mp found
  refine (leftmost?_eq_some_iff _ _).mpr ⟨rfl, fun position bound quote stands => ?_⟩
  have sizes : ∀ quote : Quote, quote.opener.length = 3 := fun _ => rfl
  have upTo : ∀ rest, (marker.before ++ marker.quote.opener ++ rest).take (marker.before.length + 3) =
      marker.before ++ marker.quote.opener := by
    intro rest
    exact List.take_left' (by simp only [List.length_append, sizes])
  have same : (marker.before ++ marker.quote.opener ++ tail).take (marker.before.length + 3) =
      line.take (marker.before.length + 3) := by
    rw [parts, upTo, upTo]
  have within : position + quote.opener.length ≤ marker.before.length + 3 := by
    rw [sizes]
    exact Nat.add_le_add_right (Nat.le_of_lt bound) 3
  exact first position bound quote ((standsAt_of_take_eq same within).mp stands)

theorem cut_opener {line : List Char} {marker : Marker} (found : leftmost? line = some marker) :
    cut marker.quote.opener line = some (marker.before, marker.tail) := by
  obtain ⟨parts, first⟩ := (leftmost?_eq_some_iff line marker).mp found
  exact (cut_eq_some_iff _ _ _ _).mpr ⟨parts, fun position bound => first position bound marker.quote⟩

end Marker

theorem isBlank_char (quote : Quote) : isBlank quote.char = false := by
  cases quote <;> decide

theorem newline_not_mem_opener (quote : Quote) : '\n' ∉ quote.opener := by
  cases quote <;> decide

theorem newline_not_mem_closer (quote : Quote) : '\n' ∉ quote.closer := by
  cases quote <;> decide

theorem closing?_eq_some_iff (marker : List Char) (lines : List (List Char)) (closing : Closing) :
    closing? marker lines = some closing ↔
      ∃ last lower after, lines = closing.between ++ last :: lower ∧
        (∀ line ∈ closing.between, cut marker line = none) ∧
        cut marker last = some (closing.head, after) := by
  induction lines generalizing closing with
  | nil => simp [closing?]
  | cons line below ih =>
      obtain ⟨between, head⟩ := closing
      rw [closing?]
      cases found : cut marker line with
      | some pair =>
          obtain ⟨here, after⟩ := pair
          simp only [Option.some.injEq, Closing.mk.injEq]
          constructor
          · rintro ⟨rfl, rfl⟩
            exact ⟨line, below, after, rfl, by simp, found⟩
          · rintro ⟨last, lower, rest, parts, unclosed, closes⟩
            cases between with
            | nil =>
                obtain ⟨rfl, rfl⟩ := List.cons.inj parts
                obtain ⟨rfl, -⟩ := Prod.mk.inj (Option.some.inj (found.symm.trans closes))
                exact ⟨rfl, rfl⟩
            | cons first between =>
                obtain ⟨rfl, -⟩ := List.cons.inj parts
                exact absurd (unclosed line List.mem_cons_self) (by simp [found])
      | none =>
          simp only [Option.map_eq_some_iff]
          constructor
          · rintro ⟨later, known, same⟩
            obtain ⟨last, lower, after, parts, unclosed, closes⟩ := (ih later).mp known
            obtain ⟨rfl, rfl⟩ := Closing.mk.inj same
            refine ⟨last, lower, after, by simp [parts], ?_, closes⟩
            intro passed member
            rcases List.mem_cons.mp member with rfl | member
            · exact found
            · exact unclosed passed member
          · rintro ⟨last, lower, after, parts, unclosed, closes⟩
            cases between with
            | nil =>
                obtain ⟨rfl, -⟩ := List.cons.inj parts
                simp [found] at closes
            | cons first between =>
                simp only [List.cons_append, List.cons.injEq] at parts
                obtain ⟨rfl, parts⟩ := parts
                refine ⟨⟨between, head⟩, (ih _).mpr ⟨last, lower, after, parts, ?_, closes⟩, rfl⟩
                intro passed member
                exact unclosed passed (List.mem_cons_of_mem _ member)

/-- A message that starts on a line and ends on one of the lines below it. -/
structure Span (line : List Char) (below : List (List Char)) where
  marker : Marker
  between : List (List Char)
  last : List Char
  lower : List (List Char)
  head : List Char
  after : List Char
  leads : Marker.leftmost? line = some marker
  stays : cut marker.quote.closer marker.tail = none
  parts : below = between ++ last :: lower
  passes : ∀ passed ∈ between, cut marker.quote.closer passed = none
  closes : cut marker.quote.closer last = some (head, after)
  near : between.length < reach

namespace Span

variable {line : List Char} {below : List (List Char)}

def depth (span : Span line below) : Nat :=
  span.between.length + 1

def body (span : Span line below) : List Char :=
  joinLines (span.marker.tail :: span.between ++ [span.head])

def text (span : Span line below) : List Char :=
  singleSpaced span.body

def toBreak (span : Span line below) (file : Path) (number : Nat) : Break :=
  { file := file
    firstLine := number
    lastLine := number + span.depth
    quote := span.marker.quote
    text := span.text
    excerpt := trim (joinLines (line :: below.take span.depth)) }

theorem line_eq (span : Span line below) :
    line = span.marker.before ++ span.marker.quote.opener ++ span.marker.tail :=
  Marker.append_of_leftmost? span.leads

theorem last_eq (span : Span line below) :
    span.last = span.head ++ span.marker.quote.closer ++ span.after :=
  cut_append span.closes

end Span

/-- A break is found exactly where a message spans several lines. -/
theorem breakAt?_eq_some_iff (file : Path) (number : Nat) (line : List Char)
    (below : List (List Char)) (broken : Break) :
    breakAt? file number line below = some broken ↔
      ∃ span : Span line below, broken = span.toBreak file number := by
  simp only [breakAt?, Option.bind_eq_bind, Option.bind_eq_some_iff]
  constructor
  · rintro ⟨marker, leads, found⟩
    split at found
    next => cases found
    next stays =>
      obtain ⟨closing, known, same⟩ := Option.bind_eq_some_iff.mp found
      obtain ⟨last, lower, after, parts, passes, closes⟩ := (closing?_eq_some_iff _ _ _).mp known
      have near : closing.between.length < reach := by
        have bound := congrArg List.length parts
        simp only [List.length_take, List.length_append, List.length_cons] at bound
        omega
      have whole : below = closing.between ++ last :: (lower ++ below.drop reach) := by
        rw [← List.cons_append, ← List.append_assoc, ← parts, List.take_append_drop]
      have unclosed : cut marker.quote.closer marker.tail = none := by
        simpa [occurs] using stays
      refine ⟨⟨marker, closing.between, last, lower ++ below.drop reach, closing.head, after, leads,
        unclosed, whole, passes, closes, near⟩, ?_⟩
      rw [← Option.some.inj same]
      simp only [Span.toBreak, Span.text, Span.body, Span.depth, singleSpaced_intercalate_space]
  · rintro ⟨span, rfl⟩
    refine ⟨span.marker, span.leads, ?_⟩
    have stays : ¬ occurs span.marker.quote.closer span.marker.tail = true := by
      simp [occurs, span.stays]
    have known : closing? span.marker.quote.closer (below.take reach) =
        some { between := span.between, head := span.head } := by
      refine (closing?_eq_some_iff _ _ _).mpr
        ⟨span.last, span.lower.take (reach - (span.between.length + 1)), span.after, ?_, span.passes,
          span.closes⟩
      have near := span.near
      conv_lhs => rw [span.parts]
      rw [List.take_append, List.take_of_length_le (by omega),
        show reach - span.between.length = (reach - (span.between.length + 1)) + 1 by omega,
        List.take_succ_cons]
    rw [if_neg stays, known]
    simp only [Option.bind_some, Span.toBreak, Span.text, Span.body, Span.depth,
      singleSpaced_intercalate_space]

end Unbroken
