import Unbroken.Proofs.Frame

/-! How the breaks of a text lie to each other. A message closes at the first closing marker below its line,
so one that starts inside another of its quote closes at the same marker. Breaks of one quote are therefore
nested in each other, or have no more than a boundary line in common. -/

namespace Unbroken

/-- A break that starts inside another one and ends with it. -/
def Break.Encloses (outer inner : Break) : Prop :=
  outer.firstLine < inner.firstLine ∧ inner.firstLine < outer.lastLine ∧ inner.lastLine = outer.lastLine

namespace Span

variable {line first : List Char} {below rest skipped : List (List Char)}

theorem closing?_eq (span : Span line below) :
    closing? span.marker.quote.closer below = some { between := span.between, head := span.head } :=
  (closing?_eq_some_iff _ _ _).mpr
    ⟨span.last, span.lower, span.after, span.parts, span.passes, span.closes⟩

theorem passes_of_inside (outer : Span line below) (split : below = skipped ++ first :: rest)
    (inside : skipped.length < outer.between.length) :
    ∀ passed ∈ skipped ++ [first], cut outer.marker.quote.closer passed = none := by
  have upper : skipped ++ [first] <+: below :=
    ⟨rest, by rw [split, List.append_assoc, List.singleton_append]⟩
  have between : outer.between <+: below := ⟨outer.last :: outer.lower, outer.parts.symm⟩
  have starts : skipped ++ [first] <+: outer.between := by
    refine List.prefix_of_prefix_length_le upper between ?_
    rw [List.length_append, List.length_singleton]
    exact inside
  exact fun passed member => outer.passes passed (starts.subset member)

theorem closing_eq_of_inside (outer : Span line below) (split : below = skipped ++ first :: rest)
    (inside : skipped.length < outer.between.length) (inner : Span first rest)
    (same : outer.marker.quote = inner.marker.quote) :
    outer.between = skipped ++ first :: inner.between ∧ outer.head = inner.head := by
  have parts : below = (skipped ++ first :: inner.between) ++ inner.last :: inner.lower := by
    rw [List.append_assoc, List.cons_append, ← inner.parts]
    exact split
  have passes : ∀ passed ∈ skipped ++ first :: inner.between,
      cut outer.marker.quote.closer passed = none := by
    intro passed member
    rw [List.append_cons, List.mem_append] at member
    rcases member with upper | lower
    · exact outer.passes_of_inside split inside passed upper
    · rw [same]
      exact inner.passes passed lower
  have closes : cut outer.marker.quote.closer inner.last = some (inner.head, inner.after) := by
    rw [same]
    exact inner.closes
  have found : closing? outer.marker.quote.closer below =
      some { between := skipped ++ first :: inner.between, head := inner.head } :=
    (closing?_eq_some_iff _ _ _).mpr ⟨inner.last, inner.lower, inner.after, parts, passes, closes⟩
  -- The search below the outer line has one result, and each of the two messages describes it.
  exact Closing.mk.inj (Option.some.inj (outer.closing?_eq.symm.trans found))

end Span

section

variable {file : Path} {text : List Char}

theorem reached_of_mem_breaksIn {broken : Break} (member : broken ∈ breaksIn file text) :
    broken.lastLine ≤ (splitLines text).length ∧ broken.lastLine - broken.firstLine ≤ reach := by
  obtain ⟨above, line, below, parts, span, rfl⟩ := exists_span_of_mem_breaksIn member
  have lines := congrArg List.length parts
  have lower := congrArg List.length span.parts
  have near := span.near
  simp only [List.length_append, List.length_cons] at lines lower
  simp only [Span.toBreak, Span.depth]
  omega

theorem lastLine_eq_of_inside {outer inner : Break} (outerMember : outer ∈ breaksIn file text)
    (innerMember : inner ∈ breaksIn file text) (same : outer.quote = inner.quote)
    (ordered : outer.firstLine < inner.firstLine) (inside : inner.firstLine < outer.lastLine) :
    inner.lastLine = outer.lastLine := by
  obtain ⟨above, line, below, parts, span, rfl⟩ := exists_span_of_mem_breaksIn outerMember
  obtain ⟨higher, first, rest, others, inner, rfl⟩ := exists_span_of_mem_breaksIn innerMember
  simp only [Span.toBreak, Span.depth] at same ordered inside ⊢
  obtain ⟨skipped, rfl, split⟩ : ∃ skipped, higher = above ++ line :: skipped ∧
      below = skipped ++ first :: rest := by
    rcases append_cons_cases (parts.symm.trans others) with ⟨rfl, -, -⟩ | lower | ⟨more, rfl, -⟩
    · exact absurd ordered (Nat.lt_irrefl _)
    · exact lower
    · rw [List.length_append] at ordered
      omega
  simp only [List.length_append, List.length_cons] at inside ⊢
  obtain ⟨between, -⟩ := span.closing_eq_of_inside split (by omega) inner same
  have depth := congrArg List.length between
  simp only [List.length_append, List.length_cons] at depth
  omega

end

/-- The breaks of a text start on lines of their own, from the top down, and run over two to ten lines of
the text. Of two that have one quote, the lower one ends with the upper one if it starts inside it. So the
upper one encloses the lower one or lies above it, and never ends below it. -/
theorem breaksIn_nested (file : Path) (text : List Char) :
    let breaks := breaksIn file text
    breaks.Pairwise (fun upper lower => upper.firstLine < lower.firstLine) ∧
      (∀ broken ∈ breaks, 1 ≤ broken.firstLine ∧ broken.firstLine < broken.lastLine ∧
        broken.lastLine ≤ (Template.ofText text).lines.length ∧
        broken.lastLine - broken.firstLine ≤ 9) ∧
      ∀ upper ∈ breaks, ∀ lower ∈ breaks, upper.firstLine < lower.firstLine →
        upper.quote = lower.quote →
          (lower.firstLine < upper.lastLine → lower.lastLine = upper.lastLine) ∧
          (upper.Encloses lower ∨ upper.Above lower) ∧ upper.lastLine ≤ lower.lastLine := by
  intro breaks
  refine ⟨breaksIn_ascending file text, ?_, ?_⟩
  · intro broken member
    have proper := proper_of_mem_breaksIn member
    exact ⟨proper.counted, proper.long, reached_of_mem_breaksIn member⟩
  · intro upper upperMember lower lowerMember ordered same
    have closesWith := lastLine_eq_of_inside upperMember lowerMember same ordered
    refine ⟨closesWith, ?_⟩
    rcases Nat.lt_or_ge lower.firstLine upper.lastLine with inside | outside
    · have last := closesWith inside
      exact ⟨Or.inl ⟨ordered, inside, last⟩, last.ge⟩
    · have long := (proper_of_mem_breaksIn lowerMember).long
      exact ⟨Or.inr ⟨ordered, outside⟩, by omega⟩

/-- Two nested breaks, and one of the other quote that starts inside the first and ends below it. -/
theorem breaksIn_nested_page :
    let text := "_(\"a\n_('b\n_(\"c\nd\")\ne')".toList
    let outer : Break := ⟨⟨"page"⟩, 1, 4, .double, "a _('b _(\"c d".toList, "_(\"a\n_('b\n_(\"c\nd\")".toList⟩
    let other : Break := ⟨⟨"page"⟩, 2, 5, .single, "b _(\"c d\") e".toList, "_('b\n_(\"c\nd\")\ne')".toList⟩
    let inner : Break := ⟨⟨"page"⟩, 3, 4, .double, "c d".toList, "_(\"c\nd\")".toList⟩
    breaksIn ⟨"page"⟩ text = [outer, other, inner] ∧ inner.lastLine = outer.lastLine ∧
      (outer.Encloses inner ∨ outer.Above inner) ∧ ¬ (outer.Encloses other ∨ outer.Above other) := by
  intro text outer other inner
  have found : breaksIn ⟨"page"⟩ text = [outer, other, inner] := by decide
  obtain ⟨-, -, pairs⟩ := breaksIn_nested ⟨"page"⟩ text
  obtain ⟨closesWith, nested, -⟩ :=
    pairs outer (by simp [found]) inner (by simp [found]) (by decide) rfl
  refine ⟨found, closesWith (by decide), nested, ?_⟩
  rintro (⟨-, -, last⟩ | ⟨-, apart⟩)
  · exact absurd last (by decide)
  · exact absurd apart (by decide)

end Unbroken
