import Mathlib.Data.List.Nodup
import Unbroken.Proofs.RawText

/-! The survey of a text finds exactly the breaks that can be read off the text as a whole. -/

namespace Unbroken

theorem mem_breaksFrom_iff (file : Path) (number : Nat) (lines : List (List Char)) (broken : Break) :
    broken ∈ breaksFrom file number lines ↔
      ∃ above line below, lines = above ++ line :: below ∧
        breakAt? file (number + above.length) line below = some broken := by
  induction lines generalizing number with
  | nil => simp [breaksFrom]
  | cons first others ih =>
      rw [breaksFrom, List.mem_append, Option.mem_toList, ih]
      constructor
      · rintro (here | ⟨above, line, below, rfl, found⟩)
        · exact ⟨[], first, others, rfl, here⟩
        · exact ⟨first :: above, line, below, rfl, by
            rwa [List.length_cons, Nat.add_comm above.length, ← Nat.add_assoc]⟩
      · rintro ⟨above, line, below, parts, found⟩
        cases above with
        | nil =>
            obtain ⟨rfl, rfl⟩ := List.cons.inj parts
            exact Or.inl found
        | cons head above =>
            obtain ⟨rfl, rfl⟩ := List.cons.inj parts
            refine Or.inr ⟨above, line, below, rfl, ?_⟩
            rwa [Nat.add_assoc, Nat.add_comm 1, ← List.length_cons]

theorem firstLine_of_breakAt? {file : Path} {number : Nat} {line : List Char}
    {below : List (List Char)} {broken : Break}
    (found : breakAt? file number line below = some broken) : broken.firstLine = number := by
  obtain ⟨span, rfl⟩ := (breakAt?_eq_some_iff _ _ _ _ _).mp found
  rfl

theorem le_firstLine_of_mem_breaksFrom {file : Path} {number : Nat} {lines : List (List Char)}
    {broken : Break} (member : broken ∈ breaksFrom file number lines) :
    number ≤ broken.firstLine := by
  obtain ⟨above, line, below, -, found⟩ := (mem_breaksFrom_iff _ _ _ _).mp member
  rw [firstLine_of_breakAt? found]
  exact Nat.le_add_right number above.length

theorem breaksFrom_ascending (file : Path) (number : Nat) (lines : List (List Char)) :
    (breaksFrom file number lines).Pairwise fun left right => left.firstLine < right.firstLine := by
  induction lines generalizing number with
  | nil => simp [breaksFrom]
  | cons line below ih =>
      rw [breaksFrom]
      cases here : breakAt? file number line below with
      | none => simpa using ih (number + 1)
      | some broken =>
          rw [Option.toList_some, List.singleton_append, List.pairwise_cons]
          refine ⟨?_, ih (number + 1)⟩
          intro lower member
          have later := le_firstLine_of_mem_breaksFrom member
          rw [firstLine_of_breakAt? here]
          omega

theorem breaksIn_ascending (file : Path) (text : List Char) :
    (breaksIn file text).Pairwise fun left right => left.firstLine < right.firstLine :=
  breaksFrom_ascending file 1 _

theorem eq_of_firstLine_eq {file : Path} {text : List Char} {left right : Break}
    (leftMember : left ∈ breaksIn file text) (rightMember : right ∈ breaksIn file text)
    (same : left.firstLine = right.firstLine) : left = right := by
  have distinct : ((breaksIn file text).map Break.firstLine).Nodup :=
    List.pairwise_map.mpr ((breaksIn_ascending file text).imp Nat.ne_of_lt)
  exact List.inj_on_of_nodup_map distinct leftMember rightMember same

theorem exists_span_of_mem_breaksIn {file : Path} {text : List Char} {broken : Break}
    (member : broken ∈ breaksIn file text) :
    ∃ above line below, splitLines text = above ++ line :: below ∧
      ∃ span : Span line below, broken = span.toBreak file (above.length + 1) := by
  rw [breaksIn, Template.breaks, mem_breaksFrom_iff] at member
  obtain ⟨above, line, below, parts, found⟩ := member
  rw [Nat.add_comm, breakAt?_eq_some_iff] at found
  exact ⟨above, line, below, parts, found⟩

theorem newline_not_mem_message_rows {line head after last : List Char}
    {below between lower : List (List Char)} {marker : Marker} {closer : List Char}
    (whole : ∀ other ∈ line :: below, '\n' ∉ other) (leads : Marker.leftmost? line = some marker)
    (parts : below = between ++ last :: lower) (closes : cut closer last = some (head, after)) :
    ∀ row ∈ marker.tail :: between ++ [head], '\n' ∉ row := by
  subst parts
  intro row member inside
  simp only [List.cons_append, List.mem_cons, List.mem_append, List.not_mem_nil, or_false] at member
  rcases member with rfl | member | rfl
  · refine whole line List.mem_cons_self ?_
    rw [Marker.append_of_leftmost? leads]
    exact List.mem_append_right _ inside
  · exact whole row (by simp [member]) inside
  · refine whole last (by simp) ?_
    rw [cut_append closes, List.append_assoc]
    exact List.mem_append_left _ inside

namespace Span

variable {line : List Char} {below : List (List Char)}

theorem count_newline_body (span : Span line below)
    (whole : ∀ other ∈ line :: below, '\n' ∉ other) : span.body.count '\n' = span.depth := by
  have lines := count_newline_joinLines (by simp)
    (newline_not_mem_message_rows whole span.leads span.parts span.closes)
  simp only [body, depth]
  simp only [List.cons_append, List.length_cons, List.length_append, List.length_nil] at lines
  simpa using lines

theorem cut_closer (span : Span line below) :
    cut span.marker.quote.closer (joinLines (span.marker.tail :: below)) =
      some (span.body, joinLines (span.after :: span.lower)) := by
  refine (cut_joinLines_eq_some_iff (newline_not_mem_closer _) (by simp) _ _).mpr
    ⟨span.marker.tail :: span.between, span.last, span.lower, span.head, span.after,
      by simp [span.parts], ?_, span.closes, rfl, rfl⟩
  intro passed member
  rcases List.mem_cons.mp member with rfl | member
  · exact span.stays
  · exact span.passes passed member

/-- A break is where, in the text from the marker's tail on, the first closing marker lies below
the first line but not out of reach. -/
theorem exists_toBreak_iff (file : Path) (number : Nat)
    (whole : ∀ other ∈ line :: below, '\n' ∉ other) (broken : Break) :
    (∃ span : Span line below, broken = span.toBreak file number) ↔
      ∃ marker body after, Marker.leftmost? line = some marker ∧
        cut marker.quote.closer (joinLines (marker.tail :: below)) = some (body, after) ∧
        1 ≤ body.count '\n' ∧ body.count '\n' ≤ reach ∧
        broken = {
          file := file
          firstLine := number
          lastLine := number + body.count '\n'
          quote := marker.quote
          text := singleSpaced body
          excerpt := trim (joinLines (line :: below.take (body.count '\n'))) } := by
  constructor
  · rintro ⟨span, rfl⟩
    have crossed := span.count_newline_body whole
    refine ⟨span.marker, span.body, joinLines (span.after :: span.lower), span.leads, span.cut_closer,
      ?_, ?_, ?_⟩
    · simp [crossed, depth]
    · have near := span.near
      simp only [crossed, depth]
      omega
    · rw [crossed]
      rfl
  · rintro ⟨marker, body, after, leads, found, crosses, near, rfl⟩
    obtain ⟨between, last, lower, head, rest, parts, passes, closes, rfl, rfl⟩ :=
      (cut_joinLines_eq_some_iff (newline_not_mem_closer _) (by simp) _ _).mp found
    cases between with
    | nil =>
        obtain ⟨rfl, rfl⟩ := List.cons.inj parts
        have none : head.count '\n' = 0 := by
          refine List.count_eq_zero.mpr fun inside => whole line List.mem_cons_self ?_
          rw [Marker.append_of_leftmost? leads, cut_append closes, List.append_assoc head]
          exact List.mem_append_right _ (List.mem_append_left _ inside)
        simp [none] at crosses
    | cons first between =>
        simp only [List.cons_append, List.cons.injEq] at parts
        obtain ⟨rfl, parts⟩ := parts
        have crossed := count_newline_joinLines (by simp)
          (newline_not_mem_message_rows whole leads parts closes)
        simp only [List.cons_append, List.length_cons, List.length_append, List.length_nil] at crossed
        refine ⟨⟨marker, between, last, lower, head, rest, leads, passes _ List.mem_cons_self, parts,
          fun passed member => passes passed (List.mem_cons_of_mem _ member), closes, ?_⟩, ?_⟩
        · simp only [List.cons_append] at near
          omega
        · have depth : (joinLines (marker.tail :: (between ++ [head]))).count '\n' =
              between.length + 1 := by omega
          simp only [List.cons_append, depth]
          rfl

end Span

theorem drop_behind_marker {line : List Char} {marker : Marker} (above below : List (List Char))
    (leads : Marker.leftmost? line = some marker) :
    (joinLines (above ++ line :: below)).drop ((rows above).length + marker.before.length + 3) =
      joinLines (marker.tail :: below) := by
  have size : marker.quote.opener.length = 3 := rfl
  have parts : joinLines (line :: below) =
      (marker.before ++ marker.quote.opener) ++ joinLines (marker.tail :: below) := by
    rw [← joinLines_append_head, ← Marker.append_of_leftmost? leads]
  rw [joinLines_append_cons, parts, ← List.append_assoc]
  exact List.drop_left' (by simp only [List.length_append, size]; omega)

theorem slice_of_cut {pattern text body after : List Char} {start : Nat}
    (found : cut pattern (text.drop start) = some (body, after)) :
    (text.take (start + body.length)).drop start = body := by
  rw [List.drop_take, Nat.add_sub_cancel_left, cut_append found, List.append_assoc]
  exact List.take_left

theorem whole_of_splitLines {text line : List Char} {above below : List (List Char)}
    (parts : splitLines text = above ++ line :: below) :
    (∀ other ∈ above ++ line :: below, '\n' ∉ other) ∧
      joinLines (above ++ line :: below) = text := by
  rw [← parts]
  exact ⟨fun other member => newline_not_mem_of_mem_splitLines member, joinLines_splitLines text⟩

theorem mem_breaksIn_iff (file : Path) (text : List Char) (broken : Break) :
    broken ∈ breaksIn file text ↔
      ∃ above line below, splitLines text = above ++ line :: below ∧
        ∃ marker body after, Marker.leftmost? line = some marker ∧
          cut marker.quote.closer (joinLines (marker.tail :: below)) = some (body, after) ∧
          1 ≤ body.count '\n' ∧ body.count '\n' ≤ reach ∧
          broken = {
            file := file
            firstLine := above.length + 1
            lastLine := above.length + 1 + body.count '\n'
            quote := marker.quote
            text := singleSpaced body
            excerpt := trim (joinLines (line :: below.take (body.count '\n'))) } := by
  rw [breaksIn, Template.breaks, Template.ofText, mem_breaksFrom_iff]
  refine exists_congr fun above => exists_congr fun line => exists_congr fun below => ?_
  refine and_congr_right fun parts => ?_
  have whole : ∀ other ∈ line :: below, '\n' ∉ other := fun other member =>
    (whole_of_splitLines parts).1 other (List.mem_append_right _ member)
  rw [breakAt?_eq_some_iff, Span.exists_toBreak_iff file _ whole, Nat.add_comm 1]

theorem exists_splitLines_at {text : List Char} {number : Nat} (positive : 0 < number)
    (bound : number ≤ (splitLines text).length) :
    ∃ above line below, splitLines text = above ++ line :: below ∧ number = above.length + 1 := by
  have inside : number - 1 < (splitLines text).length := by omega
  refine ⟨(splitLines text).take (number - 1), (splitLines text)[number - 1],
    (splitLines text).drop (number - 1 + 1), ?_, ?_⟩
  · rw [List.getElem_cons_drop, List.take_append_drop]
  · rw [List.length_take]
    omega

theorem mem_breaksIn_iff_markers (file : Path) (text : List Char) (broken : Break) :
    broken ∈ breaksIn file text ↔
      ∃ opening closing, Opens text broken.firstLine broken.quote opening ∧
        Closes text broken.quote (opening + 3) closing ∧
        let body := (text.take closing).drop (opening + 3)
        1 ≤ body.count '\n' ∧ body.count '\n' ≤ reach ∧
        broken = {
          file := file
          firstLine := broken.firstLine
          lastLine := broken.firstLine + body.count '\n'
          quote := broken.quote
          text := singleSpaced body
          excerpt := trim (joinLines
            (((splitLines text).drop (broken.firstLine - 1)).take (body.count '\n' + 1))) } := by
  have excerpt : ∀ (above : List (List Char)) line below count,
      ((above ++ line :: below).drop (above.length + 1 - 1)).take (count + 1) =
        line :: below.take count := by
    intro above line below count
    rw [Nat.add_sub_cancel, List.drop_left, List.take_succ_cons]
  rw [mem_breaksIn_iff]
  constructor
  · rintro ⟨above, line, below, parts, marker, body, after, leads, closes, crosses, near, rfl⟩
    obtain ⟨whole, joined⟩ := whole_of_splitLines parts
    have opens := (opens_iff whole marker.quote _).mpr ⟨marker, leads, rfl, rfl⟩
    rw [← drop_behind_marker above below leads] at closes
    have slice := slice_of_cut closes
    have closing := (closes_iff_cut _ marker.quote _ _).mpr ⟨body, after, closes, rfl⟩
    rw [joined] at opens closing slice
    refine ⟨_, _, opens, closing, ?_⟩
    simp only [slice, parts, excerpt]
    exact ⟨crosses, near, trivial⟩
  · rintro ⟨opening, closing, opens, closes, crosses, near, same⟩
    have positive : 0 < broken.firstLine := by
      rw [← opens.onLine]
      exact Nat.succ_pos _
    have bound : broken.firstLine ≤ (splitLines text).length := by
      rw [length_splitLines, ← opens.onLine, lineOf]
      exact Nat.succ_le_succ (( List.take_prefix opening text).sublist.count_le '\n')
    obtain ⟨above, line, below, parts, number⟩ := exists_splitLines_at positive bound
    obtain ⟨whole, joined⟩ := whole_of_splitLines parts
    rw [number, ← joined] at opens
    obtain ⟨marker, leads, quote, rfl⟩ := (opens_iff whole _ _).mp opens
    obtain ⟨body, after, found, rfl⟩ := (closes_iff_cut _ _ _ _).mp closes
    rw [slice_of_cut found] at crosses near same
    rw [← joined, drop_behind_marker above below leads, ← quote] at found
    refine ⟨above, line, below, parts, marker, body, after, leads, found, crosses, near, ?_⟩
    rw [same]
    simp only [parts, number, quote, excerpt]

/-- A break starts on a line just if the first closing marker behind the line's leftmost opening
marker lies one to nine lines below. Its text is the slice between the two markers with every run of
blanks made one space and the ends trimmed, and no line has two breaks. -/
theorem breaksIn_exact (file : Path) (text : List Char) :
    (∀ broken, broken ∈ breaksIn file text ↔
      ∃ opening closing, Opens text broken.firstLine broken.quote opening ∧
        Closes text broken.quote (opening + 3) closing ∧
        let body := (text.take closing).drop (opening + 3)
        1 ≤ body.count '\n' ∧ body.count '\n' ≤ 9 ∧
        broken = {
          file := file
          firstLine := broken.firstLine
          lastLine := broken.firstLine + body.count '\n'
          quote := broken.quote
          text := trim (squeezed false body)
          excerpt := trim (joinLines
            (((splitLines text).drop (broken.firstLine - 1)).take (body.count '\n' + 1))) }) ∧
      (breaksIn file text).Pairwise fun left right => left.firstLine < right.firstLine := by
  refine ⟨?_, breaksFrom_ascending file 1 _⟩
  intro broken
  rw [mem_breaksIn_iff_markers]
  simp only [singleSpaced_eq_trim, reach]

end Unbroken
