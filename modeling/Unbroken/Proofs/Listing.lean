import Mathlib.Algebra.Ring.Nat
import Unbroken.Message
import Unbroken.Proofs.Survey

/-! What a listing shows of the breaks that were found. The excerpt of a break is trimmed and later split
into lines again, but it begins with the line of an opening marker and ends with that of a closing one,
so no line of it is trimmed away and the numbers stay right. -/

namespace Unbroken

theorem trimStart_append_cons {letter : Char} (visible : isBlank letter = false)
    (before rest : List Char) :
    trimStart (before ++ letter :: rest) = trimStart before ++ letter :: rest := by
  have stays : trimStart (letter :: rest) = letter :: rest := by
    rw [trimStart, List.dropWhile_cons_of_neg (by simp [visible])]
  rw [trimStart, List.dropWhile_append]
  split
  next gone =>
    rw [trimStart, List.isEmpty_iff.mp gone]
    exact stays
  next => rfl

theorem trimStart_joinLines {letter : Char} (visible : isBlank letter = false)
    (before rest : List Char) (below : List (List Char)) :
    trimStart (joinLines ((before ++ letter :: rest) :: below)) =
      joinLines (trimStart (before ++ letter :: rest) :: below) := by
  have head : joinLines ((letter :: rest) :: below) = letter :: joinLines (rest :: below) :=
    joinLines_append_head [letter] rest below
  rw [joinLines_append_head, head, trimStart_append_cons visible, trimStart_append_cons visible,
    joinLines_append_head, head]

theorem trimEnd_joinLines {letter : Char} (visible : isBlank letter = false)
    (above : List (List Char)) (before rest : List Char) :
    trimEnd (joinLines (above ++ [before ++ letter :: rest])) =
      joinLines (above ++ [trimEnd (before ++ letter :: rest)]) := by
  simp only [joinLines_append_cons, joinLines_singleton, trimEnd_append_cons visible,
    ← List.append_assoc]

namespace Span

variable {line : List Char} {below : List (List Char)}

theorem take_depth (span : Span line below) : below.take span.depth = span.between ++ [span.last] := by
  have parts : below = (span.between ++ [span.last]) ++ span.lower := by
    rw [List.append_assoc, List.singleton_append]
    exact span.parts
  rw [congrArg (List.take _) parts]
  exact List.take_left' (by simp [depth])

theorem trimStart_joinLines (span : Span line below) (rows : List (List Char)) :
    trimStart (joinLines (line :: rows)) = joinLines (trimStart line :: rows) := by
  rw [span.line_eq, List.append_assoc]
  exact Unbroken.trimStart_joinLines (by decide) _ _ rows

theorem trimEnd_joinLines (span : Span line below) (rows : List (List Char)) :
    trimEnd (joinLines (rows ++ [span.last])) = joinLines (rows ++ [trimEnd span.last]) := by
  rw [span.last_eq, List.append_assoc]
  exact Unbroken.trimEnd_joinLines (isBlank_char _) rows _ _

theorem splitLines_excerpt (span : Span line below) (file : Path) (number : Nat)
    (whole : ∀ other ∈ line :: below, '\n' ∉ other) :
    splitLines (span.toBreak file number).excerpt =
      trimStart line :: span.between ++ [trimEnd span.last] := by
  have joined : (span.toBreak file number).excerpt =
      joinLines (trimStart line :: span.between ++ [trimEnd span.last]) := by
    rw [toBreak, take_depth, trim, span.trimStart_joinLines, ← List.cons_append,
      span.trimEnd_joinLines]
  rw [joined]
  apply splitLines_joinLines (by simp)
  have flat : ∀ other ∈ span.between ++ span.last :: span.lower, '\n' ∉ other := by
    rw [← span.parts]
    exact fun other member => whole other (List.mem_cons_of_mem _ member)
  intro row member inside
  simp only [List.cons_append, List.mem_cons, List.mem_append, List.not_mem_nil, or_false] at member
  rcases member with rfl | member | rfl
  · exact whole line List.mem_cons_self ((List.dropWhile_suffix isBlank).subset inside)
  · exact flat row (List.mem_append_left _ member) inside
  · exact flat span.last (by simp) ((trimEnd_starts span.last).subset inside)

end Span

namespace Break

theorem map_fst_numberedLines (broken : Break) : broken.numberedLines.map Prod.fst =
    List.range' broken.firstLine (splitLines broken.excerpt).length := by
  apply List.ext_getElem <;> simp [numberedLines]

theorem map_snd_numberedLines (broken : Break) :
    broken.numberedLines.map Prod.snd = splitLines broken.excerpt := by
  apply List.ext_getElem <;> simp [numberedLines]

theorem length_entry (position : Nat) (broken : Break) :
    (broken.entry position).length = broken.numberedLines.length + 3 := by
  simp only [entry, List.length_append, List.length_cons, List.length_nil, List.length_map]
  omega

theorem filter_entry (position : Nat) (broken : Break) :
    (broken.entry position).filter (fun message => message.severity = .warn) =
      broken.numberedLines.map fun (number, line) => .warn (numbered number line) := by
  have shown : ∀ lines : List (Nat × List Char),
      (lines.map fun (number, line) => Message.warn (numbered number line)).filter
        (fun message => message.severity = .warn) =
          lines.map fun (number, line) => Message.warn (numbered number line) := by
    intro lines
    rw [List.filter_eq_self]
    intro message member
    obtain ⟨⟨number, line⟩, -, rfl⟩ := List.mem_map.mp member
    rfl
  rw [entry, List.filter_append, List.filter_append, shown]
  simp [Message.info]

end Break

/-- The lines that a break spans in a text, as a listing shows them under their numbers: the first without
the blanks that lead it, the last without those that end it, and those between as they are. -/
structure Shown (text : List Char) (broken : Break) (first : List Char) (between : List (List Char))
    (last : List Char) : Prop where
  counted : 0 < broken.firstLine
  long : broken.firstLine < broken.lastLine
  spanned : ((splitLines text).drop (broken.firstLine - 1)).take
    (broken.lastLine - broken.firstLine + 1) = first :: between ++ [last]
  numbers : broken.numberedLines.map Prod.fst =
    List.range' broken.firstLine (broken.lastLine - broken.firstLine + 1)
  lines : broken.numberedLines.map Prod.snd = trimStart first :: between ++ [trimEnd last]

theorem exists_shown_of_mem_breaksIn {file : Path} {text : List Char} {broken : Break}
    (member : broken ∈ breaksIn file text) :
    ∃ first between last, Shown text broken first between last := by
  obtain ⟨above, line, below, parts, span, rfl⟩ := exists_span_of_mem_breaksIn member
  have whole : ∀ other ∈ line :: below, '\n' ∉ other := fun other inside =>
    (whole_of_splitLines parts).1 other (List.mem_append_right _ inside)
  have shown := span.splitLines_excerpt file (above.length + 1) whole
  have depth : (span.toBreak file (above.length + 1)).lastLine -
      (span.toBreak file (above.length + 1)).firstLine = span.depth := by
    simp [Span.toBreak]
  refine ⟨line, span.between, span.last, Nat.succ_pos _, ?_, ?_, ?_, ?_⟩
  · simp [Span.toBreak, Span.depth]
  · rw [depth, parts, Span.toBreak, Nat.add_sub_cancel, List.drop_left, List.take_succ_cons,
      span.take_depth, List.cons_append]
  · rw [depth, Break.map_fst_numberedLines, shown]
    simp [Span.depth]
  · rw [Break.map_snd_numberedLines, shown]

/-- The messages that tell of one break: one for each of its lines, under its number, and three more. -/
structure Tells (broken : Break) (told : List Message) : Prop where
  length : told.length = broken.lastLine - broken.firstLine + 4
  warnings : told.filter (fun message => message.severity = .warn) =
    broken.numberedLines.map fun (number, line) =>
      .warn ("   " ++ toString number ++ ": " ++ String.ofList line)

theorem tells_entry {file : Path} {text : List Char} {broken : Break}
    (member : broken ∈ breaksIn file text) (position : Nat) : Tells broken (broken.entry position) where
  length := by
    obtain ⟨first, between, last, shown⟩ := exists_shown_of_mem_breaksIn member
    have size := congrArg List.length shown.numbers
    rw [List.length_map, List.length_range'] at size
    rw [Break.length_entry, size]
  warnings := broken.filter_entry position

theorem sum_length_of_tells {breaks : List Break} {told : List (List Message)}
    (tells : List.Forall₂ Tells breaks told) : told.flatten.length =
      (breaks.map fun broken => broken.lastLine - broken.firstLine + 4).sum := by
  induction tells with
  | nil => rfl
  | cons here _ ih => rw [List.flatten_cons, List.length_append, here.length, ih, List.map_cons, List.sum_cons]

/-- A break is shown with all its lines, each once and under its own number. Of breaks that were found in
whatever texts, a listing says first how many they are. Then it tells of each, with three messages and one
more for every line. -/
theorem listing_shows_lines :
    (∀ file text, ∀ broken ∈ breaksIn file text,
      ∃ first between last, Shown text broken first between last) ∧
      ∀ breaks : List Break, (∀ broken ∈ breaks, ∃ file text, broken ∈ breaksIn file text) →
        ∃ told : List (List Message),
          listing breaks = .error ("\nFound " ++ toString breaks.length ++
            " multi-line translation string(s):\n") :: told.flatten ∧
          List.Forall₂ Tells breaks told ∧
          (listing breaks).length =
            1 + (breaks.map fun broken => broken.lastLine - broken.firstLine + 4).sum := by
  refine ⟨fun file text broken => exists_shown_of_mem_breaksIn, ?_⟩
  intro breaks found
  have tells : List.Forall₂ Tells breaks (breaks.mapIdx fun index broken => broken.entry (index + 1)) := by
    refine List.forall₂_iff_get.mpr ⟨List.length_mapIdx.symm, ?_⟩
    intro index bound _
    obtain ⟨file, text, member⟩ := found _ (List.get_mem breaks ⟨index, bound⟩)
    simpa using tells_entry member (index + 1)
  refine ⟨_, rfl, tells, ?_⟩
  rw [listing, List.length_cons, sum_length_of_tells tells, Nat.add_comm]

/-- A break of three lines, of which the first is set in and the second is blank. -/
theorem listing_shows_lines_page :
    let text := "x\n  _(\"a\n \r\nb\") \n".toList
    let broken : Break := ⟨⟨"page"⟩, 2, 4, .double, "a b".toList, "_(\"a\n \r\nb\")".toList⟩
    broken ∈ breaksIn ⟨"page"⟩ text ∧ broken.numberedLines.map Prod.fst = [2, 3, 4] ∧
      broken.numberedLines.map Prod.snd = ["_(\"a".toList, " \r".toList, "b\")".toList] ∧
      (listing [broken]).length = 7 := by
  intro text broken
  have found : broken ∈ breaksIn ⟨"page"⟩ text := by decide
  obtain ⟨lines, report⟩ := listing_shows_lines
  obtain ⟨first, between, last, shown⟩ := lines _ _ broken found
  obtain ⟨told, -, -, size⟩ := report [broken] (by
    intro other member
    obtain rfl := List.mem_singleton.mp member
    exact ⟨_, _, found⟩)
  exact ⟨found, shown.numbers, by decide, size⟩

end Unbroken
