import Unbroken.Proofs.Gap
import Unbroken.Proofs.InPlace
import Unbroken.Proofs.OpenLines

/-! What a survey finds after one break was mended alone. The lines above the break and below it are still
there, and whether a break starts on a line is told by that line and those below it, up to where the
break ends. So the breaks below the mended one only come up, those that end above it stay as they are,
and the line that it was put on has none. -/

namespace Unbroken

theorem filter_breaksFrom_append (file : Path) (below : List (List Char)) {number last : Nat}
    {above : List (List Char)} (place : number + above.length = last + 1) :
    (breaksFrom file number (above ++ below)).filter (fun broken => last < broken.firstLine) =
      breaksFrom file (last + 1) below := by
  induction above generalizing number with
  | nil =>
      obtain rfl : number = last + 1 := place
      apply List.filter_eq_self.mpr
      intro broken member
      exact decide_eq_true (le_firstLine_of_mem_breaksFrom member)
  | cons line above ih =>
      rw [List.length_cons] at place
      have higher : (breakAt? file number line (above ++ below)).toList.filter
          (fun broken => last < broken.firstLine) = [] := by
        apply List.filter_eq_nil_iff.mpr
        intro broken found
        rw [firstLine_of_breakAt? (Option.mem_toList.mp found), decide_eq_true_eq]
        omega
      rw [List.cons_append, breaksFrom, List.filter_append, higher, List.nil_append]
      apply ih
      omega

theorem Span.below_toBreak_add {line : List Char} {below : List (List Char)} (span : Span line below)
    (file : Path) (number taken : Nat) :
    (span.toBreak file (number + taken)).below taken = span.toBreak file number := by
  simp only [toBreak, Break.below, Break.mk.injEq, true_and, and_true]
  omega

theorem map_below_breaksFrom (file : Path) (number taken : Nat) (lines : List (List Char)) :
    (breaksFrom file (number + taken) lines).map (Break.below taken) = breaksFrom file number lines := by
  induction lines generalizing number with
  | nil => rfl
  | cons line below ih =>
      have lower := ih (number + 1)
      rw [Nat.add_right_comm] at lower
      rw [breaksFrom, breaksFrom, List.map_append, lower]
      congr 1
      cases found : breakAt? file number line below with
      | none =>
          rw [breakAt?_eq_none_iff] at found
          rw [(breakAt?_eq_none_iff _ _ _ _).mpr found]
          rfl
      | some broken =>
          obtain ⟨span, rfl⟩ := (breakAt?_eq_some_iff _ _ _ _ _).mp found
          rw [(breakAt?_eq_some_iff _ _ _ _ _).mpr ⟨span, rfl⟩]
          exact congrArg (fun broken => [broken]) (span.below_toBreak_add file number taken)

namespace Span

variable {line : List Char} {below : List (List Char)}

def onto (span : Span line below) (lower : List (List Char)) :
    Span line (span.between ++ span.last :: lower) :=
  { span with lower := lower, parts := rfl }

theorem toBreak_onto (span : Span line below) (lower : List (List Char)) (file : Path) (number : Nat) :
    (span.onto lower).toBreak file number = span.toBreak file number := by
  have taken : ∀ rest, (span.between ++ span.last :: rest).take span.depth = span.between ++ [span.last] := by
    intro rest
    rw [List.append_cons]
    exact List.take_left' (by simp [depth])
  have same : (span.between ++ span.last :: lower).take span.depth = below.take span.depth :=
    (taken lower).trans ((taken span.lower).symm.trans (congrArg (List.take span.depth) span.parts.symm))
  simp only [toBreak, Break.mk.injEq, true_and]
  exact ⟨rfl, rfl, rfl, congrArg (fun lines => trim (joinLines (line :: lines))) same⟩

theorem lines_eq {lines above : List (List Char)} (span : Span line below)
    (parts : lines = above ++ line :: below) :
    lines = (above ++ line :: (span.between ++ [span.last])) ++ span.lower := by
  rw [parts]
  conv_lhs => rw [span.parts]
  simp

end Span

theorem mem_breaksIn_of_lines {file : Path} {text other : List Char} {broken : Break}
    (member : broken ∈ breaksIn file text)
    (same : (splitLines text).take broken.lastLine <+: splitLines other) :
    broken ∈ breaksIn file other := by
  obtain ⟨above, line, below, parts, span, rfl⟩ := exists_span_of_mem_breaksIn member
  obtain ⟨lower, rest⟩ := same
  have taken : (splitLines text).take (above.length + 1 + span.depth) =
      above ++ line :: (span.between ++ [span.last]) := by
    rw [span.lines_eq parts]
    apply List.take_left'
    simp only [List.length_append, List.length_cons, List.length_nil, Span.depth]
    omega
  rw [breaksIn, Template.breaks, mem_breaksFrom_iff]
  refine ⟨above, line, span.between ++ span.last :: lower, ?_, ?_⟩
  · change splitLines other = _
    rw [← rest, Span.toBreak, taken]
    simp
  · rw [breakAt?_eq_some_iff, Nat.add_comm]
    exact ⟨span.onto lower, (span.toBreak_onto lower file _).symm⟩

theorem mem_breaksIn_iff_of_take_eq {file : Path} {text other : List Char} {broken : Break}
    (same : (splitLines other).take broken.lastLine = (splitLines text).take broken.lastLine) :
    broken ∈ breaksIn file other ↔ broken ∈ breaksIn file text := by
  constructor
  · intro found
    apply mem_breaksIn_of_lines found
    rw [same]
    exact List.take_prefix _ _
  · intro found
    apply mem_breaksIn_of_lines found
    rw [← same]
    exact List.take_prefix _ _

section

variable {text line : List Char} {above below : List (List Char)}

theorem Span.splitLines_mend (span : Span line below) (file : Path)
    (parts : splitLines text = above ++ line :: below) :
    splitLines (mend (Template.ofText text) [span.toBreak file (above.length + 1)]).template.text =
      above ++ span.united span.after :: span.lower := by
  have united : unite? (span.toBreak file (above.length + 1)) (Template.ofText text).lines = _ :=
    span.unite?_toBreak_self file parts
  rw [Template.text, mend_singleton_of_some united, joinLines_splitLines,
    span.splitLines_united_around parts]

theorem Span.breakAt?_united (span : Span line below) (file : Path) (number : Nat) (after : List Char)
    (lower : List (List Char)) : breakAt? file number (span.united after) lower = none := by
  rw [breakAt?_eq_none_iff]
  refine ⟨fun other => ?_⟩
  have stays := other.staysOpen_line
  rw [span.staysOpen_united] at stays
  cases stays

theorem Span.firstLine_ne_of_united (span : Span line below) {file : Path} {after : List Char}
    {lower : List (List Char)} {broken : Break}
    (member : broken ∈ breaksFrom file 1 (above ++ span.united after :: lower)) :
    broken.firstLine ≠ above.length + 1 := by
  intro first
  obtain ⟨upper, start, rest, split, judged⟩ := (mem_breaksFrom_iff _ _ _ _).mp member
  have number := firstLine_of_breakAt? judged
  have size : above.length = upper.length := by omega
  obtain ⟨-, same⟩ := List.append_inj split size
  obtain ⟨rfl, -⟩ := List.cons.inj same
  rw [span.breakAt?_united] at judged
  cases judged

theorem Span.filter_breaksFrom_united (span : Span line below) (file : Path) (after : List Char) :
    (breaksFrom file 1 (above ++ span.united after :: span.lower)).filter
        (fun broken => above.length + 1 < broken.firstLine) =
      ((breaksFrom file 1 (above ++ line :: below)).filter
        fun broken => above.length + 1 + span.depth < broken.firstLine).map (Break.below span.depth) := by
  have upperPlace : 1 + (above ++ [span.united after]).length = above.length + 1 + 1 := by
    rw [List.length_append, List.length_singleton, Nat.add_comm]
  have lowerPlace : 1 + (above ++ line :: (span.between ++ [span.last])).length =
      above.length + 1 + span.depth + 1 := by
    simp only [List.length_append, List.length_cons, List.length_nil, Span.depth]
    omega
  have moved := map_below_breaksFrom file (above.length + 1 + 1) span.depth span.lower
  rw [Nat.add_right_comm (above.length + 1)] at moved
  rw [span.lines_eq rfl, filter_breaksFrom_append file _ lowerPlace, moved, List.append_cons,
    filter_breaksFrom_append file _ upperPlace]

end

/-- After one break was mended alone, no break starts on its line. Those that start below are the ones
that started below its last line, brought up by as many lines as it lost, and those that end above it are
the ones that did before. -/
theorem breaksIn_mend_single {file : Path} {text : List Char} {broken : Break}
    (member : broken ∈ breaksIn file text) :
    let after := (mend (Template.ofText text) [broken]).template.text
    let taken := broken.lastLine - broken.firstLine
    (∀ other ∈ breaksIn file after, other.firstLine ≠ broken.firstLine) ∧
      (breaksIn file after).filter (fun other => broken.firstLine < other.firstLine) =
        ((breaksIn file text).filter fun other => broken.lastLine < other.firstLine).map
          (Break.below taken) ∧
      ∀ other, other.lastLine < broken.firstLine →
        (other ∈ breaksIn file after ↔ other ∈ breaksIn file text) := by
  intro after taken
  obtain ⟨above, line, below, parts, span, rfl⟩ := exists_span_of_mem_breaksIn member
  have lines : splitLines after = above ++ span.united span.after :: span.lower :=
    span.splitLines_mend file parts
  have breaksAfter : breaksIn file after = breaksFrom file 1 (above ++ span.united span.after :: span.lower) :=
    congrArg (breaksFrom file 1) lines
  have breaksBefore : breaksIn file text = breaksFrom file 1 (above ++ line :: below) :=
    congrArg (breaksFrom file 1) parts
  have lost : taken = span.depth := Nat.add_sub_cancel_left (above.length + 1) span.depth
  refine ⟨?_, ?_, ?_⟩
  · intro other found
    rw [breaksAfter] at found
    exact span.firstLine_ne_of_united found
  · rw [breaksAfter, breaksBefore, lost]
    exact span.filter_breaksFrom_united file span.after
  · intro other higher
    apply mem_breaksIn_iff_of_take_eq
    have inside : other.lastLine ≤ above.length := Nat.le_of_lt_succ higher
    rw [lines, parts, List.take_append_of_le_length inside, List.take_append_of_le_length inside]

/-- The middle one of three breaks. -/
theorem breaksIn_mend_middle :
    let text := "_(\"a\nb\")\n_('c\nd')\n_(\"e\nf\")".toList
    let upper : Break := {
      file := ⟨"page"⟩, firstLine := 1, lastLine := 2, quote := .double, text := "a b".toList
      excerpt := "_(\"a\nb\")".toList }
    let middle : Break := {
      file := ⟨"page"⟩, firstLine := 3, lastLine := 4, quote := .single, text := "c d".toList
      excerpt := "_('c\nd')".toList }
    let lower : Break := {
      file := ⟨"page"⟩, firstLine := 5, lastLine := 6, quote := .double, text := "e f".toList
      excerpt := "_(\"e\nf\")".toList }
    let after := (mend (Template.ofText text) [middle]).template.text
    breaksIn ⟨"page"⟩ text = [upper, middle, lower] ∧
      (∀ other ∈ breaksIn ⟨"page"⟩ after, other.firstLine ≠ 3) ∧
      (breaksIn ⟨"page"⟩ after).filter (fun other => 3 < other.firstLine) =
        [{ lower with firstLine := 4, lastLine := 5 }] ∧
      upper ∈ breaksIn ⟨"page"⟩ after := by
  intro text upper middle lower after
  have found : breaksIn ⟨"page"⟩ text = [upper, middle, lower] := by decide
  have member : middle ∈ breaksIn ⟨"page"⟩ text := by simp [found]
  obtain ⟨here, below, above⟩ := breaksIn_mend_single member
  refine ⟨found, here, ?_, ?_⟩
  · rw [found] at below
    exact below
  · refine (above upper (by decide)).mpr ?_
    rw [found]
    exact List.mem_cons_self

end Unbroken
