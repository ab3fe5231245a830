import Unbroken.Mend
import Unbroken.Proofs.Survey
import Unbroken.Proofs.Text.Sheds

/-! What mending a break does to lines that it need not come from. If its two markers stand on its first
and its last line, whatever is between them gives way to the message of the break; otherwise nothing is
done. Nobody asks whether the message is the one that stands there. -/

namespace Unbroken

structure Lined (lines : List (List Char)) : Prop where
  nonempty : lines ≠ []
  flat : ∀ line ∈ lines, '\n' ∉ line

theorem lined_splitLines (text : List Char) : Lined (splitLines text) where
  nonempty := splitLines_ne_nil text
  flat _ := newline_not_mem_of_mem_splitLines

theorem Lined.splitLines_joinLines {lines : List (List Char)} (lined : Lined lines) :
    splitLines (joinLines lines) = lines :=
  Unbroken.splitLines_joinLines lined.nonempty lined.flat

namespace Break

structure Proper (broken : Break) : Prop where
  counted : 0 < broken.firstLine
  long : broken.firstLine < broken.lastLine
  flat : '\n' ∉ broken.text

def bodyIn? (broken : Break) (lines : List (List Char)) : Option (List Char) := do
  let first ← lines[broken.firstLine - 1]?
  let last ← lines[broken.lastLine - 1]?
  let (_, tail) ← cut broken.quote.opener first
  let (head, _) ← cut broken.quote.closer last
  some (joinLines (tail :: (lines.take (broken.lastLine - 1)).drop broken.firstLine ++ [head]))

def markedIn (broken : Break) (lines : List (List Char)) : Bool :=
  lines[broken.firstLine - 1]?.any (occurs broken.quote.opener) &&
    lines[broken.lastLine - 1]?.any (occurs broken.quote.closer)

end Break

theorem proper_of_mem_breaksIn {file : Path} {text : List Char} {broken : Break}
    (member : broken ∈ breaksIn file text) : broken.Proper := by
  obtain ⟨above, line, below, -, span, rfl⟩ := exists_span_of_mem_breaksIn member
  refine ⟨Nat.succ_pos _, ?_, newline_not_mem_singleSpaced _⟩
  simp only [Span.toBreak, Span.depth]
  omega

/-- A place in some lines where a break can be mended. -/
structure Gap (broken : Break) (lines : List (List Char)) where
  upper : List (List Char)
  before : List Char
  tail : List Char
  between : List (List Char)
  head : List Char
  after : List Char
  lower : List (List Char)
  parts : lines = upper ++ (before ++ broken.quote.opener ++ tail) ::
    (between ++ (head ++ broken.quote.closer ++ after) :: lower)
  starts : broken.firstLine = upper.length + 1
  ends : broken.lastLine = broken.firstLine + between.length + 1

namespace Gap

variable {broken : Break} {lines : List (List Char)} (gap : Gap broken lines)

def front : List Char :=
  rows gap.upper ++ gap.before ++ broken.quote.opener

def body : List Char :=
  joinLines (gap.tail :: gap.between ++ [gap.head])

def behind : List Char :=
  broken.quote.closer ++ joinLines (gap.after :: gap.lower)

def united : List (List Char) :=
  gap.upper ++ (gap.before ++ broken.quote.opener ++ broken.text ++ broken.quote.closer ++ gap.after) ::
    gap.lower

theorem joinLines_eq : joinLines lines = gap.front ++ gap.body ++ gap.behind := by
  conv_lhs => rw [gap.parts]
  rw [joinLines_append_cons, joinLines_append_head, List.append_assoc gap.head, joinLines_between,
    joinLines_append_head]
  simp only [front, body, behind, List.append_assoc]

theorem joinLines_united : joinLines gap.united = gap.front ++ broken.text ++ gap.behind := by
  rw [united, joinLines_append_cons, joinLines_append_head]
  simp only [front, behind, List.append_assoc]

theorem length_united :
    gap.united.length + (broken.lastLine - broken.firstLine) = lines.length := by
  have size := congrArg List.length gap.parts
  simp only [List.length_append, List.length_cons] at size
  have place := gap.ends
  simp only [united, List.length_append, List.length_cons]
  omega

end Gap

theorem drop_eq_append_of_getElem? {lines : List (List Char)} {number last : Nat} (inside : number < last)
    {reached : List Char} (found : lines[last - 1]? = some reached) :
    lines.drop number = (lines.take (last - 1)).drop number ++ reached :: lines.drop last := by
  obtain ⟨bound, rfl⟩ := List.getElem?_eq_some_iff.mp found
  have rest : lines[last - 1] :: lines.drop last = lines.drop (last - 1) := by
    rw [List.drop_eq_getElem_cons bound, Nat.sub_add_cancel (by omega)]
  rw [rest]
  conv_lhs => rw [← List.take_append_drop (last - 1) lines]
  apply List.drop_append_of_le_length
  rw [List.length_take]
  omega

theorem lines_at {lines : List (List Char)} {first last : Nat} (counted : 0 < first) (long : first < last)
    {line reached : List Char} (above : lines[first - 1]? = some line)
    (below : lines[last - 1]? = some reached) :
    lines = lines.take (first - 1) ++ line ::
      ((lines.take (last - 1)).drop first ++ reached :: lines.drop last) := by
  obtain ⟨bound, rfl⟩ := List.getElem?_eq_some_iff.mp above
  rw [← drop_eq_append_of_getElem? long below]
  conv_lhs => rw [← List.take_append_drop (first - 1) lines, List.drop_eq_getElem_cons bound,
    Nat.sub_add_cancel counted]

section

variable {broken : Break} {lines : List (List Char)}

def Gap.ofCuts (proper : broken.Proper) {line reached before tail head after : List Char}
    (first : lines[broken.firstLine - 1]? = some line) (last : lines[broken.lastLine - 1]? = some reached)
    (opens : cut broken.quote.opener line = some (before, tail))
    (closes : cut broken.quote.closer reached = some (head, after)) : Gap broken lines where
  upper := lines.take (broken.firstLine - 1)
  before := before
  tail := tail
  between := (lines.take (broken.lastLine - 1)).drop broken.firstLine
  head := head
  after := after
  lower := lines.drop broken.lastLine
  parts := by
    rw [← cut_append opens, ← cut_append closes]
    exact lines_at proper.counted proper.long first last
  starts := by
    have bound := (List.getElem?_eq_some_iff.mp first).1
    have counted := proper.counted
    rw [List.length_take]
    omega
  ends := by
    have bound := (List.getElem?_eq_some_iff.mp last).1
    have long := proper.long
    rw [List.length_drop, List.length_take]
    omega

/-- A break is mended just if its markers stand where it says. -/
theorem unite?_cases (proper : broken.Proper) (lines : List (List Char)) :
    (unite? broken lines = none ∧ broken.bodyIn? lines = none ∧ broken.markedIn lines = false) ∨
      ∃ gap : Gap broken lines, unite? broken lines = some gap.united ∧
        broken.bodyIn? lines = some gap.body ∧ broken.markedIn lines = true := by
  have valid : ¬ (broken.firstLine = 0 ∨ broken.lastLine < broken.firstLine) := by
    have counted := proper.counted
    have long := proper.long
    omega
  simp only [unite?, if_neg valid, Break.bodyIn?, Break.markedIn]
  cases first : lines[broken.firstLine - 1]? with
  | none => simp
  | some line =>
      cases last : lines[broken.lastLine - 1]? with
      | none => simp
      | some reached =>
          cases opens : cut broken.quote.opener line with
          | none => simp [opens, occurs]
          | some opening =>
              cases closes : cut broken.quote.closer reached with
              | none => simp [closes, occurs]
              | some closing =>
                  refine Or.inr ⟨.ofCuts proper first last opens closes, ?_, ?_, ?_⟩
                  · simp only [Option.bind_eq_bind, Option.bind_some, opens, closes]
                    rfl
                  · simp only [Option.bind_eq_bind, Option.bind_some, opens, closes]
                    rfl
                  · simp [occurs, opens, closes]

theorem unite?_eq_none_iff (proper : broken.Proper) (lines : List (List Char)) :
    unite? broken lines = none ↔ broken.markedIn lines = false := by
  rcases unite?_cases proper lines with ⟨missing, -, unmarked⟩ | ⟨gap, united, -, marked⟩
  · simp [missing, unmarked]
  · simp [united, marked]

end

namespace Mended

variable {mended : Mended} {broken : Break} {breaks : List Break}

theorem step_of_none (missing : unite? broken mended.template.lines = none) :
    mended.step broken = mended := by
  rw [step, missing]

theorem step_of_some {lines : List (List Char)} (united : unite? broken mended.template.lines = some lines) :
    mended.step broken = { template := ⟨lines⟩, count := mended.count + 1 } := by
  rw [step, united]

theorem foldl_step_cases (mended : Mended) (breaks : List Break) :
    ((∀ broken ∈ breaks, unite? broken mended.template.lines = none) ∧
        breaks.foldl step mended = mended) ∨
      ((∃ broken ∈ breaks, unite? broken mended.template.lines ≠ none) ∧
        mended.count < (breaks.foldl step mended).count) := by
  induction breaks generalizing mended with
  | nil => exact Or.inl ⟨nofun, rfl⟩
  | cons broken later ih =>
      rw [List.foldl_cons]
      cases united : unite? broken mended.template.lines with
      | none =>
          rw [step_of_none united]
          rcases ih mended with ⟨missing, same⟩ | ⟨⟨other, member, found⟩, more⟩
          · exact Or.inl ⟨List.forall_mem_cons.mpr ⟨united, missing⟩, same⟩
          · exact Or.inr ⟨⟨other, List.mem_cons_of_mem _ member, found⟩, more⟩
      | some lines =>
          have counted : (mended.step broken).count = mended.count + 1 := by
            rw [step_of_some united]
          refine Or.inr ⟨⟨broken, List.mem_cons_self, by simp [united]⟩, ?_⟩
          rcases ih (mended.step broken) with ⟨-, same⟩ | ⟨-, more⟩
          · rw [same, counted]
            exact Nat.lt_succ_self _
          · omega

theorem length_foldl_step_le (proper : ∀ broken ∈ breaks, broken.Proper) (mended : Mended) :
    (breaks.foldl step mended).template.lines.length + (breaks.foldl step mended).count ≤
      mended.template.lines.length + mended.count := by
  induction breaks generalizing mended with
  | nil => exact Nat.le_refl _
  | cons broken later ih =>
      obtain ⟨first, others⟩ := List.forall_mem_cons.mp proper
      have rest := ih others (mended.step broken)
      rw [List.foldl_cons]
      rcases unite?_cases first mended.template.lines with ⟨missing, -⟩ | ⟨gap, united, -⟩
      · rwa [step_of_none missing] at rest ⊢
      · rw [step_of_some united] at rest ⊢
        have size := gap.length_united
        have long := first.long
        simp only at rest
        omega

end Mended

theorem bottomUp_singleton (broken : Break) : bottomUp [broken] = [broken] :=
  List.mergeSort_singleton broken

theorem mend_singleton_of_some {template : Template} {broken : Break} {lines : List (List Char)}
    (united : unite? broken template.lines = some lines) : (mend template [broken]).template.lines = lines := by
  rw [mend, bottomUp_singleton, List.foldl_cons, List.foldl_nil, Mended.step_of_some united]

end Unbroken
