import Mathlib.Data.List.Nodup
import Unbroken.Mend
import Unbroken.Proofs.Survey

/-! A pass over a text mends the breaks that its survey has just found, from the bottom up. It is
therefore a recursion over the lines: first the lines below a line are settled, then the break that
starts on the line is mended or passed over. -/

namespace Unbroken

def Mended.united (mended : Mended) : List Break → List Break
  | [] => []
  | broken :: later =>
    match unite? broken mended.template.lines with
    | some _ => broken :: (mended.step broken).united later
    | none => (mended.step broken).united later

def unitedIn (template : Template) (breaks : List Break) : List Break :=
  Mended.united { template := template, count := 0 } (bottomUp breaks)

structure Settled where
  lines : List (List Char)
  mended : List Break

def Break.below (above : Nat) (broken : Break) : Break :=
  { broken with firstLine := broken.firstLine - above, lastLine := broken.lastLine - above }

def settle (file : Path) (above : Nat) : List (List Char) → Settled
  | [] => { lines := [], mended := [] }
  | line :: below =>
    let lower := settle file (above + 1) below
    match breakAt? file (above + 1) line below with
    | none => { lower with lines := line :: lower.lines }
    | some broken =>
      match unite? (broken.below above) (line :: lower.lines) with
      | none => { lower with lines := line :: lower.lines }
      | some lines => { lines := lines, mended := broken :: lower.mended }

theorem unite?_append (above lines : List (List Char)) {broken : Break}
    (inside : above.length < broken.firstLine) :
    unite? broken (above ++ lines) =
      (unite? (broken.below above.length) lines).map (above ++ ·) := by
  have first : ¬ broken.firstLine = 0 := by omega
  have lowerFirst : ¬ broken.firstLine - above.length = 0 := by omega
  have ordered : broken.lastLine - above.length < broken.firstLine - above.length ↔
      broken.lastLine < broken.firstLine := by omega
  simp only [unite?, Break.below, first, lowerFirst, false_or, ordered]
  split
  · rfl
  · have shift : ∀ number, above.length < number →
        (above ++ lines)[number - 1]? = lines[number - above.length - 1]? := by
      intro number bound
      rw [List.getElem?_append_right (by omega), Nat.sub_right_comm]
    rw [shift _ inside, shift _ (by omega)]
    have taken : (above ++ lines).take (broken.firstLine - 1) =
        above ++ lines.take (broken.firstLine - above.length - 1) := by
      rw [List.take_append, List.take_of_length_le (by omega), Nat.sub_right_comm]
    have dropped : (above ++ lines).drop broken.lastLine =
        lines.drop (broken.lastLine - above.length) := by
      rw [List.drop_append, List.drop_eq_nil_of_le (by omega), List.nil_append]
    simp only [taken, dropped, Option.bind_eq_bind, Option.map_bind, Function.comp_def,
      Option.map_some, List.append_assoc]

theorem bottomUp_sorted (breaks : List Break) :
    (bottomUp breaks).Pairwise fun left right => right.firstLine ≤ left.firstLine := by
  refine (List.pairwise_mergeSort ?_ ?_ breaks).imp fun ordered => of_decide_eq_true ordered
  · intro first second third left right
    simp only [decide_eq_true_eq] at left right ⊢
    omega
  · intro left right
    simp only [Bool.or_eq_true, decide_eq_true_eq]
    omega

theorem eq_of_descending {left right : List Break} (same : left.Perm right)
    (distinct : (left.map Break.firstLine).Nodup)
    (leftDown : left.Pairwise fun lower upper => upper.firstLine ≤ lower.firstLine)
    (rightDown : right.Pairwise fun lower upper => upper.firstLine ≤ lower.firstLine) :
    left = right := by
  refine List.Perm.eq_of_pairwise ?_ leftDown rightDown same
  intro lower upper lowerMember upperMember below above
  exact List.inj_on_of_nodup_map distinct lowerMember (same.mem_iff.mpr upperMember)
    (Nat.le_antisymm above below)

theorem eq_reverse_of_ascending {sorted ascending : List Break} (same : sorted.Perm ascending)
    (down : sorted.Pairwise fun left right => right.firstLine ≤ left.firstLine)
    (up : ascending.Pairwise fun left right => left.firstLine < right.firstLine) :
    sorted = ascending.reverse := by
  have reversed : ascending.reverse.Pairwise fun left right => right.firstLine ≤ left.firstLine :=
    List.pairwise_reverse.mpr (up.imp Nat.le_of_lt)
  have distinct : (ascending.map Break.firstLine).Nodup :=
    List.pairwise_map.mpr (up.imp Nat.ne_of_lt)
  exact eq_of_descending (same.trans ascending.reverse_perm.symm)
    ((same.map Break.firstLine).nodup_iff.mpr distinct) down reversed

theorem bottomUp_eq_reverse {breaks : List Break}
    (ascending : breaks.Pairwise fun left right => left.firstLine < right.firstLine) :
    bottomUp breaks = breaks.reverse :=
  eq_reverse_of_ascending (List.mergeSort_perm _ _) (bottomUp_sorted breaks) ascending

theorem foldr_step_eq_settle (file : Path) (above lines : List (List Char)) :
    (breaksFrom file (above.length + 1) lines).foldr (fun broken mended => Mended.step mended broken)
        { template := ⟨above ++ lines⟩, count := 0 } =
      { template := ⟨above ++ (settle file above.length lines).lines⟩
        count := (settle file above.length lines).mended.length } := by
  induction lines generalizing above with
  | nil => rfl
  | cons line below ih =>
      have lower := ih (above ++ [line])
      simp only [List.length_append, List.length_singleton, List.append_assoc,
        List.singleton_append] at lower
      rw [breaksFrom, List.foldr_append, lower, settle]
      cases judged : breakAt? file (above.length + 1) line below with
      | none => rfl
      | some broken =>
          have inside : above.length < broken.firstLine := by
            rw [firstLine_of_breakAt? judged]
            exact Nat.lt_succ_self _
          simp only [Option.toList_some, List.foldr_cons, List.foldr_nil, Mended.step,
            unite?_append above _ inside]
          cases unite? (broken.below above.length)
            (line :: (settle file (above.length + 1) below).lines) <;> rfl

theorem mend_breaksIn (file : Path) (text : List Char) :
    mend (Template.ofText text) (breaksIn file text) =
      { template := ⟨(settle file 0 (splitLines text)).lines⟩
        count := (settle file 0 (splitLines text)).mended.length } := by
  have ascending := breaksFrom_ascending file 1 (splitLines text)
  rw [mend, breaksIn, Template.breaks, Template.ofText, bottomUp_eq_reverse ascending,
    List.foldl_reverse]
  exact foldr_step_eq_settle file [] (splitLines text)

theorem Mended.united_append (mended : Mended) (breaks more : List Break) :
    mended.united (breaks ++ more) = mended.united breaks ++ (breaks.foldl step mended).united more := by
  induction breaks generalizing mended with
  | nil => rfl
  | cons broken later ih =>
      rw [List.cons_append, united, united, ih, List.foldl_cons]
      split <;> rfl

theorem united_reverse_eq_settle (file : Path) (above lines : List (List Char)) :
    Mended.united { template := ⟨above ++ lines⟩, count := 0 }
        (breaksFrom file (above.length + 1) lines).reverse =
      (settle file above.length lines).mended.reverse := by
  induction lines generalizing above with
  | nil => rfl
  | cons line below ih =>
      have lower := ih (above ++ [line])
      have state := foldr_step_eq_settle file (above ++ [line]) below
      simp only [List.length_append, List.length_singleton, List.append_assoc,
        List.singleton_append] at lower state
      rw [breaksFrom, List.reverse_append, Mended.united_append, lower, List.foldl_reverse, state, settle]
      cases judged : breakAt? file (above.length + 1) line below with
      | none => simp [Mended.united]
      | some broken =>
          have inside : above.length < broken.firstLine := by
            rw [firstLine_of_breakAt? judged]
            exact Nat.lt_succ_self _
          simp only [Option.toList_some, List.reverse_singleton, Mended.united,
            unite?_append above _ inside]
          cases unite? (broken.below above.length)
            (line :: (settle file (above.length + 1) below).lines) <;> simp

theorem unitedIn_breaksIn (file : Path) (text : List Char) :
    unitedIn (Template.ofText text) (breaksIn file text) =
      (settle file 0 (splitLines text)).mended.reverse := by
  have ascending := breaksFrom_ascending file 1 (splitLines text)
  rw [unitedIn, breaksIn, Template.breaks, Template.ofText, bottomUp_eq_reverse ascending]
  exact united_reverse_eq_settle file [] (splitLines text)

/-! The recursion as a relation, with one case for each thing that can happen to a line. -/

namespace Span

variable {line : List Char} {below : List (List Char)}

def united (span : Span line below) (after : List Char) : List Char :=
  span.marker.before ++ span.marker.quote.opener ++ span.text ++ span.marker.quote.closer ++ after

theorem leftmost?_united (span : Span line below) (after : List Char) :
    Marker.leftmost? (span.united after) = some { span.marker with
      tail := span.text ++ span.marker.quote.closer ++ after } := by
  have parts : span.united after = span.marker.before ++ span.marker.quote.opener ++
      (span.text ++ span.marker.quote.closer ++ after) := by
    simp only [united, List.append_assoc]
  rw [parts]
  exact Marker.leftmost?_with_tail span.leads _

theorem below_toBreak (span : Span line below) (file : Path) (above : Nat) :
    (span.toBreak file (above + 1)).below above = span.toBreak file 1 := by
  simp only [toBreak, Break.below, Break.mk.injEq, true_and, and_true]
  omega

theorem unite?_toBreak_of_cut (span : Span line below) (file : Path) {first tail : List Char}
    (leads : cut span.marker.quote.opener first = some (span.marker.before, tail))
    (lower : List (List Char)) :
    unite? (span.toBreak file 1) (first :: lower) =
      (lower[span.between.length]?.bind (cut span.marker.quote.closer)).map
        fun (_, after) => span.united after :: lower.drop span.depth := by
  have ordered : ¬ 1 + span.depth < 1 := by omega
  have last : (first :: lower)[1 + span.depth - 1]? = lower[span.between.length]? := by
    rw [Nat.add_sub_cancel_left, depth, List.getElem?_cons_succ]
  have dropped : (first :: lower).drop (1 + span.depth) = lower.drop span.depth := by
    rw [Nat.add_comm, List.drop_succ_cons]
  simp only [unite?, toBreak, Nat.one_ne_zero, ordered, or_self, if_false, last, dropped, Nat.sub_self,
    List.getElem?_cons_zero, Option.bind_eq_bind, Option.bind_some, leads, List.take_zero,
    List.nil_append]
  cases lower[span.between.length]? with
  | none => rfl
  | some reached =>
      rw [Option.bind_some, Option.bind_some]
      cases cut span.marker.quote.closer reached <;> rfl

theorem unite?_toBreak (span : Span line below) (file : Path) (lower : List (List Char)) :
    unite? (span.toBreak file 1) (line :: lower) =
      (lower[span.between.length]?.bind (cut span.marker.quote.closer)).map
        fun (_, after) => span.united after :: lower.drop span.depth :=
  span.unite?_toBreak_of_cut file (Marker.cut_opener span.leads) lower

end Span

theorem breakAt?_eq_none_iff (file : Path) (number : Nat) (line : List Char)
    (below : List (List Char)) :
    breakAt? file number line below = none ↔ IsEmpty (Span line below) := by
  constructor
  · intro nothing
    refine ⟨fun span => ?_⟩
    rw [(breakAt?_eq_some_iff file number line below _).mpr ⟨span, rfl⟩] at nothing
    cases nothing
  · intro nothing
    cases found : breakAt? file number line below with
    | none => rfl
    | some broken =>
        obtain ⟨span, -⟩ := (breakAt?_eq_some_iff _ _ _ _ _).mp found
        exact nothing.elim span

/-- Lines settle into lines, with the breaks that are mended on the way. A line without a break is
kept. A break is passed over if the line where it should end is gone or has no closing marker. -/
inductive Settles (file : Path) :
    Nat → List (List Char) → List (List Char) → List Break → Prop
  | done {above : Nat} : Settles file above [] [] []
  | keeps {above : Nat} {line : List Char} {below lower : List (List Char)} {mended : List Break}
      (nothing : IsEmpty (Span line below)) (rest : Settles file (above + 1) below lower mended) :
      Settles file above (line :: below) (line :: lower) mended
  | passes {above : Nat} {line : List Char} {below lower : List (List Char)} {mended : List Break}
      (span : Span line below)
      (missing : lower[span.between.length]?.bind (cut span.marker.quote.closer) = none)
      (rest : Settles file (above + 1) below lower mended) :
      Settles file above (line :: below) (line :: lower) mended
  | unites {above : Nat} {line reached ahead after : List Char} {below lower : List (List Char)}
      {mended : List Break} (span : Span line below)
      (found : lower[span.between.length]? = some reached)
      (closes : cut span.marker.quote.closer reached = some (ahead, after))
      (rest : Settles file (above + 1) below lower mended) :
      Settles file above (line :: below) (span.united after :: lower.drop span.depth)
        (span.toBreak file (above + 1) :: mended)

theorem settles_settle (file : Path) (above : Nat) (lines : List (List Char)) :
    Settles file above lines (settle file above lines).lines (settle file above lines).mended := by
  induction lines generalizing above with
  | nil => exact .done
  | cons line below ih =>
      have lower := ih (above + 1)
      rw [settle]
      cases judged : breakAt? file (above + 1) line below with
      | none => exact .keeps ((breakAt?_eq_none_iff _ _ _ _).mp judged) lower
      | some broken =>
          obtain ⟨span, rfl⟩ := (breakAt?_eq_some_iff _ _ _ _ _).mp judged
          simp only [span.below_toBreak, span.unite?_toBreak]
          cases found : (settle file (above + 1) below).lines[span.between.length]? with
          | none => exact .passes span (by simp [found]) lower
          | some reached =>
              cases closes : cut span.marker.quote.closer reached with
              | none => simpa [closes] using Settles.passes span (by simp [found, closes]) lower
              | some pair => simpa [closes] using Settles.unites span found closes lower

namespace Settles

variable {file : Path} {above : Nat} {lines settled : List (List Char)} {mended : List Break}

theorem lt_firstLine (settles : Settles file above lines settled mended) :
    ∀ broken ∈ mended, above < broken.firstLine := by
  induction settles with
  | done => simp
  | keeps _ _ ih => exact fun broken member => Nat.lt_of_succ_lt (ih broken member)
  | passes _ _ _ ih => exact fun broken member => Nat.lt_of_succ_lt (ih broken member)
  | unites span _ _ _ ih =>
      intro broken member
      rcases List.mem_cons.mp member with rfl | member
      · exact Nat.lt_succ_self _
      · exact Nat.lt_of_succ_lt (ih broken member)

theorem ne_nil (settles : Settles file above lines settled mended) (nonempty : lines ≠ []) :
    settled ≠ [] := by
  cases settles with
  | done => exact absurd rfl nonempty
  | keeps | passes | unites => simp

theorem newline_not_mem (settles : Settles file above lines settled mended)
    (whole : ∀ line ∈ lines, '\n' ∉ line) : ∀ line ∈ settled, '\n' ∉ line := by
  induction settles with
  | done => simp
  | keeps _ _ ih | passes _ _ _ ih =>
      intro line member
      rcases List.mem_cons.mp member with rfl | member
      · exact whole _ List.mem_cons_self
      · exact ih (fun other inside => whole other (List.mem_cons_of_mem _ inside)) line member
  | unites span found closes _ ih =>
      have lower := ih fun other inside => whole other (List.mem_cons_of_mem _ inside)
      intro line member
      rcases List.mem_cons.mp member with rfl | member
      · have first := whole _ List.mem_cons_self
        have last := lower _ (List.mem_of_getElem? found)
        rw [span.line_eq] at first
        rw [cut_append closes] at last
        simp only [List.mem_append, not_or] at first last
        simp only [Span.united, List.mem_append, not_or]
        exact ⟨⟨⟨⟨first.1.1, first.1.2⟩, newline_not_mem_singleSpaced _⟩,
          newline_not_mem_closer _⟩, last.2⟩
      · exact lower line (List.mem_of_mem_drop member)

end Settles

end Unbroken
