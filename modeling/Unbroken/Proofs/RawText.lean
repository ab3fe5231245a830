import Unbroken.Proofs.Span

/-! The survey goes through the lines of a text one by one. What it finds can also be said of the
text as a whole, by positions: where the leftmost opening marker of a line stands, where the first
closing marker behind it stands, and how many line feeds lie between the two. -/

namespace Unbroken

def lineOf (text : List Char) (position : Nat) : Nat :=
  (text.take position).count '\n' + 1

/-- The leftmost opening marker of a line. -/
structure Opens (text : List Char) (number : Nat) (quote : Quote) (position : Nat) : Prop where
  stands : StandsAt quote.opener text position
  onLine : lineOf text position = number
  leftmost : ∀ earlier < position, lineOf text earlier = number →
    ∀ other : Quote, ¬ StandsAt other.opener text earlier

/-- The first closing marker from a position on, whatever line it is on. -/
structure Closes (text : List Char) (quote : Quote) (start position : Nat) : Prop where
  behind : start ≤ position
  stands : StandsAt quote.closer text position
  first : ∀ earlier, start ≤ earlier → earlier < position → ¬ StandsAt quote.closer text earlier

def rows (above : List (List Char)) : List Char :=
  (above.map (· ++ ['\n'])).flatten

theorem joinLines_append_cons (above : List (List Char)) (line : List Char)
    (below : List (List Char)) :
    joinLines (above ++ line :: below) = rows above ++ joinLines (line :: below) := by
  induction above with
  | nil => rfl
  | cons head above ih =>
      rw [List.cons_append, joinLines_cons_of_ne_nil head (by simp), ih]
      simp [rows]

theorem joinLines_between (tail head rest : List Char) (between lower : List (List Char)) :
    joinLines (tail :: (between ++ (head ++ rest) :: lower)) =
      joinLines (tail :: between ++ [head]) ++ joinLines (rest :: lower) := by
  rw [← List.cons_append, joinLines_append_cons, joinLines_append_cons, joinLines_append_head,
    joinLines_singleton, List.append_assoc]

theorem count_newline_rows {above : List (List Char)} (whole : ∀ line ∈ above, '\n' ∉ line) :
    (rows above).count '\n' = above.length := by
  induction above with
  | nil => rfl
  | cons head above ih =>
      have here : head.count '\n' = 0 := List.count_eq_zero.mpr (whole head List.mem_cons_self)
      have later := ih fun line member => whole line (List.mem_cons_of_mem _ member)
      simp only [rows] at later
      simp [rows, later, here]

theorem lineOf_lt_of_lt_rows {above : List (List Char)} (whole : ∀ line ∈ above, '\n' ∉ line)
    (rest : List Char) {position : Nat} (bound : position < (rows above).length) :
    lineOf (rows above ++ rest) position < above.length + 1 := by
  rw [lineOf, List.take_append_of_le_length (by omega)]
  cases above using List.reverseRecOn with
  | nil => simp [rows] at bound
  | append_singleton above last =>
      have parts : rows (above ++ [last]) = (rows above ++ last) ++ ['\n'] := by simp [rows]
      have upper : (rows above ++ last).count '\n' = above.length := by
        rw [List.count_append, count_newline_rows fun line member => whole line (by simp [member]),
          List.count_eq_zero.mpr (whole last (by simp)), Nat.add_zero]
      rw [parts] at bound ⊢
      rw [List.length_append, List.length_singleton] at bound
      rw [List.take_append_of_le_length (by omega)]
      have fewer := ( List.take_prefix position (rows above ++ last)).sublist.count_le '\n'
      simp only [List.length_append, List.length_cons, List.length_nil]
      omega

theorem lineOf_rows_append {above : List (List Char)} (whole : ∀ line ∈ above, '\n' ∉ line)
    (rest : List Char) (offset : Nat) :
    lineOf (rows above ++ rest) ((rows above).length + offset) =
      above.length + lineOf rest offset := by
  rw [lineOf, lineOf, List.take_length_add_append, List.count_append, count_newline_rows whole,
    Nat.add_assoc]

theorem standsAt_on_line_iff (pattern : List Char) {line : List Char}
    {above below : List (List Char)} (nonempty : pattern ≠ []) (flat : '\n' ∉ pattern)
    (whole : ∀ other ∈ above ++ line :: below, '\n' ∉ other) (position : Nat) :
    (StandsAt pattern (joinLines (above ++ line :: below)) position ∧
        lineOf (joinLines (above ++ line :: below)) position = above.length + 1) ↔
      ∃ offset, position = (rows above).length + offset ∧ StandsAt pattern line offset := by
  have aboveWhole : ∀ other ∈ above, '\n' ∉ other := fun other member => whole other (by simp [member])
  have lineWhole : '\n' ∉ line := whole line (by simp)
  rw [joinLines_append_cons]
  constructor
  · rintro ⟨stands, onLine⟩
    have behind : (rows above).length ≤ position := by
      by_contra before
      have upper := lineOf_lt_of_lt_rows aboveWhole (joinLines (line :: below)) (not_le.mp before)
      omega
    obtain ⟨offset, rfl⟩ := Nat.exists_eq_add_of_le behind
    refine ⟨offset, rfl, ?_⟩
    rw [lineOf_rows_append aboveWhole] at onLine
    rw [StandsAt, ← List.drop_drop, List.drop_left] at stands
    cases below with
    | nil => rwa [joinLines_singleton] at stands
    | cons next below =>
        rw [joinLines_cons_cons] at stands onLine
        have within : offset ≤ line.length := by
          by_contra beyond
          rw [lineOf, List.take_append, List.count_append,
            show offset - line.length = (offset - line.length - 1) + 1 by omega,
            List.take_succ_cons, List.count_cons_self] at onLine
          omega
        rw [List.drop_append_of_le_length within] at stands
        exact starts_of_starts_append_cons _ flat stands
  · rintro ⟨offset, rfl, stands⟩
    have within : offset < line.length := by
      by_contra beyond
      rw [StandsAt, List.drop_eq_nil_of_le (not_lt.mp beyond), List.prefix_nil] at stands
      exact nonempty stands
    obtain ⟨rest, split⟩ : ∃ rest, joinLines (line :: below) = line ++ rest := by
      cases below with
      | nil => exact ⟨[], by simp⟩
      | cons next below => exact ⟨_, joinLines_cons_cons line next below⟩
    rw [split, lineOf_rows_append aboveWhole]
    constructor
    · rw [StandsAt, ← List.drop_drop, List.drop_left, List.drop_append_of_le_length within.le]
      exact stands.trans (List.prefix_append _ _)
    · have none : (line.take offset).count '\n' = 0 :=
        List.count_eq_zero.mpr fun member => lineWhole (List.mem_of_mem_take member)
      rw [lineOf, List.take_append_of_le_length within.le, none]

theorem opens_iff {line : List Char} {above below : List (List Char)}
    (whole : ∀ other ∈ above ++ line :: below, '\n' ∉ other) (quote : Quote) (position : Nat) :
    Opens (joinLines (above ++ line :: below)) (above.length + 1) quote position ↔
      ∃ marker, Marker.leftmost? line = some marker ∧ marker.quote = quote ∧
        position = (rows above).length + marker.before.length := by
  have onLine : ∀ (other : Quote) (position : Nat), _ ↔ _ := fun other position =>
    standsAt_on_line_iff other.opener (by simp [Quote.opener]) (newline_not_mem_opener other) whole
      position
  constructor
  · rintro ⟨stands, here, leftmost⟩
    obtain ⟨offset, rfl, inLine⟩ := (onLine quote position).mp ⟨stands, here⟩
    obtain ⟨tail, parts⟩ := inLine
    have within : offset ≤ line.length := by
      by_contra beyond
      rw [List.drop_eq_nil_of_le (by omega)] at parts
      simp [Quote.opener] at parts
    refine ⟨⟨line.take offset, quote, tail⟩, ?_, rfl, by simp [within]⟩
    refine (Marker.leftmost?_eq_some_iff _ _).mpr ⟨by simp [parts, List.append_assoc], ?_⟩
    intro earlier bound other stands
    have lineBound : earlier < offset := by simpa [within] using bound
    obtain ⟨fits, number⟩ := (onLine other _).mpr ⟨earlier, rfl, stands⟩
    exact leftmost _ (by omega) number other fits
  · rintro ⟨marker, leads, rfl, rfl⟩
    obtain ⟨parts, first⟩ := (Marker.leftmost?_eq_some_iff _ _).mp leads
    have here : StandsAt marker.quote.opener line marker.before.length := by
      refine ⟨marker.tail, ?_⟩
      conv_rhs => rw [parts]
      simp [List.append_assoc]
    obtain ⟨stands, number⟩ := (onLine marker.quote _).mpr ⟨_, rfl, here⟩
    refine ⟨stands, number, ?_⟩
    intro earlier bound sameLine other fits
    obtain ⟨offset, rfl, inLine⟩ := (onLine other earlier).mp ⟨fits, sameLine⟩
    exact first offset (by omega) other inLine

theorem closes_iff_cut (text : List Char) (quote : Quote) (start position : Nat) :
    Closes text quote start position ↔
      ∃ body after, cut quote.closer (text.drop start) = some (body, after) ∧
        position = start + body.length := by
  have shift : ∀ offset, StandsAt quote.closer (text.drop start) offset ↔
      StandsAt quote.closer text (start + offset) := by
    intro offset
    rw [StandsAt, StandsAt, List.drop_drop]
  constructor
  · rintro ⟨behind, stands, first⟩
    obtain ⟨offset, rfl⟩ := Nat.exists_eq_add_of_le behind
    obtain ⟨after, parts⟩ := (shift offset).mpr stands
    have within : offset ≤ (text.drop start).length := by
      by_contra beyond
      rw [List.drop_eq_nil_of_le (by omega)] at parts
      simp [Quote.closer] at parts
    refine ⟨(text.drop start).take offset, after, ?_, by rw [List.length_take_of_le within]⟩
    refine (cut_eq_some_iff _ _ _ _).mpr ⟨by rw [List.append_assoc, parts, List.take_append_drop], ?_⟩
    intro earlier bound fits
    rw [List.length_take_of_le within] at bound
    exact first (start + earlier) (by omega) (by omega) ((shift earlier).mp fits)
  · rintro ⟨body, after, found, rfl⟩
    obtain ⟨parts, first⟩ := (cut_eq_some_iff _ _ _ _).mp found
    refine ⟨by omega, (shift _).mp ⟨after, ?_⟩, ?_⟩
    · rw [parts]
      simp [List.append_assoc]
    · intro earlier behind bound fits
      obtain ⟨offset, rfl⟩ := Nat.exists_eq_add_of_le behind
      exact first offset (by omega) ((shift offset).mpr fits)

theorem cut_joinLines_eq_some_iff {pattern : List Char} (flat : '\n' ∉ pattern)
    {lines : List (List Char)} (nonempty : lines ≠ []) (body rest : List Char) :
    cut pattern (joinLines lines) = some (body, rest) ↔
      ∃ between last lower head after, lines = between ++ last :: lower ∧
        (∀ line ∈ between, cut pattern line = none) ∧ cut pattern last = some (head, after) ∧
        body = joinLines (between ++ [head]) ∧ rest = joinLines (after :: lower) := by
  induction lines generalizing body with
  | nil => exact absurd rfl nonempty
  | cons line below ih =>
      constructor
      · intro found
        cases here : cut pattern line with
        | some pair =>
            obtain ⟨head, after⟩ := pair
            have whole : cut pattern (joinLines (line :: below)) =
                some (head, joinLines (after :: below)) := by
              cases below with
              | nil => simpa using here
              | cons next below =>
                  rw [joinLines_cons_cons, cut_append_of_eq_some here, joinLines_cons_cons]
            obtain ⟨rfl, rfl⟩ := Prod.mk.inj (Option.some.inj (whole.symm.trans found))
            exact ⟨[], line, below, head, after, rfl, by simp, here, by simp, rfl⟩
        | none =>
            cases below with
            | nil => simp [here] at found
            | cons next below =>
                rw [joinLines_cons_cons, cut_append_cons_of_eq_none flat here] at found
                obtain ⟨⟨later, behind⟩, known, same⟩ := Option.map_eq_some_iff.mp found
                obtain ⟨rfl, rfl⟩ := Prod.mk.inj same
                obtain ⟨between, last, lower, head, after, parts, passes, closes, rfl, rfl⟩ :=
                  (ih (by simp) later).mp known
                refine ⟨line :: between, last, lower, head, after, by simp [parts], ?_, closes,
                  (joinLines_cons_of_ne_nil line (by simp)).symm, rfl⟩
                intro passed member
                rcases List.mem_cons.mp member with rfl | member
                · exact here
                · exact passes passed member
      · rintro ⟨between, last, lower, head, after, parts, passes, closes, rfl, rfl⟩
        cases between with
        | nil =>
            obtain ⟨rfl, rfl⟩ := List.cons.inj parts
            cases below with
            | nil => simpa using closes
            | cons next below =>
                rw [joinLines_cons_cons, cut_append_of_eq_some closes, joinLines_cons_cons]
                simp
        | cons first between =>
            simp only [List.cons_append, List.cons.injEq] at parts
            obtain ⟨rfl, parts⟩ := parts
            have belowNonempty : below ≠ [] := by simp [parts]
            have later := (ih belowNonempty (joinLines (between ++ [head]))).mpr
              ⟨between, last, lower, head, after, parts,
                fun passed member => passes passed (List.mem_cons_of_mem _ member), closes, rfl, rfl⟩
            rw [joinLines_cons_of_ne_nil line belowNonempty,
              cut_append_cons_of_eq_none flat (passes line List.mem_cons_self), later, List.cons_append,
              joinLines_cons_of_ne_nil line (by simp)]
            rfl

end Unbroken
