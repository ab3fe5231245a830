import Unbroken.Proofs.Closers
import Unbroken.Proofs.Pass

/-! What becomes of a broken message over many passes. If no pass loses a visible letter, all closing
markers inside the message stay on one line with the one at its end. So when the text comes clean and
the message still leads its line, it is on one line; but if another opening marker has come to stand
before it, it is overlooked, and may stay broken. -/

namespace Unbroken

def PassesApart (file : Path) (text : List Char) (passes : Nat) : Prop :=
  ∀ earlier < passes,
    Apart (unitedIn (Template.ofText (mendOnce^[earlier] text)) (breaksIn file (mendOnce^[earlier] text)))

section

variable {file : Path} {text : List Char}

theorem mendOnce_eq_text_mend (file : Path) (text : List Char) :
    mendOnce text = (mend (Template.ofText text) (breaksIn file text)).template.text := by
  rw [mendOnce, mend_breaksIn_default file]

theorem solid_mendOnce_of_apart
    (apart : Apart (unitedIn (Template.ofText text) (breaksIn file text))) :
    solid (mendOnce text) = solid text := by
  rw [mendOnce_eq_text_mend file]
  exact solid_mend_of_apart apart

theorem mendOnce_closersStem
    (apart : Apart (unitedIn (Template.ofText text) (breaksIn file text))) :
    ClosersStem text (mendOnce text) := by
  have stems := (settles_settle file 0 (splitLines text)).closersStem
    ((apart_unitedIn_iff file text).mp apart) fun line => newline_not_mem_of_mem_splitLines
  rwa [joinLines_splitLines, ← text_mend_breaksIn, ← mendOnce_eq_text_mend] at stems

theorem mendOnce_tightens
    (apart : Apart (unitedIn (Template.ofText text) (breaksIn file text))) :
    Tightens (mendOnce text) text := by
  apply (mendOnce_sheds text).tightens
  rw [solid_mendOnce_of_apart apart]

end

namespace PassesApart

variable {file : Path} {text : List Char} {passes : Nat}

theorem earlier (apart : PassesApart file text (passes + 1)) : PassesApart file text passes :=
  fun pass bound => apart pass (Nat.lt_succ_of_lt bound)

theorem solid_eq (apart : PassesApart file text passes) :
    solid (mendOnce^[passes] text) = solid text := by
  induction passes with
  | zero => rfl
  | succ passes ih =>
      rw [Function.iterate_succ_apply', solid_mendOnce_of_apart (apart passes (Nat.lt_succ_self _)),
        ih apart.earlier]

theorem of_solid_eq (file : Path) (same : solid (mendOnce^[passes] text) = solid text) :
    PassesApart file text passes := by
  intro pass bound
  by_contra shifted
  have lost := length_solid_mend_lt shifted
  obtain ⟨later, rfl⟩ := Nat.exists_eq_add_of_le' (Nat.succ_le_of_lt bound)
  have before := (mendOnce_iterate_sheds pass text).solid_sublist.length_le
  have behind := (mendOnce_iterate_sheds later (mendOnce^[pass + 1] text)).solid_sublist.length_le
  rw [← Function.iterate_add_apply, same, Function.iterate_succ_apply'] at behind
  rw [← mendOnce_eq_text_mend] at lost
  omega

theorem tightens (apart : PassesApart file text passes) : Tightens (mendOnce^[passes] text) text := by
  apply (mendOnce_iterate_sheds passes text).tightens
  rw [apart.solid_eq]

end PassesApart

/-- All closing markers from one place to another are on one line with the one that stands there. -/
def InnerClosersReach (text : List Char) (quote : Quote) (first stop : Nat) : Prop :=
  ∀ offset, first ≤ offset → offset < stop → ReadsAt quote.closer text offset →
    OnOneLine text offset (stop + 2)

namespace InnerClosersReach

variable {text : List Char} {quote : Quote} {first stop : Nat}

theorem step {old new : List Char} (inner : InnerClosersReach old quote first stop)
    (tightens : Tightens new old) (stems : ClosersStem old new) :
    InnerClosersReach new quote first stop := by
  intro offset above below reads
  obtain ⟨origin, behind, stood, together⟩ := stems quote offset reads
  by_cases inside : origin < stop
  · have further := tightens.onOneLine (inner origin (by omega) inside stood)
    exact together.trans further (by omega)
  · intro place newline
    have apart := together place newline
    omega

theorem iterate {file : Path} {passes : Nat} (inner : InnerClosersReach text quote first stop)
    (apart : PassesApart file text passes) :
    InnerClosersReach (mendOnce^[passes] text) quote first stop := by
  induction passes with
  | zero => exact inner
  | succ passes ih =>
      have here := apart passes (Nat.lt_succ_self _)
      rw [Function.iterate_succ_apply']
      exact (ih apart.earlier).step (mendOnce_tightens here) (mendOnce_closersStem here)

theorem of_closes {opening closing : Nat} (closes : Closes text quote opening closing) :
    InnerClosersReach text quote (solid (text.take opening)).length
      (solid (text.take closing)).length := by
  rintro offset above below ⟨front, behind, parts, rfl⟩
  have stands : StandsAt quote.closer text front.length := by
    rw [StandsAt, parts, List.append_assoc, List.drop_left]
    exact List.prefix_append _ _
  have reached : opening ≤ front.length := by
    by_contra early
    have longer := length_solid_take_le text (show front.length + 1 ≤ opening by omega)
    have letters : text.take (front.length + 1) = front ++ [quote.char] := by
      rw [parts, List.append_assoc, List.take_length_add_append]
      rfl
    have visible : (solid [quote.char]).length = 1 := by cases quote <;> decide
    rw [letters, solid_append, List.length_append, visible] at longer
    omega
  have passed : closing ≤ front.length := by
    by_contra early
    exact closes.first _ reached (by omega) stands
  have longer := length_solid_take_le text passed
  have letters : text.take front.length = front := by
    rw [parts, List.append_assoc, List.take_left]
  rw [letters] at longer
  omega

end InnerClosersReach

section

variable {before body behind : List Char} {quote : Quote}

theorem not_clean_of_markers {text : List Char} {number opening closing : Nat}
    (opens : Opens text number quote opening) (closes : Closes text quote (opening + 3) closing)
    (crosses : '\n' ∈ (text.take closing).drop (opening + 3))
    (near : ((text.take closing).drop (opening + 3)).count '\n' ≤ reach) : ¬ Clean text := by
  intro clean
  let body := (text.take closing).drop (opening + 3)
  have member := (mem_breaksIn_iff_markers default text {
    file := default
    firstLine := number
    lastLine := number + body.count '\n'
    quote := quote
    text := singleSpaced body
    excerpt := trim (joinLines
      (((splitLines text).drop (number - 1)).take (body.count '\n' + 1))) }).mpr
    ⟨opening, closing, opens, closes, List.count_pos_iff.mpr crosses, near, rfl⟩
  rw [clean] at member
  cases member

theorem exists_cut_closer (body behind : List Char) (quote : Quote) :
    ∃ inside more rest, body = inside ++ more ∧
      cut quote.closer (body ++ quote.closer ++ behind) = some (inside, rest) := by
  have present : occurs quote.closer (body ++ quote.closer ++ behind) = true :=
    (occurs_iff _ _).mpr ⟨body, behind, rfl⟩
  obtain ⟨⟨inside, rest⟩, found⟩ := Option.isSome_iff_exists.mp present
  obtain ⟨parts, first⟩ := (cut_eq_some_iff _ _ _ _).mp found
  have short : inside.length ≤ body.length := by
    by_contra beyond
    refine first body.length (by omega) ?_
    rw [StandsAt, List.append_assoc, List.drop_left]
    exact List.prefix_append _ _
  have starts : inside <+: body ++ quote.closer ++ behind := by
    rw [parts, List.append_assoc]
    exact List.prefix_append _ _
  have within : body <+: body ++ quote.closer ++ behind := by
    rw [List.append_assoc]
    exact List.prefix_append _ _
  obtain ⟨more, whole⟩ := List.prefix_of_prefix_length_le starts within short
  exact ⟨inside, more, rest, whole.symm, found⟩

theorem newline_not_mem_behind_closer {inside more rest : List Char}
    (inner : InnerClosersReach (before ++ quote.opener ++ (inside ++ more) ++ quote.closer ++ behind) quote
      (solid (before ++ quote.opener)).length
      (solid (before ++ quote.opener ++ (inside ++ more))).length)
    (parts : more ++ quote.closer ++ behind = quote.closer ++ rest) : '\n' ∉ more := by
  intro newline
  have visible := isBlank_char quote
  obtain ⟨left, right, rfl⟩ := List.append_of_mem newline
  obtain ⟨left', rfl⟩ : ∃ left', left = quote.char :: left' := by
    have same : left ++ '\n' :: (right ++ quote.closer ++ behind) = quote.char :: ')' :: rest := by
      simpa [Quote.closer] using parts
    cases left with
    | nil =>
        have letter := (List.cons.inj same).1
        cases quote <;> exact absurd letter (by decide)
    | cons letter left' =>
        obtain ⟨rfl, -⟩ := List.cons.inj same
        exact ⟨left', rfl⟩
  have reads : ReadsAt quote.closer
      (before ++ quote.opener ++ (inside ++ (quote.char :: left' ++ '\n' :: right)) ++ quote.closer ++ behind)
      (solid (before ++ quote.opener ++ inside)).length := by
    refine ⟨before ++ quote.opener ++ inside, rest, ?_, rfl⟩
    simpa using parts
  have feed : ReadsAt ['\n']
      (before ++ quote.opener ++ (inside ++ (quote.char :: left' ++ '\n' :: right)) ++ quote.closer ++ behind)
      (solid (before ++ quote.opener ++ inside ++ quote.char :: left')).length := by
    refine ⟨before ++ quote.opener ++ inside ++ quote.char :: left', right ++ quote.closer ++ behind,
      ?_, rfl⟩
    simp
  have together := inner _ ?_ ?_ reads _ feed
  · simp only [solid_append, List.length_append, solid_cons_of_not_blank visible, List.length_cons]
      at together
    omega
  · simp only [solid_append, List.length_append]
    omega
  · simp only [solid_append, List.length_append, List.cons_append, solid_cons_of_not_blank visible,
      List.length_cons]
    omega

theorem newline_not_mem_of_clean {text : List Char}
    (whole : text = before ++ quote.opener ++ body ++ quote.closer ++ behind) (clean : Clean text)
    (leads : ∀ earlier < before.length, lineOf text earlier = lineOf text before.length →
      ∀ other : Quote, ¬ StandsAt other.opener text earlier)
    (near : body.count '\n' ≤ reach)
    (inner : InnerClosersReach text quote (solid (before ++ quote.opener)).length
      (solid (before ++ quote.opener ++ body)).length) :
    '\n' ∉ body := by
  have opens : Opens text (lineOf text before.length) quote before.length := by
    refine ⟨?_, rfl, leads⟩
    rw [StandsAt, whole]
    simp only [List.append_assoc, List.drop_left]
    exact List.prefix_append _ _
  have tail : text.drop (before.length + 3) = body ++ quote.closer ++ behind := by
    have size : quote.opener.length = 3 := rfl
    rw [whole]
    simp only [List.append_assoc]
    rw [← List.append_assoc]
    exact List.drop_left' (by rw [List.length_append, size])
  obtain ⟨inside, more, rest, rfl, found⟩ := exists_cut_closer body behind quote
  rw [List.count_append] at near
  -- The search from the marker on ends before the first line feed, as there is no break here.
  have flat : '\n' ∉ inside := by
    intro newline
    rw [← tail] at found
    have closes : Closes text quote (before.length + 3) (before.length + 3 + inside.length) :=
      (closes_iff_cut _ _ _ _).mpr ⟨inside, rest, found, rfl⟩
    refine not_clean_of_markers opens closes ?_ ?_ clean
    · rw [slice_of_cut found]
      exact newline
    · rw [slice_of_cut found]
      omega
  have onward : more ++ quote.closer ++ behind = quote.closer ++ rest := by
    have parts := cut_append found
    simp only [List.append_assoc] at parts
    simpa only [List.append_assoc] using List.append_cancel_left parts
  subst whole
  simp only [List.mem_append, not_or]
  exact ⟨flat, newline_not_mem_behind_closer inner onward⟩

end

/-! What becomes of a break, told by the places of its markers. -/

/-- The message of a break is on one line of a later text, and around it only blanks have changed. -/
def StandsWhole (text after : List Char) (broken : Break) (opening closing : Nat) : Prop :=
  ∃ before message behind, after = before ++ message ++ behind ∧ '\n' ∉ message ∧
    solid before = solid (text.take opening) ∧
    solid message = solid (broken.quote.opener ++ broken.text ++ broken.quote.closer) ∧
    solid behind = solid (text.drop (closing + 2))

/-- The markers of a break are on different lines of a later text, where another opening marker
stands before the one of the break. -/
def Overlooked (text after : List Char) (quote : Quote) (opening closing : Nat) : Prop :=
  ∃ start stop, StandsAt quote.opener after start ∧ StandsAt quote.closer after stop ∧
    solid (after.take start) = solid (text.take opening) ∧
    solid (after.take stop) = solid (text.take closing) ∧
    lineOf after start < lineOf after stop ∧
    ∃ earlier < start, lineOf after earlier = lineOf after start ∧
      ∃ other : Quote, StandsAt other.opener after earlier

structure Marks (text : List Char) (broken : Break) (opening closing : Nat) : Prop where
  opens : StandsAt broken.quote.opener text opening
  closes : Closes text broken.quote (opening + 3) closing
  near : ((text.take closing).drop (opening + 3)).count '\n' ≤ reach
  message : broken.text = singleSpaced ((text.take closing).drop (opening + 3))

theorem Marks.parts {text : List Char} {broken : Break} {opening closing : Nat}
    (marks : Marks text broken opening closing) :
    let body := (text.take closing).drop (opening + 3)
    text = text.take opening ++ broken.quote.opener ++ body ++ broken.quote.closer ++
        text.drop (closing + 2) ∧
      text.take (opening + 3) = text.take opening ++ broken.quote.opener ∧
      text.take closing = text.take opening ++ broken.quote.opener ++ body := by
  intro body
  obtain ⟨inside, after, found, rfl⟩ := (closes_iff_cut _ _ _ _).mp marks.closes
  have slice : body = inside := slice_of_cut found
  obtain ⟨rest, start⟩ := marks.opens
  have bound : opening ≤ text.length := by
    by_contra beyond
    rw [List.drop_eq_nil_of_le (by omega)] at start
    simp [Quote.opener] at start
  have size : (text.take opening).length = opening := List.length_take_of_le bound
  have opener : broken.quote.opener.length = 3 := rfl
  have closer : broken.quote.closer.length = 2 := rfl
  have whole : text = text.take opening ++ broken.quote.opener ++ inside ++ broken.quote.closer ++ after := by
    have tail := cut_append found
    rw [← List.drop_drop, ← start, ← opener, List.drop_left] at tail
    conv_lhs => rw [← List.take_append_drop opening text, ← start, tail]
    simp only [List.append_assoc]
  rw [slice]
  refine ⟨?_, ?_, ?_⟩
  · have ending : text.drop (opening + 3 + inside.length + 2) = after := by
      conv_lhs => rw [whole]
      exact List.drop_left' (by simp only [List.length_append]; omega)
    rw [ending]
    exact whole
  · conv_lhs => rw [whole, List.append_assoc _ inside, List.append_assoc _ (inside ++ broken.quote.closer)]
    exact List.take_left' (by simp only [List.length_append]; omega)
  · conv_lhs => rw [whole, List.append_assoc _ broken.quote.closer]
    exact List.take_left' (by simp only [List.length_append]; omega)

theorem blank_free_opener (quote : Quote) : ∀ letter ∈ quote.opener, isBlank letter = false := by
  have underscore : isBlank '_' = false := by decide
  have bracket : isBlank '(' = false := by decide
  simp [Quote.opener, underscore, bracket, isBlank_char]

theorem Tightens.split_markers {new before body behind : List Char} {quote : Quote}
    (tightens : Tightens new (before ++ quote.opener ++ body ++ quote.closer ++ behind)) :
    ∃ newBefore newBody newBehind,
      new = newBefore ++ quote.opener ++ newBody ++ quote.closer ++ newBehind ∧
        Tightens newBefore before ∧ Tightens newBody body ∧ Tightens newBehind behind := by
  obtain ⟨closed, newBehind, rfl, toCloser, last⟩ := tightens.split_old
  obtain ⟨spread, closer, rfl, toBody, closes⟩ := toCloser.split_old
  obtain ⟨opened, newBody, rfl, toOpener, inside⟩ := toBody.split_old
  obtain ⟨newBefore, opener, rfl, first, opens⟩ := toOpener.split_old
  obtain rfl := closes.eq_of_word (blank_free_closer quote)
  obtain rfl := opens.eq_of_word (blank_free_opener quote)
  exact ⟨newBefore, newBody, newBehind, rfl, first, inside, last⟩

theorem lineOf_append_left (left right : List Char) :
    lineOf (left ++ right) left.length = left.count '\n' + 1 := by
  rw [lineOf, List.take_left]

theorem exists_newline_of_lineOf_lt {text : List Char} {start stop : Nat}
    (below : lineOf text start < lineOf text stop) :
    ∃ left right, text.drop start = left ++ '\n' :: right ∧
      (solid (text.take start ++ left)).length ≤ (solid (text.take stop)).length := by
  have more : (text.take start).count '\n' < (text.take stop).count '\n' := Nat.lt_of_succ_lt_succ below
  have ordered : start ≤ stop := by
    by_contra behind
    have starts : text.take stop <+: text.take start := List.take_prefix_take_left (by omega)
    have fewer := starts.sublist.count_le '\n'
    omega
  have between : text.take stop = text.take start ++ (text.take stop).drop start := by
    conv_lhs => rw [← List.take_append_drop start (text.take stop), List.take_take,
      Nat.min_eq_left ordered]
  have newline : '\n' ∈ (text.take stop).drop start := by
    rw [between, List.count_append] at more
    exact List.count_pos_iff.mp (by omega)
  obtain ⟨left, right, parts⟩ := List.append_of_mem newline
  refine ⟨left, right ++ text.drop stop, ?_, ?_⟩
  · have whole : text.take start ++ text.drop start =
        text.take start ++ (left ++ '\n' :: (right ++ text.drop stop)) := by
      rw [List.take_append_drop]
      conv_lhs => rw [← List.take_append_drop stop text, between, parts]
      simp
    exact List.append_cancel_left whole
  · rw [between, parts]
    simp only [solid_append, List.length_append]
    omega

theorem exists_line_of_flat {message : List Char} (before behind : List Char) (flat : '\n' ∉ message) :
    ∃ line ∈ splitLines (before ++ message ++ behind), message <:+: line := by
  obtain ⟨above, last, upper⟩ : ∃ above last, splitLines before = above ++ [last] :=
    ⟨_, _, (List.dropLast_append_getLast (splitLines_ne_nil before)).symm⟩
  obtain ⟨first, below, lower⟩ := List.exists_cons_of_ne_nil (splitLines_ne_nil behind)
  have upperWhole : ∀ line ∈ above ++ [last], '\n' ∉ line := by
    rw [← upper]
    exact fun line => newline_not_mem_of_mem_splitLines
  have lowerWhole : ∀ line ∈ first :: below, '\n' ∉ line := by
    rw [← lower]
    exact fun line => newline_not_mem_of_mem_splitLines
  have joined : before ++ message ++ behind =
      joinLines (above ++ (last ++ message ++ first) :: below) := by
    rw [← joinLines_splitLines before, ← joinLines_splitLines behind, upper, lower,
      joinLines_append_cons, joinLines_append_cons, joinLines_singleton, joinLines_append_head]
    simp only [List.append_assoc]
  have split : splitLines (before ++ message ++ behind) =
      above ++ (last ++ message ++ first) :: below := by
    rw [joined]
    apply splitLines_joinLines (by simp)
    intro line member
    simp only [List.mem_append, List.mem_cons] at member upperWhole
    rcases member with high | rfl | low
    · exact upperWhole line (Or.inl high)
    · simp only [List.mem_append, not_or]
      exact ⟨⟨upperWhole last (by simp), flat⟩, lowerWhole first List.mem_cons_self⟩
    · exact lowerWhole line (List.mem_cons_of_mem _ low)
  refine ⟨last ++ message ++ first, ?_, last, first, rfl⟩
  rw [split]
  simp

theorem exists_readsAt_newline {text word : List Char} {letter : Char} {start stop : Nat}
    (visible : isBlank letter = false) (stands : StandsAt (letter :: word) text start)
    (below : lineOf text start < lineOf text stop) :
    ∃ offset, ReadsAt ['\n'] text offset ∧ (solid (text.take start)).length < offset ∧
      offset ≤ (solid (text.take stop)).length := by
  obtain ⟨left, right, rest, within⟩ := exists_newline_of_lineOf_lt below
  obtain ⟨left', rfl⟩ : ∃ left', left = letter :: left' := by
    rw [StandsAt, rest] at stands
    cases left with
    | nil =>
        have same := (List.cons_prefix_cons.mp stands).1
        rw [same] at visible
        exact absurd visible (by decide)
    | cons first left' =>
        obtain ⟨rfl, -⟩ := List.cons_prefix_cons.mp stands
        exact ⟨left', rfl⟩
  refine ⟨_, ⟨text.take start ++ letter :: left', right, ?_, rfl⟩, ?_, within⟩
  · conv_lhs => rw [← List.take_append_drop start text, rest]
    simp
  · simp only [solid_append, solid_cons_of_not_blank visible, List.length_append, List.length_cons]
    omega

namespace StandsWhole

variable {text after : List Char} {broken : Break} {opening closing : Nat}

theorem solid_eq (whole : StandsWhole text after broken opening closing)
    (marks : Marks text broken opening closing) : solid after = solid text := by
  obtain ⟨before, inside, behind, rfl, -, first, middle, last⟩ := whole
  conv_rhs => rw [marks.parts.1]
  rw [marks.message] at middle
  simp only [solid_append, solid_singleSpaced] at middle ⊢
  rw [first, middle, last]
  simp only [List.append_assoc]

theorem not_overlooked (whole : StandsWhole text after broken opening closing)
    (marks : Marks text broken opening closing) :
    ¬ Overlooked text after broken.quote opening closing := by
  rintro ⟨start, stop, opens, -, sameStart, sameStop, below, -⟩
  obtain ⟨before, inside, behind, joined, flat, first, middle, -⟩ := whole
  obtain ⟨offset, feed, above, within⟩ :=
    exists_readsAt_newline (by decide : isBlank '_' = false) opens below
  have line := ReadsAt.onOneLine flat ⟨before, behind, joined, rfl⟩ offset feed
  rw [first, middle, marks.message] at line
  rw [sameStart] at above
  rw [sameStop, marks.parts.2.2] at within
  simp only [solid_append, solid_singleSpaced, List.length_append, length_solid_closer] at line within
  omega

theorem exists_line (whole : StandsWhole text after broken opening closing) :
    ∃ line ∈ splitLines after,
      solid (broken.quote.opener ++ broken.text ++ broken.quote.closer) <:+: solid line := by
  obtain ⟨before, message, behind, rfl, flat, -, middle, -⟩ := whole
  obtain ⟨line, member, holds⟩ := exists_line_of_flat before behind flat
  refine ⟨line, member, ?_⟩
  rw [← middle]
  exact holds.filter _

end StandsWhole

section

variable {text before body behind : List Char} {broken : Break} {opening closing : Nat}

theorem overlooked_of_newline (marks : Marks text broken opening closing)
    (first : Tightens before (text.take opening))
    (inside : Tightens body ((text.take closing).drop (opening + 3))) (newline : '\n' ∈ body)
    {after : List Char} (parts : after = before ++ broken.quote.opener ++ body ++ broken.quote.closer ++ behind)
    (hidden : ∃ earlier < before.length, lineOf after earlier = lineOf after before.length ∧
      ∃ other : Quote, StandsAt other.opener after earlier) :
    Overlooked text after broken.quote opening closing := by
  have upper : after = before ++ (broken.quote.opener ++ body ++ broken.quote.closer ++ behind) := by
    simp only [parts, List.append_assoc]
  have lower : after = (before ++ broken.quote.opener ++ body) ++ (broken.quote.closer ++ behind) := by
    simp only [parts, List.append_assoc]
  refine ⟨before.length, (before ++ broken.quote.opener ++ body).length, ?_, ?_, ?_, ?_, ?_, hidden⟩
  · rw [StandsAt, upper, List.drop_left]
    simp only [List.append_assoc]
    exact List.prefix_append _ _
  · rw [StandsAt, lower, List.drop_left]
    exact List.prefix_append _ _
  · rw [upper, List.take_left]
    exact first.solid_eq
  · rw [lower, List.take_left, marks.parts.2.2]
    simp only [solid_append, first.solid_eq, inside.solid_eq]
  · have crossed : 0 < body.count '\n' := List.count_pos_iff.mpr newline
    have start : lineOf after before.length = before.count '\n' + 1 := by
      rw [upper, lineOf_append_left]
    have stop : lineOf after (before ++ broken.quote.opener ++ body).length =
        (before ++ broken.quote.opener ++ body).count '\n' + 1 := by
      rw [lower, lineOf_append_left]
    rw [start, stop, List.count_append, List.count_append]
    omega

theorem standsWhole_of_flat (marks : Marks text broken opening closing)
    (first : Tightens before (text.take opening))
    (inside : Tightens body ((text.take closing).drop (opening + 3)))
    (last : Tightens behind (text.drop (closing + 2))) (flat : '\n' ∉ body) :
    StandsWhole text (before ++ broken.quote.opener ++ body ++ broken.quote.closer ++ behind) broken
      opening closing := by
  refine ⟨before, broken.quote.opener ++ body ++ broken.quote.closer, behind, ?_, ?_, ?_, ?_, ?_⟩
  · simp only [List.append_assoc]
  · simp only [List.mem_append, not_or]
    exact ⟨⟨newline_not_mem_opener _, flat⟩, newline_not_mem_closer _⟩
  · exact first.solid_eq
  · rw [marks.message]
    simp only [solid_append, solid_singleSpaced, inside.solid_eq]
  · exact last.solid_eq

end

/-- In a text that came clean after some passes, a break stands whole just if no pass lost a visible
letter and the break is not overlooked. -/
theorem standsWhole_iff {file : Path} {text : List Char} {broken : Break} {passes : Nat}
    {opening closing : Nat} (clean : Clean (mendOnce^[passes] text))
    (marks : Marks text broken opening closing) :
    StandsWhole text (mendOnce^[passes] text) broken opening closing ↔
      PassesApart file text passes ∧
        ¬ Overlooked text (mendOnce^[passes] text) broken.quote opening closing := by
  constructor
  · intro whole
    exact ⟨.of_solid_eq file (whole.solid_eq marks), whole.not_overlooked marks⟩
  · rintro ⟨apart, seen⟩
    obtain ⟨parts, head, upTo⟩ := marks.parts
    have inner := (InnerClosersReach.of_closes marks.closes).iterate apart
    have tightens := apart.tightens
    rw [head, upTo] at inner
    generalize mendOnce^[passes] text = after at *
    rw [parts] at tightens
    obtain ⟨before, body, behind, rfl, first, inside, last⟩ := tightens.split_markers
    refine standsWhole_of_flat marks first inside last ?_
    intro newline
    refine newline_not_mem_of_clean rfl clean ?_ ?_ ?_ newline
    · intro earlier bound same other hides
      exact seen (overlooked_of_newline marks first inside newline rfl
        ⟨earlier, bound, same, other, hides⟩)
    · exact Nat.le_trans inside.count_newline_le marks.near
    · simpa only [solid_append, first.solid_eq, inside.solid_eq] using inner

end Unbroken
