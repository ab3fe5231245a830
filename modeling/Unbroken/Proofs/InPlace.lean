import Unbroken.Proofs.Closers
import Unbroken.Proofs.Text.Splice

/-! Mending as replacing. To mend breaks whose messages do not overlap is to put each message, as it
stands between its markers, on one line in its place, and to leave everything else as it is. Mending
looks for the markers anew, on lines that it may have changed; but as it goes from the bottom up, a
text that was changed behind a message still has both markers of the message where they were. -/

namespace Unbroken

def firstFrom (pattern text : List Char) (start : Nat) : Nat :=
  start + ((cut pattern (text.drop start)).map fun (before, _) => before.length).getD 0

def lineStart (text : List Char) (number : Nat) : Nat :=
  (rows ((splitLines text).take (number - 1))).length

/-- The stretch from behind the opening marker of a break to the first closing marker, and the message
on one line. -/
def Break.splice (broken : Break) (text : List Char) : Splice :=
  let start := firstFrom broken.quote.opener text (lineStart text broken.firstLine) + 3
  { start := start
    stop := firstFrom broken.quote.closer text start
    text := broken.text }

theorem lineOf_le_lineOf (text : List Char) {first second : Nat} (ordered : first ≤ second) :
    lineOf text first ≤ lineOf text second :=
  Nat.succ_le_succ ((List.take_prefix_take_left ordered).sublist.count_le '\n')

theorem lineOf_of_take_eq {text other : List Char} {bound position : Nat}
    (same : other.take bound = text.take bound) (within : position ≤ bound) :
    lineOf other position = lineOf text position := by
  have front : other.take position = text.take position := by
    have taken := congrArg (List.take position) same
    rwa [List.take_take, List.take_take, Nat.min_eq_left within] at taken
  rw [lineOf, lineOf, front]

namespace Opens

variable {text other : List Char} {number position : Nat} {quote : Quote}

theorem of_take_eq (opens : Opens text number quote position) {bound : Nat}
    (same : other.take bound = text.take bound) (within : position + 3 ≤ bound) :
    Opens other number quote position := by
  refine ⟨(standsAt_of_take_eq same within).mpr opens.stands, ?_, ?_⟩
  · rw [lineOf_of_take_eq same (by omega)]
    exact opens.onLine
  · intro earlier before onLine known stands
    have size : known.opener.length = 3 := rfl
    rw [lineOf_of_take_eq same (by omega)] at onLine
    exact opens.leftmost earlier before onLine known ((standsAt_of_take_eq same (by omega)).mp stands)

theorem unique {quote' : Quote} {position' : Nat} (opens : Opens text number quote position)
    (others : Opens text number quote' position') : position = position' := by
  rcases Nat.lt_trichotomy position position' with before | same | behind
  · exact absurd opens.stands (others.leftmost _ before opens.onLine quote)
  · exact same
  · exact absurd others.stands (opens.leftmost _ behind others.onLine quote')

end Opens

namespace Closes

variable {text other : List Char} {start position : Nat} {quote : Quote}

theorem of_take_eq (closes : Closes text quote start position) {bound : Nat}
    (same : other.take bound = text.take bound) (within : position + 2 ≤ bound) :
    Closes other quote start position := by
  refine ⟨closes.behind, (standsAt_of_take_eq same within).mpr closes.stands, ?_⟩
  intro earlier behind before stands
  have size : quote.closer.length = 2 := rfl
  exact closes.first earlier behind before ((standsAt_of_take_eq same (by omega)).mp stands)

theorem unique {position' : Nat} (closes : Closes text quote start position)
    (others : Closes text quote start position') : position = position' := by
  rcases Nat.lt_trichotomy position position' with before | same | behind
  · exact absurd closes.stands (others.first _ closes.behind before)
  · exact same
  · exact absurd others.stands (closes.first _ others.behind behind)

end Closes

theorem firstFrom_of_cut {pattern text before after : List Char} {start : Nat}
    (found : cut pattern (text.drop start) = some (before, after)) :
    firstFrom pattern text start = start + before.length := by
  rw [firstFrom, found]
  rfl

namespace Span

variable {line : List Char} {below : List (List Char)}

theorem cut_opener (span : Span line below) :
    ∃ behind, cut span.marker.quote.opener (joinLines (line :: below)) =
      some (span.marker.before, behind) := by
  have nonempty : below ≠ [] := by
    rw [span.parts]
    simp
  rw [joinLines_cons_of_ne_nil line nonempty]
  exact ⟨_, cut_append_of_eq_some (Marker.cut_opener span.leads) _⟩

variable {text : List Char} {above : List (List Char)}

def front (span : Span line below) (above : List (List Char)) : List Char :=
  rows above ++ span.marker.before ++ span.marker.quote.opener

def behind (span : Span line below) : List Char :=
  span.marker.quote.closer ++ joinLines (span.after :: span.lower)

theorem joinLines_around (span : Span line below) (above : List (List Char)) :
    joinLines (above ++ line :: below) = span.front above ++ span.body ++ span.behind := by
  have shape := span.joinLines_eq span.lower
  rw [← span.parts] at shape
  rw [joinLines_append_cons, shape, front, behind]
  simp only [List.append_assoc]

theorem joinLines_united_around (span : Span line below) (above : List (List Char)) :
    joinLines (above ++ span.united span.after :: span.lower) =
      span.front above ++ span.text ++ span.behind := by
  rw [joinLines_append_cons, united, joinLines_append_head, front, behind]
  simp only [List.append_assoc]

theorem splice_toBreak (span : Span line below) (file : Path)
    (parts : splitLines text = above ++ line :: below) :
    (span.toBreak file (above.length + 1)).splice text =
      { start := (span.front above).length
        stop := (span.front above).length + span.body.length
        text := span.text } := by
  obtain ⟨-, joined⟩ := whole_of_splitLines parts
  obtain ⟨rest, opens⟩ := span.cut_opener
  have upper : lineStart text (above.length + 1) = (rows above).length := by
    rw [lineStart, parts, Nat.add_sub_cancel, List.take_left]
  have opening : firstFrom span.marker.quote.opener text (rows above).length =
      (rows above).length + span.marker.before.length := by
    have dropped : text.drop (rows above).length = joinLines (line :: below) := by
      rw [← joined, joinLines_append_cons, List.drop_left]
    rw [← dropped] at opens
    exact firstFrom_of_cut opens
  have size : (span.front above).length = (rows above).length + span.marker.before.length + 3 := by
    simp only [front, List.length_append]
    rfl
  have closing : firstFrom span.marker.quote.closer text (span.front above).length =
      (span.front above).length + span.body.length := by
    have found := span.cut_closer
    rw [← drop_behind_marker above below span.leads, joined, ← size] at found
    exact firstFrom_of_cut found
  simp only [Break.splice, toBreak, upper, opening, ← size, closing]

theorem splitLines_united_around (span : Span line below)
    (parts : splitLines text = above ++ line :: below) :
    splitLines (span.front above ++ span.text ++ span.behind) =
      above ++ span.united span.after :: span.lower := by
  obtain ⟨whole, -⟩ := whole_of_splitLines parts
  rw [← joinLines_united_around]
  refine splitLines_joinLines (by simp) fun other member => ?_
  rw [List.mem_append, List.mem_cons] at member
  rcases member with upper | rfl | lower
  · exact whole other (by simp [upper])
  · have last : span.last ∈ above ++ line :: below := by simp [span.parts]
    have flat := whole _ last
    rw [span.last_eq, List.mem_append, not_or] at flat
    have closed := span.newline_not_mem_closed (whole line (by simp))
    exact fun inside => (List.mem_append.mp inside).elim closed flat.2
  · exact whole other (by simp [span.parts, lower])

theorem unite?_toBreak_self (span : Span line below) (file : Path)
    (parts : splitLines text = above ++ line :: below) :
    unite? (span.toBreak file (above.length + 1)) (splitLines text) =
      some (splitLines (span.front above ++ span.text ++ span.behind)) := by
  have reached : below[span.between.length]? = some span.last :=
    (congrArg (·[span.between.length]?) span.parts).trans (by simp)
  have rest : below.drop span.depth = span.lower :=
    (congrArg (List.drop span.depth) span.parts).trans (by simp [depth])
  rw [span.splitLines_united_around parts, parts, unite?_append above _ (Nat.lt_succ_self _), span.below_toBreak,
    span.unite?_toBreak, reached, Option.bind_some, span.closes, Option.map_some, Option.map_some, rest]

end Span

section

variable {file : Path} {text : List Char} {broken : Break}

theorem markers_of_mem_breaksIn (member : broken ∈ breaksIn file text) :
    ∃ opening, (broken.splice text).start = opening + 3 ∧
      Opens text broken.firstLine broken.quote opening ∧
      Closes text broken.quote (opening + 3) (broken.splice text).stop := by
  obtain ⟨above, line, below, parts, span, rfl⟩ := exists_span_of_mem_breaksIn member
  obtain ⟨whole, joined⟩ := whole_of_splitLines parts
  have size : (span.front above).length = (rows above).length + span.marker.before.length + 3 := by
    simp only [Span.front, List.length_append]
    rfl
  have opens := (opens_iff whole span.marker.quote _).mpr ⟨span.marker, span.leads, rfl, rfl⟩
  have closer := span.cut_closer
  rw [← drop_behind_marker above below span.leads] at closer
  have closes := (closes_iff_cut _ span.marker.quote _ _).mpr ⟨span.body, _, closer, rfl⟩
  rw [joined] at opens closes
  rw [span.splice_toBreak file parts, size]
  exact ⟨_, rfl, opens, closes⟩

/-- A break takes up several lines, and is mended by replacing its stretch. -/
theorem unite?_of_mem_breaksIn (member : broken ∈ breaksIn file text) :
    let splice := broken.splice text
    let body := (text.take splice.stop).drop splice.start
    splice.stop ≤ text.length ∧ '\n' ∈ body ∧ splice.text = singleSpaced body ∧
      unite? broken (splitLines text) =
        some (splitLines (text.take splice.start ++ splice.text ++ text.drop splice.stop)) := by
  intro splice body
  obtain ⟨above, line, below, parts, span, rfl⟩ := exists_span_of_mem_breaksIn member
  obtain ⟨whole, joined⟩ := whole_of_splitLines parts
  have shape : text = span.front above ++ span.body ++ span.behind := by
    rw [← joined, span.joinLines_around]
  have place : splice = _ := span.splice_toBreak file parts
  have upper : text.take splice.start = span.front above := by
    rw [place, shape, List.append_assoc, List.take_left]
  have stop : (span.front above ++ span.body).length = splice.stop := by
    rw [place, List.length_append]
  have middle : text.take splice.stop = span.front above ++ span.body := by
    rw [shape, ← stop, List.take_left]
  have lower : text.drop splice.stop = span.behind := by
    rw [shape, ← stop, List.drop_left]
  have inside : body = span.body := by
    rw [show body = (text.take splice.stop).drop splice.start from rfl, middle, place, List.drop_left]
  have crossed := span.count_newline_body fun other within =>
    whole other (List.mem_append_right _ within)
  refine ⟨?_, ?_, ?_, ?_⟩
  · have size := congrArg List.length shape
    rw [List.length_append, stop] at size
    omega
  · rw [inside, ← List.count_pos_iff, crossed]
    exact Nat.succ_pos _
  · rw [inside, place]
    rfl
  · rw [upper, lower, place]
    exact span.unite?_toBreak_self file parts

theorem splice_eq_of_markers (member : broken ∈ breaksIn file text) {opening closing : Nat}
    (opens : Opens text broken.firstLine broken.quote opening)
    (closes : Closes text broken.quote (opening + 3) closing) :
    broken.splice text = { start := opening + 3, stop := closing, text := broken.text } := by
  obtain ⟨first, start, starts, ends⟩ := markers_of_mem_breaksIn member
  obtain rfl := starts.unique opens
  have stop := ends.unique closes
  rw [← start, ← stop]
  rfl

theorem mem_breaksIn_of_take_eq {other : List Char} (member : broken ∈ breaksIn file text)
    (same : other.take ((broken.splice text).stop + 2) = text.take ((broken.splice text).stop + 2)) :
    ∃ excerpt, { broken with excerpt := excerpt } ∈ breaksIn file other ∧
      broken.splice other = broken.splice text := by
  obtain ⟨opening, closing, opens, closes, crosses, near, known⟩ :=
    (mem_breaksIn_iff_markers _ _ _).mp member
  rw [splice_eq_of_markers member opens closes] at same ⊢
  have within : opening + 3 ≤ closing + 2 := Nat.le_add_right_of_le closes.behind
  have opensThere := opens.of_take_eq same within
  have closesThere := closes.of_take_eq same (Nat.le_refl _)
  have upTo : other.take closing = text.take closing := by
    have taken := congrArg (List.take closing) same
    simpa only [List.take_take, Nat.min_eq_left (Nat.le_add_right closing 2)] using taken
  let body := (other.take closing).drop (opening + 3)
  let excerpt := trim (joinLines
    (((splitLines other).drop (broken.firstLine - 1)).take (body.count '\n' + 1)))
  have there : { broken with excerpt := excerpt } ∈ breaksIn file other := by
    refine (mem_breaksIn_iff_markers _ _ _).mpr ⟨opening, closing, opensThere, closesThere, ?_⟩
    rw [upTo]
    refine ⟨crosses, near, ?_⟩
    rw [Break.mk.injEq]
    refine ⟨congrArg Break.file known, rfl, congrArg Break.lastLine known, rfl,
      congrArg Break.text known, ?_⟩
    simp only [excerpt, body, upTo]
  exact ⟨excerpt, there, splice_eq_of_markers there opensThere closesThere⟩

end

/-! Several breaks, from the uppermost to the lowest. -/

def Descending (text : List Char) (breaks : List Break) : Prop :=
  breaks.Pairwise fun upper lower => (upper.splice text).stop ≤ (lower.splice text).start

section

variable {file : Path} {text : List Char}

/-- The closing marker of a message may reach into the next message. That starts with visible letters
then, and they still lead it when it is on one line. -/
theorem starts_splice_of_closer {upper lower : Break} (upperMember : upper ∈ breaksIn file text)
    (lowerMember : lower ∈ breaksIn file text)
    (above : (upper.splice text).stop ≤ (lower.splice text).start) :
    let word := upper.quote.closer.drop ((lower.splice text).start - (upper.splice text).stop)
    word <+: text.drop (lower.splice text).start ∧ word <+: (lower.splice text).text := by
  intro word
  obtain ⟨_, _, _, closes⟩ := markers_of_mem_breaksIn upperMember
  obtain ⟨_, newline, spaced, _⟩ := unite?_of_mem_breaksIn lowerMember
  have stands : word <+: text.drop (lower.splice text).start := by
    have dropped := closes.stands.drop ((lower.splice text).start - (upper.splice text).stop)
    rwa [List.drop_drop, Nat.add_sub_cancel' above] at dropped
  refine ⟨stands, ?_⟩
  have body : (text.take (lower.splice text).stop).drop (lower.splice text).start <+:
      text.drop (lower.splice text).start := by
    rw [List.drop_take]
    exact List.take_prefix _ _
  rcases List.prefix_or_prefix_of_prefix stands body with within | ⟨rest, beyond⟩
  · obtain ⟨rest, parts⟩ := within
    rw [spaced, ← parts]
    refine starts_singleSpaced (fun letter inside => ?_) rest
    exact blank_free_closer _ letter (List.mem_of_mem_drop inside)
  · have inside : '\n' ∈ word := by
      rw [← beyond]
      exact List.mem_append_left _ newline
    exact absurd (List.mem_of_mem_drop inside) (newline_not_mem_closer _)

theorem splice_bounds {broken : Break} (member : broken ∈ breaksIn file text) :
    (broken.splice text).start < (broken.splice text).stop ∧
      (broken.splice text).stop ≤ text.length := by
  obtain ⟨bound, newline, _⟩ := unite?_of_mem_breaksIn member
  refine ⟨?_, bound⟩
  by_contra empty
  rw [List.drop_eq_nil_of_le] at newline
  · cases newline
  · rw [List.length_take]
    omega

theorem start_le_of_descending {upper : Break} {later : List Break}
    (members : ∀ broken ∈ upper :: later, broken ∈ breaksIn file text)
    (descending : Descending text (upper :: later)) :
    ∀ splice ∈ (upper :: later).map (·.splice text), (upper.splice text).start ≤ splice.start := by
  intro splice known
  obtain ⟨broken, member, rfl⟩ := List.mem_map.mp known
  rcases List.mem_cons.mp member with rfl | member
  · exact Nat.le_refl _
  · have above := (List.pairwise_cons.mp descending).1 broken member
    have bounds := splice_bounds (members upper List.mem_cons_self)
    omega

theorem stop_le_of_descending {upper : Break} {later : List Break}
    (descending : Descending text (upper :: later)) :
    ∀ splice ∈ later.map (·.splice text), (upper.splice text).stop ≤ splice.start := by
  intro splice known
  obtain ⟨broken, member, rfl⟩ := List.mem_map.mp known
  exact (List.pairwise_cons.mp descending).1 broken member

theorem take_spliced_closer {upper : Break} {later : List Break}
    (members : ∀ broken ∈ upper :: later, broken ∈ breaksIn file text)
    (descending : Descending text (upper :: later)) :
    (spliced text (later.map (·.splice text))).take ((upper.splice text).stop + 2) =
      text.take ((upper.splice text).stop + 2) := by
  cases later with
  | nil => simp
  | cons lower later =>
      have lowerMember := members lower (by simp)
      obtain ⟨nonempty, inside⟩ := splice_bounds lowerMember
      have above := stop_le_of_descending descending _ (List.mem_map_of_mem List.mem_cons_self)
      have lowest := start_le_of_descending (fun broken member => members broken
        (List.mem_cons_of_mem _ member)) descending.tail
      by_cases clear : (upper.splice text).stop + 2 ≤ (lower.splice text).start
      · exact take_spliced (by omega) fun splice member => Nat.le_trans clear (lowest splice member)
      · obtain ⟨stands, kept⟩ := starts_splice_of_closer (members upper List.mem_cons_self) lowerMember above
        have front : (spliced text ((lower :: later).map (·.splice text))).take
            (lower.splice text).start = text.take (lower.splice text).start :=
          take_spliced (by omega) lowest
        have size : (text.take (lower.splice text).start).length = (lower.splice text).start :=
          List.length_take_of_le (by omega)
        have width : upper.quote.closer.length = 2 := rfl
        generalize dropped : upper.quote.closer.drop
          ((lower.splice text).start - (upper.splice text).stop) = word at stands kept
        have total : (lower.splice text).start + word.length = (upper.splice text).stop + 2 := by
          rw [← dropped, List.length_drop]
          omega
        have whole : ∀ other : List Char, other.take (lower.splice text).start =
              text.take (lower.splice text).start → word <+: other.drop (lower.splice text).start →
            other.take ((upper.splice text).stop + 2) = text.take (lower.splice text).start ++ word := by
          intro other same starts
          obtain ⟨rest, parts⟩ := starts
          rw [← List.take_append_drop (lower.splice text).start other, same, ← parts,
            ← List.append_assoc]
          exact List.take_left' (by rw [List.length_append, size, total])
        have starts := starts_spliced nonempty inside (stop_le_of_descending descending.tail)
        rw [whole _ front (kept.trans starts), whole text rfl stands]

/-- Mending breaks from the lowest to the uppermost replaces their stretches. -/
theorem foldr_step_eq_spliced {breaks : List Break}
    (members : ∀ broken ∈ breaks, broken ∈ breaksIn file text) (descending : Descending text breaks) :
    breaks.foldr (fun broken mended => Mended.step mended broken)
        { template := Template.ofText text, count := 0 } =
      { template := Template.ofText (spliced text (breaks.map (·.splice text)))
        count := breaks.length } := by
  induction breaks with
  | nil => simp
  | cons upper later ih =>
      have lower := ih (fun broken member => members broken (List.mem_cons_of_mem _ member))
        descending.tail
      obtain ⟨nonempty, inside⟩ := splice_bounds (members upper List.mem_cons_self)
      obtain ⟨excerpt, found, place⟩ := mem_breaksIn_of_take_eq (members upper List.mem_cons_self)
        (take_spliced_closer members descending)
      obtain ⟨-, -, -, united⟩ := unite?_of_mem_breaksIn found
      have step : unite? upper (splitLines (spliced text (later.map (·.splice text)))) =
          some (splitLines (spliced text ((upper :: later).map (·.splice text)))) := by
        rw [List.map_cons, spliced_cons nonempty inside (stop_le_of_descending descending), ← place]
        exact united
      rw [List.foldr_cons, lower, Mended.step]
      simp only [Template.ofText, step, List.length_cons]

theorem lt_of_firstLine_lt {upper lower : Break} (upperMember : upper ∈ breaksIn file text)
    (lowerMember : lower ∈ breaksIn file text) (ordered : upper.firstLine < lower.firstLine) :
    (upper.splice text).start < (lower.splice text).start := by
  obtain ⟨upperOpening, upperStart, upperOpens, -⟩ := markers_of_mem_breaksIn upperMember
  obtain ⟨lowerOpening, lowerStart, lowerOpens, -⟩ := markers_of_mem_breaksIn lowerMember
  by_contra behind
  have lines := lineOf_le_lineOf text (show lowerOpening ≤ upperOpening by omega)
  rw [upperOpens.onLine, lowerOpens.onLine] at lines
  omega

theorem descending_reverse_bottomUp {chosen : List Break}
    (found : ∀ broken ∈ chosen, broken ∈ breaksIn file text) (distinct : chosen.Nodup)
    (disjoint : chosen.Pairwise fun left right => (left.splice text).Disjoint (right.splice text)) :
    Descending text (bottomUp chosen).reverse := by
  have perm : (bottomUp chosen).Perm chosen := List.mergeSort_perm _ _
  have different := perm.nodup_iff.mpr distinct
  have apart := (perm.pairwise_iff fun {_ _} => Splice.Disjoint.symm).mpr disjoint
  rw [Descending, List.pairwise_reverse]
  refine ((bottomUp_sorted chosen).and (different.and apart)).imp_of_mem ?_
  intro lower upper lowerMember upperMember ⟨ordered, differ, clear⟩
  have lowerFound := found lower (perm.mem_iff.mp lowerMember)
  have upperFound := found upper (perm.mem_iff.mp upperMember)
  have strict : upper.firstLine < lower.firstLine := by
    refine Nat.lt_of_le_of_ne ordered fun same => differ ?_
    exact eq_of_firstLine_eq lowerFound upperFound same.symm
  have starts := lt_of_firstLine_lt upperFound lowerFound strict
  have nonempty := (splice_bounds lowerFound).1
  rcases clear with behind | before
  · omega
  · exact before

end

/-- Mending some breaks of a text, given in any order, whose messages do not overlap, mends every one
of them. The text is then the same as before except that each message, from behind its opening marker
to the first closing marker, is on one line. -/
theorem mend_eq_spliced {file : Path} {text : List Char} {chosen : List Break}
    (found : ∀ broken ∈ chosen, broken ∈ breaksIn file text) (distinct : chosen.Nodup)
    (disjoint : chosen.Pairwise fun left right => (left.splice text).Disjoint (right.splice text)) :
    (∀ broken ∈ chosen, ∃ opening, (broken.splice text).start = opening + 3 ∧
        Opens text broken.firstLine broken.quote opening ∧
        Closes text broken.quote (opening + 3) (broken.splice text).stop ∧
        (broken.splice text).text = broken.text) ∧
      (mend (Template.ofText text) chosen).count = chosen.length ∧
      (mend (Template.ofText text) chosen).template.text =
        spliced text (chosen.map fun broken => broken.splice text) := by
  have perm : (bottomUp chosen).reverse.Perm chosen :=
    (List.reverse_perm _).trans (List.mergeSort_perm _ _)
  have members : ∀ broken ∈ (bottomUp chosen).reverse, broken ∈ breaksIn file text :=
    fun broken member => found broken (perm.mem_iff.mp member)
  have mended := foldr_step_eq_spliced members (descending_reverse_bottomUp found distinct disjoint)
  rw [List.foldr_reverse] at mended
  have order := spliced_perm (perm.map fun broken => broken.splice text).symm
    (List.pairwise_map.mpr disjoint) text
  rw [mend, mended, order]
  refine ⟨?_, perm.length_eq, joinLines_splitLines _⟩
  intro broken member
  obtain ⟨opening, start, opens, closes⟩ := markers_of_mem_breaksIn (found broken member)
  exact ⟨opening, start, opens, closes, rfl⟩

/-- Three breaks in a chain. The first closes with the quote that opens the second one and the bracket
that its message starts with; the third starts on the line on which the second one ends. -/
theorem mend_chain_eq_spliced :
    let text := "_(\"a\nb_(\")c\n d') \"e\n f\") _('g\n\nh') i".toList
    let chosen := (breaksIn ⟨"page"⟩ text).reverse
    (∀ broken ∈ chosen, broken ∈ breaksIn ⟨"page"⟩ text) ∧ chosen.Nodup ∧
      chosen.Pairwise (fun left right => (left.splice text).Disjoint (right.splice text)) ∧
      chosen.length = 3 ∧ (mend (Template.ofText text) chosen).count = 3 ∧
      (mend (Template.ofText text) chosen).template.text =
        "_(\"a b_(\")c d') \"e f\") _('g h') i".toList := by
  intro text chosen
  have found : ∀ broken ∈ chosen, broken ∈ breaksIn ⟨"page"⟩ text :=
    fun broken member => List.mem_reverse.mp member
  have distinct : chosen.Nodup := by decide
  have disjoint : chosen.Pairwise
      (fun left right => (left.splice text).Disjoint (right.splice text)) := by decide
  obtain ⟨-, count, after⟩ := mend_eq_spliced found distinct disjoint
  refine ⟨found, distinct, disjoint, by decide, ?_, ?_⟩
  · rw [count]
    decide
  · rw [after]
    decide

end Unbroken
