import Unbroken.Proofs.Block

/-! When a pass loses nothing. Mending takes a break out of the lines between its first and its last
one. A break around it then ends on a line that has moved up, and if the line that stands in its place
happens to hold a closing marker too, the outer break is mended up to there and takes along what it
should not. This is the only way to lose anything. -/

namespace Unbroken

def untouchedFrom (number : Nat) (breaks : List Break) (lines : List (List Char)) : List (List Char) :=
  ((lines.zipIdx number).filter fun (_, number) =>
    breaks.all fun broken => !(broken.firstLine ≤ number && number ≤ broken.lastLine)).map Prod.fst

/-- The lines that no break touches. -/
def untouched (breaks : List Break) (lines : List (List Char)) : List (List Char) :=
  untouchedFrom 1 breaks lines

theorem untouchedFrom_append (number : Nat) (breaks : List Break) (upper lower : List (List Char)) :
    untouchedFrom number breaks (upper ++ lower) =
      untouchedFrom number breaks upper ++ untouchedFrom (number + upper.length) breaks lower := by
  simp only [untouchedFrom, List.zipIdx_append, List.filter_append, List.map_append]

theorem untouchedFrom_of_lt {number : Nat} {breaks : List Break}
    (above : ∀ broken ∈ breaks, broken.lastLine < number) (lines : List (List Char)) :
    untouchedFrom number breaks lines = lines := by
  rw [untouchedFrom, List.filter_eq_self.mpr, List.zipIdx_map_fst]
  rintro ⟨line, place⟩ member
  have bound := (List.mem_zipIdx member).1
  simp only [List.all_eq_true, Bool.not_eq_true', Bool.and_eq_false_iff, decide_eq_false_iff_not]
  intro broken known
  have last := above broken known
  omega

theorem untouchedFrom_eq_nil {number : Nat} {breaks : List Break} {lines : List (List Char)}
    (covered : ∀ offset < lines.length, ∃ broken ∈ breaks,
      broken.firstLine ≤ number + offset ∧ number + offset ≤ broken.lastLine) :
    untouchedFrom number breaks lines = [] := by
  rw [untouchedFrom, List.filter_eq_nil_iff.mpr, List.map_nil]
  rintro ⟨line, place⟩ member clear
  have bounds := List.mem_zipIdx member
  obtain ⟨offset, rfl⟩ := Nat.exists_eq_add_of_le bounds.1
  obtain ⟨broken, known, first, last⟩ := covered offset (by omega)
  have outside := List.all_eq_true.mp clear broken known
  simp [first, last] at outside

theorem untouchedFrom_sublist (number : Nat) {breaks more : List Break} (known : breaks ⊆ more)
    (lines : List (List Char)) :
    (untouchedFrom number more lines).Sublist (untouchedFrom number breaks lines) := by
  refine (List.monotone_filter_right _ ?_).map _
  rintro ⟨line, place⟩ clear
  rw [List.all_eq_true] at clear ⊢
  exact fun broken member => clear broken (known member)

theorem untouchedFrom_sublist_self (number : Nat) (breaks : List Break) (lines : List (List Char)) :
    (untouchedFrom number breaks lines).Sublist lines := by
  have fewer := untouchedFrom_sublist number breaks.nil_subset lines
  rwa [untouchedFrom_of_lt (List.forall_mem_nil _)] at fewer

theorem apart_cons_iff {line : List Char} {below : List (List Char)} {above : Nat}
    {mended : List Break} (file : Path) (span : Span line below)
    (lower : ∀ broken ∈ mended, above + 1 < broken.firstLine) :
    Apart (span.toBreak file (above + 1) :: mended) ↔
      Apart mended ∧ ∀ broken ∈ mended, above + 1 < broken.firstLine →
        above + 1 + span.between.length < broken.firstLine := by
  constructor
  · intro apart
    refine ⟨apart.tail, ?_⟩
    intro broken member behind
    have disjoint := apart _ List.mem_cons_self broken (List.mem_cons_of_mem _ member) behind
    simp only [Span.toBreak, Span.depth] at disjoint
    omega
  · rintro ⟨apart, clear⟩ first firstMember second secondMember ordered
    rcases List.mem_cons.mp firstMember with rfl | firstMember <;>
      rcases List.mem_cons.mp secondMember with rfl | secondMember
    · omega
    · have place := clear second secondMember ordered
      simp only [Span.toBreak, Span.depth]
      omega
    · have place := lower first firstMember
      simp only [Span.toBreak] at ordered
      omega
    · exact apart first firstMember second secondMember ordered

theorem solid_unite {line reached ahead after : List Char} {below lower further : List (List Char)}
    {above : Nat} {mended : List Break} (span : Span line below)
    (found : lower[span.between.length]? = some reached)
    (closes : cut span.marker.quote.closer reached = some (ahead, after))
    (same : lower.take span.between.length = span.between)
    (block : Block mended above span.last further reached) :
    solid (joinLines (span.united after :: lower.drop span.depth)) =
      solid (joinLines (line :: lower)) := by
  obtain ⟨front, behind, kept, visible, -⟩ := block.closes _ _ _ span.closes
  obtain ⟨rfl, rfl⟩ := Prod.mk.inj (Option.some.inj (closes.symm.trans kept))
  obtain ⟨inside, rfl⟩ := List.getElem?_eq_some_iff.mp found
  have parts : lower = span.between ++ lower[span.between.length] :: lower.drop span.depth := by
    conv_lhs => rw [← List.take_append_drop span.between.length lower, same,
      List.drop_eq_getElem_cons inside]
    rfl
  have reachedEq := cut_append closes
  have lineEq := congrArg solid span.line_eq
  have lowerEq : solid (joinLines lower) = (span.between.map solid).flatten ++
      (solid ahead ++ solid span.marker.quote.closer ++ solid after) ++
        ((lower.drop span.depth).map solid).flatten := by
    conv_lhs => rw [parts]
    rw [solid_joinLines, List.map_append, List.map_cons, List.flatten_append, List.flatten_cons,
      reachedEq, solid_append, solid_append]
    simp only [List.append_assoc]
  rw [solid_joinLines_cons line lower, lowerEq, lineEq]
  simp only [solid_joinLines, List.map_cons, List.flatten_cons, Span.united, Span.text, Span.body,
    solid_append, solid_singleSpaced, List.cons_append, List.map_append, List.flatten_append,
    List.map_nil, List.flatten_nil, List.append_nil, List.append_assoc, visible]

theorem length_solid_unite_lt {line reached ahead after : List Char}
    {below further rest lowest : List (List Char)} {above : Nat} {mended : List Break}
    (span : Span line below)
    (closes : cut span.marker.quote.closer reached = some (ahead, after))
    (parts : below = span.between ++ span.last :: (further ++ rest))
    (blocks : Blocks mended above rest lowest)
    (sheds : Sheds reached (joinLines further)) :
    (solid (joinLines (span.united after :: lowest))).length <
      (solid (joinLines (line :: below))).length := by
  have reachedBound := sheds.solid_sublist.length_le
  rw [cut_append closes, solid_append, solid_append] at reachedBound
  have restBound := blocks.sheds.solid_sublist.length_le
  have marker : 0 < (solid span.marker.quote.closer).length := by
    cases span.marker.quote <;> decide
  have whole : joinLines (line :: below) =
      joinLines (line :: (span.between ++ span.last :: (further ++ rest))) :=
    congrArg (fun lines => joinLines (line :: lines)) parts
  rw [whole, span.joinLines_eq]
  simp only [Span.united, Span.text, solid_joinLines, List.map_cons, List.map_append,
    List.flatten_cons, List.flatten_append, List.length_append, solid_append,
    solid_singleSpaced] at reachedBound restBound ⊢
  omega

namespace Settles

variable {file : Path} {above : Nat} {lines settled : List (List Char)} {mended : List Break}

/-- A pass keeps every visible letter if the breaks that it mends lie apart, and loses some
otherwise. -/
theorem solid_of_apart (settles : Settles file above lines settled mended) :
    (Apart mended → solid (joinLines settled) = solid (joinLines lines)) ∧
      (¬ Apart mended →
        (solid (joinLines settled)).length < (solid (joinLines lines)).length) := by
  induction settles with
  | done => exact ⟨fun _ => rfl, fun apart => absurd (by simp [Apart]) apart⟩
  | keeps _ _ ih | passes _ _ _ ih =>
      refine ⟨fun apart => by rw [solid_joinLines_cons, solid_joinLines_cons, ih.1 apart], fun shifted => ?_⟩
      exact length_solid_joinLines_cons_lt (ih.2 shifted)
  | @unites above line reached ahead after below lower mended span found closes rest ih =>
      rw [apart_cons_iff file span rest.lt_firstLine]
      obtain ⟨further, lowest, parts, blocks, ⟨clear, same, block⟩ | ⟨moved, sheds⟩⟩ :=
        rest.blocks.reach span found
      · rw [solid_unite span found closes same block]
        refine ⟨fun apart => by rw [solid_joinLines_cons, solid_joinLines_cons, ih.1 apart.1],
          fun shifted => ?_⟩
        exact length_solid_joinLines_cons_lt (ih.2 fun apart => shifted ⟨apart, clear⟩)
      · refine ⟨fun apart => ?_, fun _ => length_solid_unite_lt span closes parts blocks sheds⟩
        obtain ⟨broken, member, behind, bound⟩ := moved
        have place := apart.2 broken member behind
        omega

theorem mended_sublist (settles : Settles file above lines settled mended) :
    mended.Sublist (breaksFrom file (above + 1) lines) := by
  induction settles with
  | done => exact List.Sublist.refl _
  | keeps _ _ ih | passes _ _ _ ih => exact ih.trans (List.sublist_append_right _ _)
  | unites span _ _ _ ih =>
      rw [breaksFrom, (breakAt?_eq_some_iff _ _ _ _ _).mpr ⟨span, rfl⟩]
      exact ih.cons_cons _

end Settles

theorem Blocks.untouched_sublist {mended breaks : List Break} {above : Nat}
    {lines settled : List (List Char)} (blocks : Blocks mended above lines settled)
    (apart : Apart mended) (known : ∀ broken ∈ mended, broken ∈ breaks) :
    (untouchedFrom (above + 1) breaks lines).Sublist settled := by
  induction blocks with
  | nil => exact List.Sublist.refl _
  | @cons above line settled more below lower block rest ih =>
      have later : above + 1 + (line :: more).length = above + 1 + more.length + 1 := by
        rw [List.length_cons, ← Nat.add_assoc]
      rw [← List.cons_append, untouchedFrom_append, later]
      by_cases alone : more = []
      · subst alone
        rw [block.alone rfl, ← List.singleton_append (l := lower)]
        exact (untouchedFrom_sublist_self _ _ _).append ih
      · have nothing : untouchedFrom (above + 1) breaks (line :: more) = [] := by
          apply untouchedFrom_eq_nil
          intro offset bound
          obtain ⟨broken, member, inside⟩ := block.covered apart alone offset (Nat.le_of_lt_succ bound)
          exact ⟨broken, known broken member, inside⟩
        rw [nothing]
        exact ih.cons _

section

variable {file : Path} {text : List Char}

theorem text_mend_breaksIn (file : Path) (text : List Char) :
    (mend (Template.ofText text) (breaksIn file text)).template.text =
      joinLines (settle file 0 (splitLines text)).lines := by
  rw [mend_breaksIn]
  rfl

theorem splitLines_mend_breaksIn (file : Path) (text : List Char) :
    splitLines (mend (Template.ofText text) (breaksIn file text)).template.text =
      (settle file 0 (splitLines text)).lines := by
  have settles := settles_settle file 0 (splitLines text)
  rw [text_mend_breaksIn]
  exact splitLines_joinLines (settles.ne_nil (splitLines_ne_nil text))
    (settles.newline_not_mem fun line => newline_not_mem_of_mem_splitLines)

theorem apart_unitedIn_iff (file : Path) (text : List Char) :
    Apart (unitedIn (Template.ofText text) (breaksIn file text)) ↔
      Apart (settle file 0 (splitLines text)).mended := by
  rw [unitedIn_breaksIn]
  simp only [Apart, List.mem_reverse]

theorem solid_mend_of_apart (apart : Apart (unitedIn (Template.ofText text) (breaksIn file text))) :
    solid (mend (Template.ofText text) (breaksIn file text)).template.text = solid text := by
  have kept := (settles_settle file 0 (splitLines text)).solid_of_apart.1
  rw [joinLines_splitLines, ← text_mend_breaksIn] at kept
  exact kept ((apart_unitedIn_iff file text).mp apart)

theorem length_solid_mend_lt
    (shifted : ¬ Apart (unitedIn (Template.ofText text) (breaksIn file text))) :
    (solid (mend (Template.ofText text) (breaksIn file text)).template.text).length <
      (solid text).length := by
  have lost := (settles_settle file 0 (splitLines text)).solid_of_apart.2
  rw [joinLines_splitLines, ← text_mend_breaksIn] at lost
  exact lost (mt (apart_unitedIn_iff file text).mpr shifted)

end

/-- A pass keeps all that is visible in a text, and every line outside the breaks, just if no two of
the breaks that it mends overlap in more than the line on which one ends and the other starts. -/
theorem mend_lossless_iff (file : Path) (text : List Char) :
    let breaks := breaksIn file text
    let after := (mend (Template.ofText text) breaks).template.text
    (solid after = solid text ∧
        (untouched breaks (splitLines text)).Sublist (splitLines after)) ↔
      Apart (unitedIn (Template.ofText text) breaks) := by
  intro breaks after
  constructor
  · rintro ⟨same, -⟩
    by_contra shifted
    have shorter := length_solid_mend_lt shifted
    rw [show solid (mend (Template.ofText text) (breaksIn file text)).template.text = _ from same] at shorter
    exact Nat.lt_irrefl _ shorter
  · intro apart
    have settles := settles_settle file 0 (splitLines text)
    refine ⟨solid_mend_of_apart apart, ?_⟩
    rw [splitLines_mend_breaksIn]
    exact settles.blocks.untouched_sublist ((apart_unitedIn_iff file text).mp apart)
      fun broken member => settles.mended_sublist.subset member

/-- The outer of two breaks that close together takes a later line along. -/
theorem mend_loses_line :
    let text := "_(\"a\n_(\"b\nc\")\n_(\"d\")".toList
    let after := (mend (Template.ofText text) (breaksIn ⟨"page"⟩ text)).template.text
    after = "_(\"a _(\"b c\")".toList ∧ solid after ≠ solid text := by
  simp only [mend_breaksIn]
  decide

end Unbroken
