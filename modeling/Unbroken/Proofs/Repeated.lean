import Unbroken.Proofs.Gap
import Unbroken.Proofs.Whole

/-! Breaks that are reported several times are mended several times in turn. Mending a break again
looks for its closing marker on the line that has come up to where its last line was. Mostly there is none,
and the break is spent. But if there is one, the lines up to it are lost. -/

namespace Unbroken

/-- Whether no break can be mended again as soon as its turn is over. -/
def Mended.Spends (mended : Mended) : List Break → Prop
  | [] => True
  | broken :: later =>
    unite? broken (mended.step broken).template.lines = none ∧ (mended.step broken).Spends later

instance Mended.decidableSpends (mended : Mended) : (breaks : List Break) → Decidable (mended.Spends breaks)
  | [] => inferInstanceAs (Decidable True)
  | broken :: later =>
    have := (mended.step broken).decidableSpends later
    inferInstanceAs (Decidable (_ ∧ _))

def Spent (text : List Char) : Prop :=
  Mended.Spends { template := Template.ofText text, count := 0 } (bottomUp (breaksIn default text))

def mendTimes (copies : Nat) (text : List Char) : List Char :=
  (mend (Template.ofText text) (List.replicate copies (breaksIn default text)).flatten).template.text

theorem perm_flatMap_replicate {α : Type} (items : List α) (copies : Nat) :
    (List.replicate copies items).flatten.Perm (items.flatMap (List.replicate copies)) := by
  induction copies with
  | zero => simp
  | succ copies ih =>
      rw [List.replicate_succ, List.flatten_cons]
      have both := List.flatMap_append_perm items (fun item => [item]) (List.replicate copies)
      rw [List.flatMap_singleton'] at both
      exact (ih.append_left items).trans both

theorem bottomUp_of_perm {breaks repeated : List Break} {copies : Nat}
    (ascending : breaks.Pairwise fun left right => left.firstLine < right.firstLine)
    (perm : repeated.Perm (List.replicate copies breaks).flatten) :
    bottomUp repeated = breaks.reverse.flatMap (List.replicate copies) := by
  have members : ∀ broken ∈ repeated, broken ∈ breaks := by
    intro broken member
    obtain ⟨_, copy, inside⟩ := List.mem_flatten.mp (perm.mem_iff.mp member)
    rwa [List.eq_of_mem_replicate copy] at inside
  have distinct : (breaks.map Break.firstLine).Nodup :=
    List.pairwise_map.mpr (ascending.imp Nat.ne_of_lt)
  have same := perm.trans (perm_flatMap_replicate breaks copies)
  have turned : (breaks.flatMap (List.replicate copies)).Perm
      (breaks.reverse.flatMap (List.replicate copies)) :=
    breaks.reverse_perm.symm.flatMap_right _
  have sorted : (breaks.reverse.flatMap (List.replicate copies)).Pairwise fun left right =>
      right.firstLine ≤ left.firstLine := by
    rw [List.pairwise_flatMap]
    constructor
    · intro broken member
      exact List.pairwise_replicate.mpr (Or.inr (Nat.le_refl _))
    · refine List.pairwise_reverse.mpr (ascending.imp fun ordered left leftCopy right rightCopy => ?_)
      rw [List.eq_of_mem_replicate leftCopy, List.eq_of_mem_replicate rightCopy]
      exact Nat.le_of_lt ordered
  refine List.Perm.eq_of_pairwise ?_ (bottomUp_sorted repeated) sorted
    ((List.mergeSort_perm _ _).trans (same.trans turned))
  intro left right leftMember rightMember down up
  have rightCopy := (same.trans turned).mem_iff.mpr rightMember
  exact List.inj_on_of_nodup_map distinct (members left (List.mem_mergeSort.mp leftMember))
    (members right rightCopy) (Nat.le_antisymm up down)

theorem mend_of_perm {file : Path} {text : List Char} {repeated : List Break} {copies : Nat}
    (perm : repeated.Perm (List.replicate copies (breaksIn file text)).flatten) (template : Template) :
    mend template repeated = (breaksIn file text).foldr (fun broken mended =>
      (List.replicate copies broken).foldl Mended.step mended) { template := template, count := 0 } := by
  rw [mend, bottomUp_of_perm (breaksIn_ascending file text) perm, List.foldl_flatMap, List.foldl_reverse]

namespace Mended

theorem foldl_replicate_of_none {mended : Mended} {broken : Break}
    (missing : unite? broken mended.template.lines = none) (copies : Nat) :
    (List.replicate copies broken).foldl step mended = mended := by
  induction copies with
  | zero => rfl
  | succ copies ih => rw [List.replicate_succ, List.foldl_cons, step_of_none missing, ih]

theorem spends_append_singleton (mended : Mended) (breaks : List Break) (broken : Break) :
    mended.Spends (breaks ++ [broken]) ↔ mended.Spends breaks ∧
      unite? broken ((breaks.foldl step mended).step broken).template.lines = none := by
  induction breaks generalizing mended with
  | nil => simp [Spends]
  | cons first later ih => rw [List.cons_append, Spends, Spends, ih, List.foldl_cons, and_assoc]

end Mended

/-- The lines below a given number of lines, once breaks that start among them were mended. -/
def SettledBelow (above : Nat) (lines settled : List (List Char)) : Prop :=
  ∃ mended, Blocks mended above lines settled ∧ ∀ broken ∈ mended, above < broken.firstLine

theorem SettledBelow.keep {above : Nat} {line : List Char} {below lower : List (List Char)}
    (settled : SettledBelow (above + 1) below lower) : SettledBelow above (line :: below) (line :: lower) := by
  obtain ⟨mended, blocks, bounds⟩ := settled
  refine ⟨mended, ?_, fun broken member => Nat.lt_of_succ_lt (bounds broken member)⟩
  exact .cons (.keep fun broken member => Nat.ne_of_gt (bounds broken member)) blocks

namespace Span

variable {line : List Char} {below lower lines : List (List Char)}

/-- The lines once a message was put on one line and was closed, the last time that it was mended, at
some line from a given one on. -/
def Swallows (span : Span line below) (lower : List (List Char)) (least : Nat)
    (lines : List (List Char)) : Prop :=
  ∃ count reached ahead after, least ≤ count ∧ lower[count]? = some reached ∧
    cut span.marker.quote.closer reached = some (ahead, after) ∧
    lines = span.united after :: lower.drop (count + 1)

theorem swallows_of_unite? (span : Span line below) {file : Path}
    (united : unite? (span.toBreak file 1) (line :: lower) = some lines) :
    span.Swallows lower span.between.length lines := by
  rw [unite?_toBreak, Option.map_eq_some_iff] at united
  obtain ⟨⟨ahead, after⟩, closes, rfl⟩ := united
  obtain ⟨reached, found, closes⟩ := Option.bind_eq_some_iff.mp closes
  exact ⟨_, reached, ahead, after, Nat.le_refl _, found, closes, rfl⟩

theorem Swallows.again {span : Span line below} {least : Nat} {more : List (List Char)} {file : Path}
    (swallows : span.Swallows lower least lines)
    (united : unite? (span.toBreak file 1) lines = some more) : span.Swallows lower (least + 1) more := by
  obtain ⟨count, -, -, after, bound, -, -, rfl⟩ := swallows
  have leads := Marker.cut_opener (span.leftmost?_united after)
  rw [unite?_toBreak_of_cut span file leads, Option.map_eq_some_iff] at united
  obtain ⟨⟨ahead, behind⟩, closes, rfl⟩ := united
  obtain ⟨reached, found, closes⟩ := Option.bind_eq_some_iff.mp closes
  rw [List.getElem?_drop] at found
  refine ⟨_, reached, ahead, behind, by omega, found, closes, ?_⟩
  rw [List.drop_drop, Span.depth, Nat.add_assoc (count + 1)]

theorem Swallows.weaken {span : Span line below} {least : Nat}
    (swallows : span.Swallows lower (least + 1) lines) : span.Swallows lower least lines := by
  obtain ⟨count, reached, ahead, after, bound, rest⟩ := swallows
  exact ⟨count, reached, ahead, after, Nat.le_of_succ_le bound, rest⟩

theorem step_toBreak (span : Span line below) (file : Path) (above lines : List (List Char)) (count : Nat) :
    Mended.step { template := ⟨above ++ lines⟩, count := count } (span.toBreak file (above.length + 1)) =
      match unite? (span.toBreak file 1) lines with
      | some united => { template := ⟨above ++ united⟩, count := count + 1 }
      | none => { template := ⟨above ++ lines⟩, count := count } := by
  have inside : above.length < (span.toBreak file (above.length + 1)).firstLine := Nat.lt_succ_self _
  rw [Mended.step]
  simp only [unite?_append above lines inside, span.below_toBreak]
  cases unite? (span.toBreak file 1) lines <;> rfl

theorem Swallows.foldl_replicate {span : Span line below} {least : Nat}
    (swallows : span.Swallows lower least lines) (file : Path) (above : List (List Char))
    (copies count : Nat) :
    ∃ later total, (List.replicate copies (span.toBreak file (above.length + 1))).foldl Mended.step
        { template := ⟨above ++ lines⟩, count := count } =
          { template := ⟨above ++ later⟩, count := total } ∧
      span.Swallows lower least later := by
  induction copies generalizing lines count with
  | zero => exact ⟨lines, count, rfl, swallows⟩
  | succ copies ih =>
      rw [List.replicate_succ, List.foldl_cons, step_toBreak]
      cases united : unite? (span.toBreak file 1) lines with
      | none => exact ih swallows count
      | some more => exact ih (swallows.again united).weaken (count + 1)

/-- The turn of a break: it is spent, and several tries come to one, or a second try swallows lines from
behind its last one. -/
theorem turn (span : Span line below) (file : Path) (above lower : List (List Char)) (count : Nat)
    {copies : Nat} (twice : 2 ≤ copies) :
    let broken := span.toBreak file (above.length + 1)
    let before : Mended := { template := ⟨above ++ line :: lower⟩, count := count }
    let often := (List.replicate copies broken).foldl Mended.step before
    ∃ lines total, often = { template := ⟨above ++ lines⟩, count := total } ∧
      ((unite? broken (before.step broken).template.lines = none ∧ often = before.step broken ∧
          (lines = line :: lower ∨ span.Swallows lower span.between.length lines)) ∨
        (unite? broken (before.step broken).template.lines ≠ none ∧
          span.Swallows lower (span.between.length + 1) lines)) := by
  intro broken before often
  have inside : above.length < broken.firstLine := Nat.lt_succ_self _
  have tried : ∀ lines, unite? broken (above ++ lines) =
      (unite? (span.toBreak file 1) lines).map (above ++ ·) := by
    intro lines
    rw [unite?_append above lines inside, span.below_toBreak]
  obtain ⟨more, rfl⟩ := Nat.exists_eq_add_of_le' twice
  have once := span.step_toBreak file above (line :: lower) count
  cases united : unite? (span.toBreak file 1) (line :: lower) with
  | none =>
      have missing : unite? broken before.template.lines = none := by rw [tried, united]; rfl
      have same := Mended.step_of_none missing
      have still : often = before := Mended.foldl_replicate_of_none missing _
      exact ⟨_, _, still, Or.inl ⟨same.symm ▸ missing, still.trans same.symm, Or.inl rfl⟩⟩
  | some first =>
      have swallows := span.swallows_of_unite? united
      rw [united] at once
      cases again : unite? (span.toBreak file 1) first with
      | none =>
          have missing : unite? broken (before.step broken).template.lines = none := by
            rw [show before.step broken = _ from once, tried, again]
            rfl
          have spent : often = before.step broken := Mended.foldl_replicate_of_none missing _
          exact ⟨first, _, spent.trans once, Or.inl ⟨missing, spent, Or.inr swallows⟩⟩
      | some second =>
          have farther := swallows.again again
          have next := span.step_toBreak file above first (count + 1)
          rw [again] at next
          obtain ⟨lines, total, rest, kept⟩ := farther.foldl_replicate file above more (count + 1 + 1)
          have both : (before.step broken).step broken = _ :=
            (congrArg (Mended.step · broken) once).trans next
          refine ⟨lines, total, ?_, Or.inr ⟨?_, kept⟩⟩
          · exact (congrArg (List.foldl Mended.step · (List.replicate more broken)) both).trans rest
          · rw [show before.step broken = _ from once, tried, again]
            simp

theorem Swallows.meets {span : Span line below} {least above : Nat} {mended : List Break}
    (swallows : span.Swallows lower least lines) (behind : span.between.length ≤ least)
    (blocks : Blocks mended (above + 1) below lower) :
    ∃ reached ahead after further rest lowest, lines = span.united after :: lowest ∧
      cut span.marker.quote.closer reached = some (ahead, after) ∧
      below = span.between ++ span.last :: (further ++ rest) ∧
      Blocks mended (above + 1 + span.depth + further.length) rest lowest ∧
      ((least = span.between.length ∧ lower[span.between.length]? = some reached ∧
          lowest = lower.drop span.depth ∧ lower.take span.between.length = span.between ∧
          Block mended (above + 1 + span.between.length) span.last further reached) ∨
        Sheds reached (joinLines further)) := by
  obtain ⟨count, reached, ahead, after, bound, found, closes, rfl⟩ := swallows
  rcases Nat.eq_or_lt_of_le (Nat.le_trans behind bound) with rfl | further
  · obtain ⟨further, rest, parts, lowest, ⟨-, same, block⟩ | ⟨-, sheds⟩⟩ := blocks.reach span found
    · exact ⟨reached, ahead, after, further, rest, _, rfl, closes, parts, lowest,
        Or.inl ⟨Nat.le_antisymm bound behind, found, rfl, same, block⟩⟩
    · exact ⟨reached, ahead, after, further, rest, _, rfl, closes, parts, lowest, Or.inr sheds⟩
  · obtain ⟨upper, first, more, rest, split, size, -, -, block, lowest⟩ := blocks.split_at found
    obtain ⟨skipped, parts, lowest, sheds⟩ :=
      Blocks.reach_behind span split (Nat.lt_of_lt_of_le further size) block lowest
    exact ⟨reached, ahead, after, skipped, rest, _, rfl, closes, parts, lowest, Or.inr sheds⟩

theorem Swallows.settled {span : Span line below} {above : Nat}
    (swallows : span.Swallows lower span.between.length lines)
    (settled : SettledBelow (above + 1) below lower) : SettledBelow above (line :: below) lines := by
  obtain ⟨mended, blocks, bounds⟩ := settled
  obtain ⟨reached, ahead, after, further, rest, lowest, rfl, closes, parts, later, met⟩ :=
    swallows.meets (Nat.le_refl _) blocks
  let more := span.between ++ span.last :: further
  let whole : Break := { span.toBreak default (above + 1) with lastLine := above + 1 + more.length }
  have block : Block (whole :: mended) above line more (span.united after) := by
    refine .unite_of_covered span closes (met.imp_left fun known => known.2.2.2.2) rfl ?_
    intro _ offset bound
    exact ⟨whole, List.mem_cons_self, Nat.le_add_right _ _, Nat.add_le_add_left bound _⟩
  have joined : line :: below = line :: (more ++ rest) := by
    simpa [more] using parts
  have place : above + 1 + more.length = above + 1 + span.depth + further.length := by
    simp only [more, Span.depth, List.length_append, List.length_cons]
    omega
  refine ⟨whole :: mended, ?_, ?_⟩
  · rw [joined]
    refine .cons block ?_
    rw [place]
    exact later.weaken (show above + 1 ≤ _ by omega)
  · intro broken member
    rcases List.mem_cons.mp member with rfl | member
    · exact Nat.lt_succ_self above
    · exact Nat.lt_of_succ_lt (bounds broken member)

theorem Swallows.length_solid_lt {span : Span line below} {least above : Nat}
    (swallows : span.Swallows lower least lines) (behind : span.between.length ≤ least)
    (settled : SettledBelow (above + 1) below lower)
    (lost : span.between.length < least ∨
      (solid (joinLines lower)).length < (solid (joinLines below)).length) :
    (solid (joinLines lines)).length < (solid (joinLines (line :: below))).length := by
  obtain ⟨mended, blocks, -⟩ := settled
  obtain ⟨reached, ahead, after, further, rest, lowest, rfl, closes, parts, later, met⟩ :=
    swallows.meets behind blocks
  rcases met with ⟨least, found, rfl, same, block⟩ | sheds
  · rw [solid_unite span found closes same block]
    exact length_solid_joinLines_cons_lt (lost.resolve_left (by omega))
  · exact length_solid_unite_lt span closes parts later sheds

end Span

theorem foldr_replicate_step (file : Path) {copies : Nat} (twice : 2 ≤ copies)
    (above lines : List (List Char)) :
    let breaks := breaksFrom file (above.length + 1) lines
    let start : Mended := { template := ⟨above ++ lines⟩, count := 0 }
    ∃ settled count, breaks.foldr (fun broken mended =>
        (List.replicate copies broken).foldl Mended.step mended) start =
          { template := ⟨above ++ settled⟩, count := count } ∧
      SettledBelow above.length lines settled ∧
      ((start.Spends breaks.reverse ∧
          breaks.foldr (fun broken mended => mended.step broken) start =
            { template := ⟨above ++ settled⟩, count := count }) ∨
        (¬ start.Spends breaks.reverse ∧
          (solid (joinLines settled)).length < (solid (joinLines lines)).length)) := by
  induction lines generalizing above with
  | nil => exact ⟨[], 0, rfl, ⟨[], .nil, nofun⟩, Or.inl ⟨trivial, rfl⟩⟩
  | cons line below ih =>
      obtain ⟨lower, count, often, behind, outcome⟩ := ih (above ++ [line])
      simp only [List.length_append, List.length_singleton, List.append_assoc,
        List.singleton_append] at often behind outcome
      simp only [breaksFrom, List.foldr_append, List.reverse_append]
      rw [often]
      cases judged : breakAt? file (above.length + 1) line below with
      | none =>
          refine ⟨line :: lower, count, rfl, behind.keep, ?_⟩
          simpa using outcome.imp_right (And.imp_right length_solid_joinLines_cons_lt)
      | some broken =>
          obtain ⟨span, rfl⟩ := (breakAt?_eq_some_iff _ _ _ _ _).mp judged
          obtain ⟨settled, total, turn, result⟩ := span.turn file above lower count twice
          refine ⟨settled, total, turn, ?_, ?_⟩
          · rcases result with ⟨-, -, rfl | swallows⟩ | ⟨-, swallows⟩
            · exact behind.keep
            · exact swallows.settled behind
            · exact swallows.weaken.settled behind
          · simp only [Option.toList_some, List.reverse_singleton, Mended.spends_append_singleton,
              List.foldl_reverse, List.foldr_cons, List.foldr_nil]
            rcases outcome with ⟨spends, once⟩ | ⟨unspent, fewer⟩
            · rw [once]
              rcases result with ⟨missing, same, -⟩ | ⟨again, swallows⟩
              · exact Or.inl ⟨⟨spends, missing⟩, same.symm.trans turn⟩
              · refine Or.inr ⟨fun both => again both.2, ?_⟩
                exact swallows.length_solid_lt (Nat.le_succ _) behind (Or.inl (Nat.lt_succ_self _))
            · refine Or.inr ⟨fun both => unspent both.1, ?_⟩
              rcases result with ⟨-, -, rfl | swallows⟩ | ⟨-, swallows⟩
              · exact length_solid_joinLines_cons_lt fewer
              · exact swallows.length_solid_lt (Nat.le_refl _) behind (Or.inr fewer)
              · exact swallows.length_solid_lt (Nat.le_succ _) behind (Or.inr fewer)

/-! A pass over breaks that were reported several times. -/

section

variable {text : List Char} {copies passes : Nat}

theorem spent_iff (text : List Char) : Spent text ↔
    Mended.Spends { template := Template.ofText text, count := 0 } (breaksIn default text).reverse := by
  rw [Spent, bottomUp_eq_reverse (breaksIn_ascending default text)]

instance (text : List Char) : Decidable (Spent text) :=
  decidable_of_iff _ (spent_iff text).symm

theorem mendTimes_zero (text : List Char) : mendTimes 0 text = text := by
  rw [mendTimes, List.replicate_zero, List.flatten_nil, mend, bottomUp, List.mergeSort_nil]
  exact joinLines_splitLines text

theorem mendTimes_one (text : List Char) : mendTimes 1 text = mendOnce text := by
  rw [mendTimes, List.replicate_one, List.flatten_singleton, mendOnce]

theorem mendTimes_of_clean (clean : Clean text) (copies : Nat) : mendTimes copies text = text := by
  have nothing : (List.replicate copies (breaksIn default text)).flatten = [] := by
    rw [show breaksIn default text = [] from clean]
    simp
  rw [mendTimes, nothing, mend, bottomUp, List.mergeSort_nil]
  exact joinLines_splitLines text

theorem mendTimes_eq_foldr (copies : Nat) (text : List Char) :
    mendTimes copies text = ((breaksIn default text).foldr (fun broken mended =>
      (List.replicate copies broken).foldl Mended.step mended)
        { template := Template.ofText text, count := 0 }).template.text := by
  rw [mendTimes, mend_of_perm (List.Perm.refl _)]

theorem mendTimes_cases (twice : 2 ≤ copies) (text : List Char) :
    Sheds (mendTimes copies text) text ∧
      ((Spent text ∧ mendTimes copies text = mendOnce text) ∨
        (¬ Spent text ∧ (solid (mendTimes copies text)).length < (solid text).length)) := by
  obtain ⟨settled, count, often, ⟨mended, blocks, -⟩, outcome⟩ :=
    foldr_replicate_step default twice [] (splitLines text)
  have once : mendOnce text = ((breaksIn default text).foldr
      (fun broken mended => Mended.step mended broken)
      { template := Template.ofText text, count := 0 }).template.text := by
    rw [mendOnce, mend, bottomUp_eq_reverse (breaksIn_ascending default text), List.foldl_reverse]
  have repeated : mendTimes copies text = joinLines settled := by
    rw [mendTimes_eq_foldr]
    exact congrArg (·.template.text) often
  rw [repeated, once, spent_iff]
  refine ⟨?_, ?_⟩
  · rw [← joinLines_splitLines text]
    exact blocks.sheds
  · rw [joinLines_splitLines] at outcome
    refine outcome.imp_left (And.imp_right fun same => ?_)
    exact (congrArg (·.template.text) same).symm

theorem mendTimes_sheds (copies : Nat) (text : List Char) : Sheds (mendTimes copies text) text := by
  match copies with
  | 0 =>
      rw [mendTimes_zero]
      exact .refl text
  | 1 =>
      rw [mendTimes_one]
      exact mendOnce_sheds text
  | copies + 2 => exact (mendTimes_cases (Nat.le_add_left 2 copies) text).1

theorem mendTimes_of_spent (positive : 1 ≤ copies) (spent : Spent text) :
    mendTimes copies text = mendOnce text := by
  rcases Nat.eq_or_lt_of_le positive with rfl | twice
  · exact mendTimes_one text
  · rcases (mendTimes_cases twice text).2 with ⟨-, same⟩ | ⟨unspent, -⟩
    · exact same
    · exact absurd spent unspent

theorem mendTimes_iterate_sheds (copies passes : Nat) (text : List Char) :
    Sheds ((mendTimes copies)^[passes] text) text := by
  induction passes with
  | zero => exact .refl text
  | succ passes ih =>
      rw [Function.iterate_succ_apply']
      exact (mendTimes_sheds copies _).trans ih

theorem mendTimes_iterate_of_spent (positive : 1 ≤ copies)
    (spent : ∀ earlier < passes, Spent (mendOnce^[earlier] text)) :
    (mendTimes copies)^[passes] text = mendOnce^[passes] text := by
  induction passes with
  | zero => rfl
  | succ passes ih =>
      have before := ih fun earlier bound => spent earlier (Nat.lt_succ_of_lt bound)
      rw [Function.iterate_succ_apply', Function.iterate_succ_apply', before]
      exact mendTimes_of_spent positive (spent passes (Nat.lt_succ_self _))

theorem spent_of_mendTimes_iterate_eq {file : Path} (twice : 2 ≤ copies)
    (apart : PassesApart file text passes)
    (same : (mendTimes copies)^[passes] text = mendOnce^[passes] text) :
    ∀ earlier < passes, Spent (mendOnce^[earlier] text) := by
  intro earlier
  induction earlier using Nat.strong_induction_on with
  | _ earlier ih =>
      intro bound
      rcases (mendTimes_cases twice (mendOnce^[earlier] text)).2 with ⟨spent, -⟩ | ⟨-, lost⟩
      · exact spent
      · have before : (mendTimes copies)^[earlier] text = mendOnce^[earlier] text :=
          mendTimes_iterate_of_spent (Nat.le_of_succ_le twice) fun pass within =>
            ih pass within (Nat.lt_trans within bound)
        obtain ⟨later, rfl⟩ := Nat.exists_eq_add_of_le' (Nat.succ_le_of_lt bound)
        have behind := (mendTimes_iterate_sheds copies later
          ((mendTimes copies)^[earlier + 1] text)).solid_sublist.length_le
        have upTo := (mendOnce_iterate_sheds earlier text).solid_sublist.length_le
        rw [← Function.iterate_add_apply, same, apart.solid_eq, Function.iterate_succ_apply', before] at behind
        omega

end

end Unbroken
