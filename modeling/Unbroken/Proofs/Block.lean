import Unbroken.Proofs.United

/-! A pass sorts the lines of a text into blocks of neighbouring lines. A block of one line is left
alone, and any other is put on one line, from which letters may be missing but where every closing
marker of the block's first line is still found. -/

namespace Unbroken

/-- Breaks that share no more than a line on which one ends and the other starts. -/
def Apart (breaks : List Break) : Prop :=
  ∀ upper ∈ breaks, ∀ lower ∈ breaks, upper.firstLine < lower.firstLine →
    upper.lastLine ≤ lower.firstLine

structure Block (mended : List Break) (above : Nat) (line : List Char) (more : List (List Char))
    (settled : List Char) : Prop where
  alone : more = [] → settled = line
  starts : more = [] ↔ ∀ broken ∈ mended, broken.firstLine ≠ above + 1
  sheds : Sheds settled (joinLines (line :: more))
  closes : ∀ (quote : Quote) head after, cut quote.closer line = some (head, after) →
    ∃ front behind, cut quote.closer settled = some (front, behind) ∧ solid front = solid head ∧
      Sheds behind (joinLines (after :: more))
  covered : Apart mended → more ≠ [] → ∀ offset ≤ more.length,
    ∃ broken ∈ mended, broken.firstLine ≤ above + 1 + offset ∧ above + 1 + offset ≤ broken.lastLine

inductive Blocks (mended : List Break) : Nat → List (List Char) → List (List Char) → Prop
  | nil {above : Nat} : Blocks mended above [] []
  | cons {above : Nat} {line settled : List Char} {more below lower : List (List Char)}
      (block : Block mended above line more settled)
      (rest : Blocks mended (above + 1 + more.length) below lower) :
      Blocks mended above (line :: (more ++ below)) (settled :: lower)

theorem Apart.tail {broken : Break} {breaks : List Break} (apart : Apart (broken :: breaks)) :
    Apart breaks :=
  fun upper upperMember lower lowerMember =>
    apart upper (List.mem_cons_of_mem _ upperMember) lower (List.mem_cons_of_mem _ lowerMember)

namespace Block

variable {mended : List Break} {above : Nat} {line settled : List Char} {more : List (List Char)}

theorem keep (clear : ∀ broken ∈ mended, broken.firstLine ≠ above + 1) :
    Block mended above line [] line where
  alone _ := rfl
  starts := by simpa using clear
  sheds := by simpa using Sheds.refl line
  closes quote head after found := ⟨head, after, found, rfl, by simpa using Sheds.refl after⟩
  covered _ nonempty := absurd rfl nonempty

theorem weaken (block : Block mended above line more settled) {broken : Break}
    (higher : broken.firstLine ≤ above) : Block (broken :: mended) above line more settled where
  alone := block.alone
  starts := by
    rw [block.starts, List.forall_mem_cons]
    exact ⟨fun clear => ⟨by omega, clear⟩, And.right⟩
  sheds := block.sheds
  closes := block.closes
  covered apart nonempty offset bound := by
    obtain ⟨cover, member, within⟩ := block.covered apart.tail nonempty offset bound
    exact ⟨cover, List.mem_cons_of_mem _ member, within⟩

end Block

namespace Blocks

variable {mended : List Break} {above : Nat} {lines settled : List (List Char)}

theorem weaken (blocks : Blocks mended above lines settled) {broken : Break}
    (higher : broken.firstLine ≤ above) : Blocks (broken :: mended) above lines settled := by
  induction blocks with
  | nil => exact .nil
  | cons block _ ih => exact .cons (block.weaken higher) (ih (by omega))

theorem nil_iff (blocks : Blocks mended above lines settled) : lines = [] ↔ settled = [] := by
  cases blocks <;> simp

theorem split_at (blocks : Blocks mended above lines settled) {count : Nat} {reached : List Char}
    (found : settled[count]? = some reached) :
    ∃ upper line more below, lines = upper ++ (line :: (more ++ below)) ∧ count ≤ upper.length ∧
      (upper.length = count ↔
        ∀ broken ∈ mended, above < broken.firstLine → above + count < broken.firstLine) ∧
      (upper.length = count → settled.take count = upper) ∧
      Block mended (above + upper.length) line more reached ∧
      Blocks mended (above + upper.length + 1 + more.length) below (settled.drop (count + 1)) := by
  induction blocks generalizing count with
  | nil => simp at found
  | @cons above line settled more below lower block rest ih =>
      cases count with
      | zero =>
          obtain rfl : settled = reached := by simpa using found
          exact ⟨[], line, more, below, rfl, le_rfl, by simp, by simp, block, by simpa using rest⟩
      | succ count =>
          obtain ⟨upper, next, others, last, rfl, bound, inPlace, same, there, lowest⟩ :=
            ih (by simpa using found)
          refine ⟨line :: (more ++ upper), next, others, last, by simp, by simp; omega, ?_, ?_, ?_, ?_⟩
          · have starts := block.starts
            cases more with
            | nil =>
                simp only [true_iff] at starts
                simp only [List.nil_append, List.length_cons, Nat.add_right_cancel_iff]
                rw [inPlace]
                refine forall_congr' fun broken => forall_congr' fun member => ?_
                have other := starts broken member
                simp only [List.length_nil]
                omega
            | cons second more =>
                simp only [reduceCtorEq, false_iff, not_forall, not_not] at starts
                obtain ⟨broken, member, first⟩ := starts
                constructor
                · intro size
                  simp only [List.length_cons, List.length_append] at size
                  omega
                · intro clear
                  have later := clear broken member (by omega)
                  omega
          · intro size
            simp only [List.length_cons, List.length_append, Nat.add_right_cancel_iff] at size
            obtain rfl : more = [] := List.length_eq_zero_iff.mp (by omega)
            simpa [block.alone rfl] using same (by simpa using size)
          · rwa [show above + (line :: (more ++ upper)).length = above + 1 + more.length + upper.length by
              simp; omega]
          · rw [show above + (line :: (more ++ upper)).length = above + 1 + more.length + upper.length by
              simp; omega]
            simpa using lowest

theorem sheds (blocks : Blocks mended above lines settled) :
    Sheds (joinLines settled) (joinLines lines) := by
  induction blocks with
  | nil => exact .nil
  | @cons above line settled more below lower block rest ih =>
      cases below with
      | nil =>
          obtain rfl := rest.nil_iff.mp rfl
          simpa using block.sheds
      | cons next below =>
          have nonempty : lower ≠ [] := fun nothing => by simpa using rest.nil_iff.mpr nothing
          rw [joinLines_cons_of_ne_nil _ nonempty, ← List.cons_append,
            joinLines_append (by simp) (by simp)]
          exact block.sheds.append (.cons (Or.inl rfl) ih)

end Blocks

theorem Span.exists_skipped {line first : List Char} {below upper rest : List (List Char)}
    (span : Span line below) (split : below = upper ++ first :: rest)
    (longer : span.between.length < upper.length) :
    ∃ skipped, upper = span.between ++ span.last :: skipped := by
  have parts := span.parts.symm.trans split
  obtain ⟨skipped, rfl⟩ : ∃ skipped, upper = span.between ++ skipped := by
    have starts : span.between <+: upper :=
      List.prefix_of_prefix_length_le ⟨_, parts⟩ (List.prefix_append _ _) (Nat.le_of_lt longer)
    exact ⟨_, (List.prefix_iff_eq_append.mp starts).symm⟩
  rw [List.append_assoc] at parts
  have tail := List.append_cancel_left parts
  cases skipped with
  | nil => simp at longer
  | cons last skipped =>
      obtain ⟨rfl, -⟩ := List.cons.inj tail
      exact ⟨skipped, rfl⟩

theorem Blocks.reach_behind {line first reached : List Char} {below lowest upper more rest : List (List Char)}
    {above : Nat} {mended : List Break} (span : Span line below)
    (split : below = upper ++ first :: (more ++ rest)) (longer : span.between.length < upper.length)
    (block : Block mended (above + upper.length) first more reached)
    (blocks : Blocks mended (above + upper.length + 1 + more.length) rest lowest) :
    ∃ further, below = span.between ++ span.last :: (further ++ rest) ∧
      Blocks mended (above + span.depth + further.length) rest lowest ∧
      Sheds reached (joinLines further) := by
  obtain ⟨skipped, rfl⟩ := span.exists_skipped split longer
  refine ⟨skipped ++ first :: more, by simpa using split, ?_, ?_⟩
  · have place : above + (span.between ++ span.last :: skipped).length + 1 + more.length =
        above + span.depth + (skipped ++ first :: more).length := by
      simp only [Span.depth, List.length_append, List.length_cons]
      omega
    rwa [place] at blocks
  · rw [joinLines_append_cons]
    exact block.sheds.trans (.of_sublist (List.sublist_append_right _ _))

theorem Blocks.reach {line reached : List Char} {below lower : List (List Char)} {above : Nat}
    {mended : List Break} (blocks : Blocks mended above below lower) (span : Span line below)
    (found : lower[span.between.length]? = some reached) :
    ∃ further rest, below = span.between ++ span.last :: (further ++ rest) ∧
      Blocks mended (above + span.depth + further.length) rest (lower.drop span.depth) ∧
      (((∀ broken ∈ mended, above < broken.firstLine →
            above + span.between.length < broken.firstLine) ∧
          lower.take span.between.length = span.between ∧
          Block mended (above + span.between.length) span.last further reached) ∨
        ((∃ broken ∈ mended, above < broken.firstLine ∧
            broken.firstLine ≤ above + span.between.length) ∧
          Sheds reached (joinLines further))) := by
  obtain ⟨upper, first, more, rest, split, bound, inPlace, same, block, lowest⟩ :=
    blocks.split_at found
  rcases Nat.eq_or_lt_of_le bound with size | further
  · obtain ⟨rfl, tail⟩ := List.append_inj (span.parts.symm.trans split) size
    obtain ⟨rfl, -⟩ := List.cons.inj tail
    refine ⟨more, rest, split, ?_, Or.inl ⟨inPlace.mp rfl, same rfl, block⟩⟩
    simpa [Span.depth, Nat.add_assoc] using lowest
  · obtain ⟨skipped, parts, blocks, sheds⟩ := Blocks.reach_behind span split further block lowest
    refine ⟨skipped, rest, parts, blocks, Or.inr ⟨?_, sheds⟩⟩
    by_contra clear
    push Not at clear
    have size := inPlace.mpr clear
    omega

namespace Span

variable {line : List Char} {below : List (List Char)}

theorem joinLines_behind (span : Span line below) (first : List Char)
    (further : List (List Char)) :
    joinLines (first :: (span.between ++ span.last :: further)) =
      first ++ ('\n' :: joinLines (span.between ++ [span.head])) ++
        (span.marker.quote.closer ++ joinLines (span.after :: further)) := by
  rw [span.last_eq, List.append_assoc span.head, joinLines_between, joinLines_append_head,
    List.cons_append, joinLines_cons_of_ne_nil _ (by simp)]

theorem joinLines_eq (span : Span line below) (further : List (List Char)) :
    joinLines (line :: (span.between ++ span.last :: further)) =
      span.marker.before ++ span.marker.quote.opener ++ span.body ++
        (span.marker.quote.closer ++ joinLines (span.after :: further)) := by
  rw [joinLines_behind, span.body_eq]
  simp only [← List.append_assoc, ← span.line_eq]

theorem united_sheds (span : Span line below) {after : List Char} {further : List (List Char)}
    (sheds : Sheds after (joinLines (span.after :: further))) :
    Sheds (span.united after) (joinLines (line :: (span.between ++ span.last :: further))) := by
  rw [joinLines_eq, united, List.append_assoc]
  exact ((Sheds.refl _).append (singleSpaced_sheds _)).append (sheds.append_left _)

end Span

theorem sheds_behind {line reached ahead after : List Char} {below further : List (List Char)}
    {above : Nat} {mended : List Break} (span : Span line below)
    (closes : cut span.marker.quote.closer reached = some (ahead, after))
    (met : Block mended above span.last further reached ∨ Sheds reached (joinLines further)) :
    Sheds after (joinLines (span.after :: further)) := by
  rcases met with block | sheds
  · obtain ⟨front, behind, found, -, sheds⟩ := block.closes _ _ _ span.closes
    obtain ⟨rfl, rfl⟩ := Prod.mk.inj (Option.some.inj (closes.symm.trans found))
    exact sheds
  · have behind : after.Sublist reached := by
      rw [cut_append closes]
      exact List.sublist_append_right _ _
    have rest : (joinLines further).Sublist (joinLines (span.after :: further)) := by
      cases further with
      | nil => exact List.nil_sublist _
      | cons next further =>
          rw [joinLines_cons_cons]
          exact (List.sublist_cons_self _ _).trans (List.sublist_append_right _ _)
    exact ((Sheds.of_sublist behind).trans sheds).trans (.of_sublist rest)

theorem Block.unite_of_covered {line reached ahead after : List Char} {below further : List (List Char)}
    {above : Nat} {mended : List Break} {broken : Break} (span : Span line below)
    (closes : cut span.marker.quote.closer reached = some (ahead, after))
    (met : Block mended (above + 1 + span.between.length) span.last further reached ∨
      Sheds reached (joinLines further))
    (first : broken.firstLine = above + 1)
    (covered : Apart (broken :: mended) → ∀ offset ≤ (span.between ++ span.last :: further).length,
      ∃ cover ∈ broken :: mended,
        cover.firstLine ≤ above + 1 + offset ∧ above + 1 + offset ≤ cover.lastLine) :
    Block (broken :: mended) above line (span.between ++ span.last :: further)
      (span.united after) where
  alone nothing := by simp at nothing
  starts := by simp [first]
  sheds := span.united_sheds (sheds_behind span closes met)
  closes quote head behind found := by
    obtain ⟨front, later, kept, same, sheds⟩ := span.cut_united after found
    refine ⟨front, later, kept, same, ?_⟩
    rw [span.joinLines_behind]
    exact sheds.trans (((sheds_behind span closes met).append_left _).append_left _)
  covered apart _ := covered apart

theorem Block.unite {line reached ahead after : List Char} {below further : List (List Char)}
    {above : Nat} {mended : List Break} (file : Path) (span : Span line below)
    (closes : cut span.marker.quote.closer reached = some (ahead, after))
    (met : Block mended (above + 1 + span.between.length) span.last further reached ∨
      ((∃ broken ∈ mended, above + 1 < broken.firstLine ∧
        broken.firstLine ≤ above + 1 + span.between.length) ∧ Sheds reached (joinLines further))) :
    Block (span.toBreak file (above + 1) :: mended) above line
      (span.between ++ span.last :: further) (span.united after) := by
  refine .unite_of_covered span closes (met.imp_right And.right) rfl ?_
  intro apart offset bound
  simp only [List.length_append, List.length_cons] at bound
  by_cases within : offset ≤ span.depth
  · refine ⟨_, List.mem_cons_self, ?_⟩
    simp only [Span.toBreak]
    omega
  · simp only [Span.depth] at within
    rcases met with block | ⟨⟨lower, member, behind, inside⟩, -⟩
    · have nonempty : further ≠ [] := by
        rintro rfl
        simp at bound
        omega
      obtain ⟨cover, member, around⟩ := block.covered apart.tail nonempty
        (offset - span.between.length - 1) (by omega)
      exact ⟨cover, List.mem_cons_of_mem _ member, by omega⟩
    · have disjoint := apart _ List.mem_cons_self lower (List.mem_cons_of_mem _ member) behind
      simp only [Span.toBreak, Span.depth] at disjoint
      omega

theorem Settles.blocks {file : Path} {above : Nat} {lines settled : List (List Char)}
    {mended : List Break} (settles : Settles file above lines settled mended) :
    Blocks mended above lines settled := by
  have clear : ∀ {above below lower mended}, Settles file (above + 1) below lower mended →
      ∀ broken ∈ mended, broken.firstLine ≠ above + 1 := by
    intro above below lower mended rest broken member
    have bound := rest.lt_firstLine broken member
    omega
  induction settles with
  | done => exact .nil
  | keeps _ rest ih => exact .cons (.keep (clear rest)) ih
  | passes _ _ rest ih => exact .cons (.keep (clear rest)) ih
  | @unites above line reached ahead after below lower mended span found closes rest ih =>
      obtain ⟨further, lowest, parts, blocks, met⟩ := ih.reach span found
      have block : Block (span.toBreak file (above + 1) :: mended) above line
          (span.between ++ span.last :: further) (span.united after) := by
        refine .unite file span closes ?_
        rcases met with ⟨-, -, block⟩ | shifted
        · exact Or.inl block
        · exact Or.inr shifted
      have joined : line :: below = line :: ((span.between ++ span.last :: further) ++ lowest) := by
        simpa using parts
      rw [joined]
      refine .cons block ?_
      have place : above + 1 + (span.between ++ span.last :: further).length =
          above + 1 + span.depth + further.length := by
        simp only [Span.depth, List.length_append, List.length_cons]
        omega
      rw [place]
      exact blocks.weaken (by simp only [Span.toBreak]; omega)

end Unbroken
