import Unbroken.Proofs.Gap
import Unbroken.Proofs.RawText
import Unbroken.Proofs.Settle

/-! Breaks of which nothing is known. Their line numbers may be anything, and their messages too: a break
may start and end on one line, close before it opens, or bring line feeds along. What a mend does to lines
is still the same each time. It joins the front of one line to the end of another, or of the same one, and
drops the lines between; or it does nothing. -/

namespace Unbroken

/-- A place in some lines where any break can be mended. The message closes on `last`, which is also the
line that it opens on if no line is `spanned`. -/
structure Seam (broken : Break) (lines : List (List Char)) where
  upper : List (List Char)
  spanned : List (List Char)
  first : List Char
  last : List Char
  lower : List (List Char)
  before : List Char
  tail : List Char
  head : List Char
  after : List Char
  parts : lines = upper ++ (spanned ++ last :: lower)
  starts : broken.firstLine = upper.length + 1
  ends : broken.lastLine = broken.firstLine + spanned.length
  leads : (spanned ++ [last]).head? = some first
  opens : cut broken.quote.opener first = some (before, tail)
  closes : cut broken.quote.closer last = some (head, after)

namespace Seam

variable {broken : Break} {lines : List (List Char)}

def united (seam : Seam broken lines) : List (List Char) :=
  seam.upper ++
    (seam.before ++ broken.quote.opener ++ broken.text ++ broken.quote.closer ++ seam.after) :: seam.lower

theorem range (seam : Seam broken lines) :
    0 < broken.firstLine ∧ broken.firstLine ≤ broken.lastLine ∧ broken.lastLine ≤ lines.length := by
  have size := congrArg List.length seam.parts
  have first := seam.starts
  have last := seam.ends
  simp only [List.length_append, List.length_cons] at size
  omega

theorem length_united (seam : Seam broken lines) :
    seam.united.length + (broken.lastLine - broken.firstLine) = lines.length := by
  have size := congrArg List.length seam.parts
  have last := seam.ends
  simp only [List.length_append, List.length_cons] at size
  simp only [united, List.length_append, List.length_cons]
  omega

theorem take_united (seam : Seam broken lines) {above : Nat} (inside : above < broken.firstLine) :
    seam.united.take above = lines.take above := by
  have bound : above ≤ seam.upper.length := by
    have first := seam.starts
    omega
  rw [congrArg (List.take above) seam.parts, united, List.take_append_of_le_length bound,
    List.take_append_of_le_length bound]

theorem lined (seam : Seam broken lines) (flat : '\n' ∉ broken.text) (lined : Lined lines) :
    Lined seam.united := by
  have every : ∀ line ∈ seam.upper ++ (seam.spanned ++ seam.last :: seam.lower), '\n' ∉ line := by
    rw [← seam.parts]
    exact lined.flat
  have first : '\n' ∉ seam.first := by
    have member := List.mem_of_mem_head? seam.leads
    apply every
    simp only [List.mem_append, List.mem_cons] at member ⊢
    tauto
  have last : '\n' ∉ seam.last := every _ (by simp)
  rw [cut_append seam.opens] at first
  rw [cut_append seam.closes] at last
  simp only [List.mem_append, not_or] at first last
  constructor
  · simp [united]
  · intro line member
    rw [united, List.mem_append, List.mem_cons] at member
    rcases member with upper | rfl | lower
    · exact every line (List.mem_append_left _ upper)
    · simp only [List.mem_append, not_or]
      exact ⟨⟨⟨first.1, flat⟩, last.1.2⟩, last.2⟩
    · exact every line (by simp [lower])

theorem take_eq_upper (seam : Seam broken lines) : lines.take (broken.firstLine - 1) = seam.upper := by
  rw [seam.starts, Nat.add_sub_cancel, congrArg (List.take _) seam.parts, List.take_left]

theorem getElem?_first (seam : Seam broken lines) :
    lines[broken.firstLine - 1]? = some seam.first := by
  have leads := seam.leads
  rw [← List.head?_drop, seam.starts, Nat.add_sub_cancel, congrArg (List.drop _) seam.parts,
    List.drop_left]
  simpa [List.head?_append] using leads

theorem drop_eq_last (seam : Seam broken lines) :
    lines.drop (broken.lastLine - 1) = seam.last :: seam.lower := by
  have place : broken.lastLine - 1 = seam.upper.length + seam.spanned.length := by
    rw [seam.ends, seam.starts]
    omega
  rw [place, ← List.drop_drop, congrArg (List.drop _) seam.parts, List.drop_left, List.drop_left]

theorem getElem?_last (seam : Seam broken lines) : lines[broken.lastLine - 1]? = some seam.last := by
  rw [← List.head?_drop, seam.drop_eq_last, List.head?_cons]

theorem drop_eq_lower (seam : Seam broken lines) : lines.drop broken.lastLine = seam.lower := by
  have below := congrArg List.tail seam.drop_eq_last
  have range := seam.range
  rwa [List.tail_drop, Nat.sub_add_cancel (by omega), List.tail_cons] at below

theorem unite?_eq (seam : Seam broken lines) : unite? broken lines = some seam.united := by
  have valid : ¬ (broken.firstLine = 0 ∨ broken.lastLine < broken.firstLine) := by
    have range := seam.range
    omega
  simp only [unite?, if_neg valid, seam.getElem?_first, seam.getElem?_last, Option.bind_eq_bind,
    Option.bind_some, seam.opens, seam.closes, seam.take_eq_upper, seam.drop_eq_lower]
  rfl

end Seam

theorem unite?_eq_some_iff {broken : Break} {lines united : List (List Char)} :
    unite? broken lines = some united ↔ ∃ seam : Seam broken lines, united = seam.united := by
  constructor
  · intro found
    rw [unite?] at found
    split at found
    · cases found
    next valid =>
      obtain ⟨first, atFirst, found⟩ := Option.bind_eq_some_iff.mp found
      obtain ⟨last, atLast, found⟩ := Option.bind_eq_some_iff.mp found
      obtain ⟨⟨before, tail⟩, opens, found⟩ := Option.bind_eq_some_iff.mp found
      obtain ⟨⟨head, after⟩, closes, found⟩ := Option.bind_eq_some_iff.mp found
      have bound := (List.getElem?_eq_some_iff.mp atLast).1
      have rest : lines.drop (broken.firstLine - 1) =
          (lines.take (broken.lastLine - 1)).drop (broken.firstLine - 1) ++
            last :: lines.drop broken.lastLine :=
        drop_eq_append_of_getElem? (by omega) atLast
      refine ⟨{
        upper := lines.take (broken.firstLine - 1)
        spanned := (lines.take (broken.lastLine - 1)).drop (broken.firstLine - 1)
        first, last
        lower := lines.drop broken.lastLine
        before, tail, head, after
        parts := by rw [← rest, List.take_append_drop]
        starts := ?_
        ends := ?_
        leads := ?_
        opens, closes }, (Option.some.inj found).symm⟩
      · rw [List.length_take]
        omega
      · rw [List.length_drop, List.length_take]
        omega
      · rw [← List.head?_drop, rest] at atFirst
        simpa [List.head?_append] using atFirst
  · rintro ⟨seam, rfl⟩
    exact seam.unite?_eq

inductive Mends : List (List Char) → List Break → List Break → List (List Char) → Prop
  | done {lines : List (List Char)} : Mends lines [] [] lines
  | passes {lines left : List (List Char)} {broken : Break} {later mended : List Break}
      (missing : unite? broken lines = none) (rest : Mends lines later mended left) :
      Mends lines (broken :: later) mended left
  | unites {lines left : List (List Char)} {broken : Break} {later mended : List Break}
      (seam : Seam broken lines) (rest : Mends seam.united later mended left) :
      Mends lines (broken :: later) (broken :: mended) left

theorem Mended.mends_foldl (mended : Mended) (breaks : List Break) :
    Mends mended.template.lines breaks (mended.united breaks) (breaks.foldl step mended).template.lines ∧
      (breaks.foldl step mended).count = mended.count + (mended.united breaks).length := by
  induction breaks generalizing mended with
  | nil => exact ⟨.done, rfl⟩
  | cons broken later ih =>
      obtain ⟨rest, counted⟩ := ih (mended.step broken)
      rw [List.foldl_cons, Mended.united]
      cases found : unite? broken mended.template.lines with
      | none =>
          rw [step_of_none found] at rest counted ⊢
          exact ⟨.passes found rest, counted⟩
      | some lines =>
          obtain ⟨seam, rfl⟩ := unite?_eq_some_iff.mp found
          rw [step_of_some found] at rest counted ⊢
          refine ⟨.unites seam rest, ?_⟩
          rw [counted, List.length_cons]
          exact Nat.succ_add_eq_add_succ _ _

theorem mends_mend (template : Template) (breaks : List Break) :
    Mends template.lines (bottomUp breaks) (unitedIn template breaks)
      (mend template breaks).template.lines :=
  (Mended.mends_foldl { template := template, count := 0 } (bottomUp breaks)).1

theorem count_mend (template : Template) (breaks : List Break) :
    (mend template breaks).count = (unitedIn template breaks).length := by
  have counted := (Mended.mends_foldl { template := template, count := 0 } (bottomUp breaks)).2
  rwa [Nat.zero_add] at counted

namespace Mends

variable {lines left : List (List Char)} {breaks mended : List Break}

theorem sublist (mends : Mends lines breaks mended left) : mended.Sublist breaks := by
  induction mends with
  | done => exact List.Sublist.refl _
  | passes _ _ ih => exact ih.cons _
  | unites _ _ ih => exact ih.cons_cons _

theorem length_eq (mends : Mends lines breaks mended left) :
    left.length + (mended.map fun broken => broken.lastLine - broken.firstLine).sum = lines.length := by
  induction mends with
  | done => rfl
  | passes _ _ ih => exact ih
  | unites seam _ ih =>
      rw [← seam.length_united, ← ih, List.map_cons, List.sum_cons]
      omega

theorem range (mends : Mends lines breaks mended left) : ∀ broken ∈ mended,
    0 < broken.firstLine ∧ broken.firstLine ≤ broken.lastLine ∧ broken.lastLine ≤ lines.length := by
  induction mends with
  | done => simp
  | passes _ _ ih => exact ih
  | unites seam _ ih =>
      intro broken member
      rcases List.mem_cons.mp member with rfl | member
      · exact seam.range
      · have size := seam.length_united
        have range := ih broken member
        omega

theorem eq_of_nil (mends : Mends lines breaks mended left) (idle : mended = []) : left = lines := by
  induction mends with
  | done => rfl
  | passes _ _ ih => exact ih idle
  | unites => cases idle

theorem take_eq (mends : Mends lines breaks mended left) {above : Nat}
    (below : ∀ broken ∈ mended, above < broken.firstLine) : left.take above = lines.take above := by
  induction mends with
  | done => rfl
  | passes _ _ ih => exact ih below
  | unites seam _ ih =>
      obtain ⟨first, others⟩ := List.forall_mem_cons.mp below
      rw [ih others, seam.take_united first]

theorem lined (mends : Mends lines breaks mended left) (flat : ∀ broken ∈ mended, '\n' ∉ broken.text)
    (lined : Lined lines) : Lined left := by
  induction mends with
  | done => exact lined
  | passes _ _ ih => exact ih flat lined
  | unites seam _ ih =>
      obtain ⟨first, others⟩ := List.forall_mem_cons.mp flat
      exact ih others (seam.lined first lined)

end Mends

end Unbroken
