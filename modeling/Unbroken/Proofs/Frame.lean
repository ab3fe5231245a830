import Mathlib.Data.List.Chain
import Unbroken.Proofs.Guarded
import Unbroken.Proofs.Lossless
import Unbroken.Proofs.Seam

/-! What a mend of any breaks leaves alone. Lines above all breaks never change. Lines between them come
up, and stay as they are if no two breaks share more than the line on which one ends and the other
starts. -/

namespace Unbroken

def Break.ranged (broken : Break) : Bool :=
  0 < broken.firstLine && broken.firstLine ≤ broken.lastLine

/-- Two breaks from the top down, with one line in common at most. -/
def Break.Above (upper lower : Break) : Prop :=
  upper.firstLine < lower.firstLine ∧ upper.lastLine ≤ lower.firstLine

instance : Trans Break.Above Break.Above Break.Above where
  trans above below := ⟨Nat.lt_trans above.1 below.1, Nat.le_trans above.2 (Nat.le_of_lt below.1)⟩

theorem Seam.untouched_sublist {broken : Break} {lines : List (List Char)} (seam : Seam broken lines)
    {higher : List Break} (clear : ∀ other ∈ higher, other.lastLine ≤ broken.firstLine) :
    (untouched (broken :: higher) lines).Sublist (untouched higher seam.united) := by
  have starts := seam.starts
  have ends := seam.ends
  have parts : lines = seam.upper ++ ((seam.spanned ++ [seam.last]) ++ seam.lower) := by
    conv_lhs => rw [seam.parts]
    rw [List.append_assoc seam.spanned, List.singleton_append]
  have middle : untouchedFrom (1 + seam.upper.length) (broken :: higher) (seam.spanned ++ [seam.last]) = [] := by
    apply untouchedFrom_eq_nil
    intro offset bound
    rw [List.length_append, List.length_singleton] at bound
    exact ⟨broken, List.mem_cons_self, by omega, by omega⟩
  -- The lines below come up and are counted anew, but no other break reaches down to them.
  have behind : untouchedFrom (1 + seam.upper.length + 1) higher seam.lower = seam.lower := by
    apply untouchedFrom_of_lt
    intro other member
    have place := clear other member
    omega
  rw [untouched, untouched, congrArg (untouchedFrom 1 _) parts, untouchedFrom_append 1 _ seam.upper,
    untouchedFrom_append _ _ (seam.spanned ++ _), middle, List.nil_append, united,
    untouchedFrom_append 1 _ seam.upper, ← List.singleton_append (l := seam.lower),
    untouchedFrom_append _ _ [_], List.length_singleton, behind]
  apply List.Sublist.append
  · exact untouchedFrom_sublist 1 (List.subset_cons_self _ _) _
  · apply List.sublist_append_of_sublist_right
    exact untouchedFrom_sublist_self _ _ _

theorem Mends.untouched_sublist {lines left : List (List Char)} {breaks mended : List Break}
    (mends : Mends lines breaks mended left)
    (clear : mended.Pairwise fun lower upper => upper.lastLine ≤ lower.firstLine) :
    (untouched mended lines).Sublist left := by
  induction mends with
  | done => exact untouchedFrom_sublist_self _ _ _
  | passes _ _ ih => exact ih clear
  | unites seam _ ih =>
      obtain ⟨first, others⟩ := List.pairwise_cons.mp clear
      exact (seam.untouched_sublist first).trans (ih others)

theorem unitedIn_subperm (template : Template) (breaks : List Break) :
    (unitedIn template breaks).Subperm breaks :=
  (mends_mend template breaks).sublist.subperm.trans (List.mergeSort_perm _ _).subperm

theorem unitedIn_sublist_ranged (template : Template) (breaks : List Break) :
    (unitedIn template breaks).Sublist ((bottomUp breaks).filter Break.ranged) := by
  have mends := mends_mend template breaks
  have ranged : (unitedIn template breaks).filter Break.ranged = unitedIn template breaks := by
    rw [List.filter_eq_self]
    intro broken member
    have range := mends.range broken member
    simp [Break.ranged, range]
  rw [← ranged]
  exact mends.sublist.filter _

theorem unitedIn_clear {template : Template} {breaks order : List Break}
    (same : order.Perm (breaks.filter Break.ranged)) (chain : order.IsChain Break.Above) :
    (unitedIn template breaks).Pairwise fun lower upper => upper.lastLine ≤ lower.firstLine := by
  have apart : order.Pairwise Break.Above := chain.pairwise
  have sorted : ((bottomUp breaks).filter Break.ranged).Perm order :=
    ((List.mergeSort_perm _ _).filter _).trans same.symm
  have known : (bottomUp breaks).filter Break.ranged = order.reverse :=
    eq_reverse_of_ascending sorted ((bottomUp_sorted breaks).filter _) (apart.imp And.left)
  have mended := unitedIn_sublist_ranged template breaks
  rw [known] at mended
  exact (List.pairwise_reverse.mpr (apart.imp And.right)).sublist mended

/-- Whatever the breaks, a mend ends without an access out of bounds. It takes out as many lines as the
mended breaks span beyond one each, changes nothing if it mends none, and never changes a line above all
breaks. If the breaks whose lines are in order lie one above the other, all lines outside of them stay. -/
theorem mend_frame (template : Template) (breaks : List Break) :
    let mended := mend template breaks
    let united := unitedIn template breaks
    Guarded.mend template breaks = .ok mended ∧
      (united.Subperm breaks ∧ mended.count = united.length ∧
        (∀ broken ∈ united, 0 < broken.firstLine ∧ broken.firstLine ≤ broken.lastLine ∧
          broken.lastLine ≤ template.lines.length) ∧
        mended.template.lines.length + (united.map fun broken => broken.lastLine - broken.firstLine).sum =
          template.lines.length) ∧
      (mended.count = 0 → mended.template = template) ∧
      (∀ above, (∀ broken ∈ breaks, above < broken.firstLine) →
        mended.template.lines.take above = template.lines.take above) ∧
      ∀ order : List Break, order.Perm (breaks.filter Break.ranged) → order.IsChain Break.Above →
        (untouched (breaks.filter Break.ranged) template.lines).Sublist mended.template.lines := by
  intro mended united
  have mends := mends_mend template breaks
  have known := unitedIn_subperm template breaks
  refine ⟨Guarded.mend_eq template breaks,
    ⟨known, count_mend template breaks, mends.range, mends.length_eq⟩, ?_, ?_, ?_⟩
  · intro idle
    have nothing : united = [] := List.length_eq_zero_iff.mp ((count_mend template breaks).symm.trans idle)
    exact congrArg Template.mk (mends.eq_of_nil nothing)
  · intro above below
    exact mends.take_eq fun broken member => below broken (known.subset member)
  · intro order same chain
    refine List.Sublist.trans ?_ (mends.untouched_sublist (unitedIn_clear same chain))
    apply untouchedFrom_sublist
    intro broken member
    have ranged := (unitedIn_sublist_ranged template breaks).subset member
    exact List.mem_filter.mpr ⟨known.subset member, (List.mem_filter.mp ranged).2⟩

/-- A break on the second and third line, and one whose lines are not in order. -/
theorem mend_frame_page :
    let page : Template := .ofText "x\n_(\"a\nb\")\ny".toList
    let broken : Break := ⟨⟨"page"⟩, 2, 3, .double, "a b".toList, []⟩
    let reversed : Break := { broken with firstLine := 9, lastLine := 4 }
    let mended := mend page [broken, reversed]
    mended.count = 1 ∧ mended.template.lines.take 1 = [['x']] ∧
      [['x'], ['y']].Sublist mended.template.lines ∧ (mend page [reversed]).template = page := by
  intro page broken reversed mended
  obtain ⟨-, -, -, front, kept⟩ := mend_frame page [broken, reversed]
  obtain ⟨-, -, same, -⟩ := mend_frame page [reversed]
  have ranged : [broken, reversed].filter Break.ranged = [broken] := by decide
  have order : bottomUp [broken, reversed] = [reversed, broken] := bottomUp_eq_reverse (by decide)
  rw [ranged] at kept
  refine ⟨?_, front 1 (by decide), kept [broken] (List.Perm.refl _) (.singleton _), same ?_⟩
  · simp only [mended, mend, order]
    decide
  · rw [mend, bottomUp_singleton]
    rfl

end Unbroken
