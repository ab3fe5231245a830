import Mathlib.Data.Nat.Find
import Mathlib.Order.Bounds.Basic
import Mathlib.Tactic.IntervalCases
import Unbroken.Proofs.Pass

/-! Why passes come to an end. The number of breaks tells nothing, as mending brings lines nearer
together and so may bring a message within reach. But each break that is mended leaves one line less
that stays open: its first line is closed, and the lines that it takes along are gone. -/

namespace Unbroken

/-- Whether the message by which a line is read is not closed on the line. -/
def staysOpen (line : List Char) : Bool :=
  match Marker.leftmost? line with
  | some marker => !occurs marker.quote.closer marker.tail
  | none => false

def openLines (text : List Char) : Nat :=
  (splitLines text).countP staysOpen

namespace Span

variable {line : List Char} {below : List (List Char)}

theorem staysOpen_line (span : Span line below) : staysOpen line = true := by
  rw [staysOpen, span.leads]
  simp [occurs, span.stays]

theorem staysOpen_united (span : Span line below) (after : List Char) :
    staysOpen (span.united after) = false := by
  have closed : occurs span.marker.quote.closer (span.text ++ span.marker.quote.closer ++ after) = true :=
    (occurs_iff _ _).mpr ⟨span.text, after, rfl⟩
  rw [staysOpen, span.leftmost?_united]
  simp only [closed, Bool.not_true]

end Span

theorem Settles.countP_staysOpen_add_le {file : Path} {above : Nat} {lines settled : List (List Char)}
    {mended : List Break} (settles : Settles file above lines settled mended) :
    settled.countP staysOpen + mended.length ≤ lines.countP staysOpen := by
  induction settles with
  | done => exact Nat.le_refl _
  | keeps _ _ ih | passes _ _ _ ih =>
      rw [List.countP_cons, List.countP_cons]
      omega
  | @unites above line reached ahead after below lower mended span found closes rest ih =>
      have fewer : (lower.drop span.depth).countP staysOpen ≤ lower.countP staysOpen :=
        (List.drop_sublist _ _).countP_le
      rw [List.countP_cons_of_neg (by simp [span.staysOpen_united]),
        List.countP_cons_of_pos span.staysOpen_line, List.length_cons]
      omega

theorem openLines_mend_add_count_le (file : Path) (text : List Char) :
    let mended := mend (Template.ofText text) (breaksIn file text)
    openLines mended.template.text + mended.count ≤ openLines text := by
  intro mended
  have settles := settles_settle file 0 (splitLines text)
  have count : mended.count = (settle file 0 (splitLines text)).mended.length := by
    rw [show mended = _ from mend_breaksIn file text]
  rw [openLines, splitLines_mend_breaksIn, count]
  exact settles.countP_staysOpen_add_le

theorem openLines_mendOnce_lt {text : List Char} (broken : ¬ Clean text) :
    openLines (mendOnce text) < openLines text := by
  have bound := openLines_mend_add_count_le default text
  have changed := (changed_mend_iff default text).mpr broken
  rw [Mended.changed, decide_eq_true_eq] at changed
  rw [mendOnce]
  omega

theorem clean_mendOnce_openLines (text : List Char) : Clean (mendOnce^[openLines text] text) := by
  generalize size : openLines text = count
  induction count using Nat.strong_induction_on generalizing text with
  | _ count ih =>
      by_cases clean : Clean text
      · have now : Clean (mendOnce^[0] text) := clean
        exact now.later (Nat.zero_le _)
      · have fewer := openLines_mendOnce_lt clean
        have later := ih _ (size ▸ fewer) (mendOnce text) rfl
        rw [← Function.iterate_succ_apply] at later
        exact later.later (by omega)

/-- A pass over a text that has breaks mends some of them and shortens the text, and leaves fewer open
lines, by as many at least as it mended breaks. So the passes end, and there are no more of them than
open lines. -/
theorem passes_end (file : Path) (text : List Char) :
    (breaksIn file text ≠ [] →
      let mended := mend (Template.ofText text) (breaksIn file text)
      mended.template.text = mendOnce text ∧ 1 ≤ mended.count ∧
        (splitLines mended.template.text).length < (splitLines text).length ∧
        openLines mended.template.text + mended.count ≤ openLines text) ∧
      ∃ passes ≤ openLines text, IsLeast {passes | breaksIn file (mendOnce^[passes] text) = []} passes := by
  constructor
  · intro nonempty mended
    have broken := mt (breaksIn_eq_nil_iff file text).mpr nonempty
    have once : mended.template.text = mendOnce text :=
      congrArg (·.template.text) (mend_breaksIn_default file text)
    refine ⟨once, of_decide_eq_true ((changed_mend_iff file text).mpr broken), ?_,
      openLines_mend_add_count_le file text⟩
    rw [once]
    exact length_splitLines_mendOnce_lt broken
  · simp only [breaksIn_eq_nil_iff]
    have enough := clean_mendOnce_openLines text
    have reached : ∃ passes, Clean (mendOnce^[passes] text) := ⟨_, enough⟩
    exact ⟨Nat.find reached, Nat.find_min' reached enough, Nat.find_spec reached,
      fun passes clean => Nat.find_min' reached clean⟩

/-- Two breaks that close together. The first pass mends the lower one only and leaves one open line of
two, so that a second pass is needed, and the last. -/
theorem passes_end_overlapping :
    let text := "_(\"a\n_(\"b\nc\")".toList
    breaksIn ⟨"page"⟩ text ≠ [] ∧ openLines text = 2 ∧ openLines (mendOnce text) = 1 ∧
      (splitLines (mendOnce text)).length < 3 ∧
      IsLeast {passes | breaksIn ⟨"page"⟩ (mendOnce^[passes] text) = []} 2 := by
  intro text
  have broken : breaksIn ⟨"page"⟩ text ≠ [] := by decide
  have two : openLines text = 2 := by decide
  obtain ⟨progress, passes, bound, least⟩ := passes_end ⟨"page"⟩ text
  obtain ⟨once, -, shorter, -⟩ := progress broken
  have after : mendOnce text = "_(\"a\n_(\"b c\")".toList := by
    rw [mendOnce_eq]
    decide
  have more : ∀ passes < 2, breaksIn ⟨"page"⟩ (mendOnce^[passes] text) ≠ [] := by
    intro passes few
    interval_cases passes
    · exact broken
    · rw [Function.iterate_one, after]
      decide
  have second : passes = 2 := by
    have enough : ¬ passes < 2 := fun few => more passes few least.1
    omega
  rw [once] at shorter
  exact ⟨broken, two, by rw [after]; decide, shorter, second ▸ least⟩

end Unbroken
