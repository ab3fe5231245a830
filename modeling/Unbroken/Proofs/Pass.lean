import Unbroken.Proofs.Lossless

/-! One pass over a text: its breaks are surveyed and mended. Texts without breaks are clean, and stay
as they are. In any other text the lowest break at least is mended, as the lines below its first one
are still in place, and mending takes lines out. A text therefore comes clean after finitely many
passes. -/

namespace Unbroken

/-- The text after one pass. In what file the text stands makes no difference. -/
def mendOnce (text : List Char) : List Char :=
  (mend (Template.ofText text) (breaksIn default text)).template.text

def Clean (text : List Char) : Prop :=
  breaksIn default text = []

instance (text : List Char) : Decidable (Clean text) :=
  inferInstanceAs (Decidable (_ = _))

def Break.filedAs (file : Path) (broken : Break) : Break :=
  { broken with file := file }

theorem breaksFrom_eq_map (file : Path) (number : Nat) (lines : List (List Char)) :
    breaksFrom file number lines = (breaksFrom default number lines).map (Break.filedAs file) := by
  induction lines generalizing number with
  | nil => rfl
  | cons line below ih =>
      rw [breaksFrom, breaksFrom, List.map_append, ih]
      congr 1
      cases found : breakAt? default number line below with
      | none =>
          rw [breakAt?_eq_none_iff] at found
          rw [(breakAt?_eq_none_iff _ _ _ _).mpr found]
          rfl
      | some broken =>
          obtain ⟨span, rfl⟩ := (breakAt?_eq_some_iff _ _ _ _ _).mp found
          rw [(breakAt?_eq_some_iff _ _ _ _ _).mpr ⟨span, rfl⟩]
          rfl

theorem breaksIn_eq_map (file : Path) (text : List Char) :
    breaksIn file text = (breaksIn default text).map (Break.filedAs file) :=
  breaksFrom_eq_map file 1 _

theorem breaksIn_eq_nil_iff (file : Path) (text : List Char) : breaksIn file text = [] ↔ Clean text := by
  rw [breaksIn_eq_map, List.map_eq_nil_iff, Clean]

theorem mend_map_filedAs (file : Path) (template : Template) (breaks : List Break) :
    mend template (breaks.map (Break.filedAs file)) = mend template breaks := by
  have moved : bottomUp (breaks.map (Break.filedAs file)) = (bottomUp breaks).map (Break.filedAs file) := by
    rw [bottomUp, bottomUp, List.map_mergeSort]
    intro left _ right _
    rfl
  rw [mend, mend, moved, List.foldl_map]
  rfl

theorem mend_breaksIn_default (file : Path) (text : List Char) :
    mend (Template.ofText text) (breaksIn file text) =
      mend (Template.ofText text) (breaksIn default text) := by
  rw [breaksIn_eq_map, mend_map_filedAs]

theorem mendOnce_eq (text : List Char) :
    mendOnce text = joinLines (settle default 0 (splitLines text)).lines :=
  text_mend_breaksIn default text

theorem splitLines_mendOnce (text : List Char) :
    splitLines (mendOnce text) = (settle default 0 (splitLines text)).lines :=
  splitLines_mend_breaksIn default text

namespace Settles

variable {file : Path} {above : Nat} {lines settled : List (List Char)} {mended : List Break}

theorem length_add_sum (settles : Settles file above lines settled mended) :
    settled.length + (mended.map fun broken => broken.lastLine - broken.firstLine).sum =
      lines.length := by
  induction settles with
  | done => rfl
  | keeps _ _ ih | passes _ _ _ ih =>
      simp only [List.length_cons]
      omega
  | unites span found _ _ ih =>
      have inside := (List.getElem?_eq_some_iff.mp found).1
      simp only [List.length_cons, List.length_drop, List.map_cons, List.sum_cons, Span.toBreak,
        Span.depth] at ih ⊢
      omega

theorem eq_of_nothing_mended (settles : Settles file above lines settled []) : settled = lines := by
  generalize nothing : ([] : List Break) = mended at settles
  induction settles with
  | done => rfl
  | keeps _ _ ih | passes _ _ _ ih => rw [ih nothing]
  | unites => cases nothing

theorem breaks_eq_nil (settles : Settles file above lines settled []) :
    breaksFrom file (above + 1) lines = [] := by
  generalize nothing : ([] : List Break) = mended at settles
  induction settles with
  | done => rfl
  | keeps unbroken _ ih =>
      rw [breaksFrom, (breakAt?_eq_none_iff _ _ _ _).mpr unbroken, ih nothing]
      rfl
  | passes span missing rest _ =>
      subst nothing
      obtain rfl := rest.eq_of_nothing_mended
      have inPlace : ∀ below, below = span.between ++ span.last :: span.lower →
          below[span.between.length]? = some span.last := by
        rintro _ rfl
        simp
      rw [inPlace _ span.parts, Option.bind_some, span.closes] at missing
      cases missing
  | unites => cases nothing

end Settles

theorem settle_mended_eq_nil_iff (text : List Char) :
    (settle default 0 (splitLines text)).mended = [] ↔ Clean text := by
  have settles := settles_settle default 0 (splitLines text)
  constructor
  · intro nothing
    rw [nothing] at settles
    exact settles.breaks_eq_nil
  · intro clean
    have sub := settles.mended_sublist
    rw [show breaksFrom default (0 + 1) (splitLines text) = [] from clean] at sub
    exact List.sublist_nil.mp sub

theorem changed_mend_iff (file : Path) (text : List Char) :
    (mend (Template.ofText text) (breaksIn file text)).changed = true ↔ ¬ Clean text := by
  rw [mend_breaksIn_default, mend_breaksIn, Mended.changed, ← settle_mended_eq_nil_iff,
    ← List.length_eq_zero_iff]
  simp only [decide_eq_true_eq]
  omega

theorem mendOnce_of_clean {text : List Char} (clean : Clean text) : mendOnce text = text := by
  have settles := settles_settle default 0 (splitLines text)
  rw [(settle_mended_eq_nil_iff text).mpr clean] at settles
  rw [mendOnce_eq, settles.eq_of_nothing_mended, joinLines_splitLines]

theorem length_splitLines_mendOnce_lt {text : List Char} (broken : ¬ Clean text) :
    (splitLines (mendOnce text)).length < (splitLines text).length := by
  have settles := settles_settle default 0 (splitLines text)
  have size := settles.length_add_sum
  rw [splitLines_mendOnce, ← size]
  obtain ⟨first, others, mended⟩ :=
    List.exists_cons_of_ne_nil fun nothing => broken ((settle_mended_eq_nil_iff text).mp nothing)
  have member : first ∈ breaksFrom default (0 + 1) (splitLines text) :=
    settles.mended_sublist.subset (by simp [mended])
  obtain ⟨above, line, below, -, found⟩ := (mem_breaksFrom_iff _ _ _ _).mp member
  obtain ⟨span, rfl⟩ := (breakAt?_eq_some_iff _ _ _ _ _).mp found
  simp only [mended, List.map_cons, List.sum_cons, Span.toBreak, Span.depth]
  omega

theorem mendOnce_iterate_of_clean {text : List Char} (clean : Clean text) (passes : Nat) :
    mendOnce^[passes] text = text :=
  Function.iterate_fixed (mendOnce_of_clean clean) passes

theorem Clean.later {text : List Char} {passes more : Nat} (clean : Clean (mendOnce^[passes] text))
    (ordered : passes ≤ more) : Clean (mendOnce^[more] text) := by
  obtain ⟨rest, rfl⟩ := Nat.exists_eq_add_of_le' ordered
  rw [Function.iterate_add_apply, mendOnce_iterate_of_clean clean]
  exact clean

theorem exists_clean (text : List Char) : ∃ passes, Clean (mendOnce^[passes] text) := by
  generalize size : (splitLines text).length = count
  induction count using Nat.strong_induction_on generalizing text with
  | _ count ih =>
      by_cases clean : Clean text
      · exact ⟨0, clean⟩
      · have shorter := length_splitLines_mendOnce_lt clean
        obtain ⟨passes, later⟩ := ih _ (size ▸ shorter) (mendOnce text) rfl
        exact ⟨passes + 1, later⟩

theorem mendOnce_sheds (text : List Char) : Sheds (mendOnce text) text := by
  have sheds := (settles_settle default 0 (splitLines text)).blocks.sheds
  rwa [joinLines_splitLines, ← mendOnce_eq] at sheds

theorem mendOnce_iterate_sheds (passes : Nat) (text : List Char) :
    Sheds (mendOnce^[passes] text) text := by
  induction passes with
  | zero => exact .refl text
  | succ passes ih =>
      rw [Function.iterate_succ_apply']
      exact (mendOnce_sheds _).trans ih

end Unbroken
