import Unbroken.Proofs.Passes
import Unbroken.Proofs.Whole

/-! What the verdict that everything was mended says about the breaks that were reported. It only says
that the last survey found no break, and a survey reads a line by its leftmost opening marker. A break
that was passed over, and whose line then became part of another one, is not seen again. -/

namespace Unbroken

namespace Check

/-- After a check that claims to have mended everything, a reported break stands whole just if no pass
lost a visible letter of its file and the break is not overlooked. -/
theorem run_mended_standsWhole_iff {files : FileSystem} (sound : files.top.Sound) (search : Search)
    (maxPasses : Nat) {progress : Progress} {report : Report}
    (done : run (.search search) .quiet { fix := true, maxPasses := maxPasses } files =
      .ok (progress, report))
    (mended : report.verdict = .mended) :
    ∀ broken ∈ report.breaks, ∃ text after opening closing,
      files.read broken.file = .ok text ∧ progress.files.read broken.file = .ok after ∧
      Opens text broken.firstLine broken.quote opening ∧
      Closes text broken.quote (opening + 3) closing ∧
      (StandsWhole text after broken opening closing ↔
        PassesApart broken.file text report.tally.passes ∧
          ¬ Overlooked text after broken.quote opening closing) ∧
      (StandsWhole text after broken opening closing →
        ∃ line ∈ splitLines after,
          solid (broken.quote.opener ++ broken.text ++ broken.quote.closer) <:+: solid line) := by
  obtain ⟨least, first⟩ := exists_isLeast_clean (search.texts files)
  obtain ⟨told, result⟩ := run_search sound (breaksAfter_eq_nil_iff_le first) maxPasses
  rw [result, Except.ok.injEq, Prod.mk.injEq] at done
  obtain ⟨rfl, rfl⟩ := done
  have enough : least ≤ max 1 maxPasses := by
    by_contra short
    have positive : least ≠ 0 := by omega
    simp only [if_neg positive, if_neg short] at mended
    cases mended
  simp only [Nat.min_eq_left enough]
  intro broken found
  obtain ⟨⟨path, text⟩, member, here⟩ := List.mem_flatMap.mp found
  obtain rfl := file_of_mem_breaksIn here
  obtain ⟨location, holds⟩ := exists_holds member
  obtain ⟨opening, closing, opens, closes, -, near, same⟩ := (mem_breaksIn_iff_markers _ _ _).mp here
  have marks : Marks text broken opening closing :=
    ⟨opens.stands, closes, near, congrArg Break.text same⟩
  refine ⟨text, mendOnce^[least] text, opening, closing, holds.read, (holds_stage member holds least).read,
    opens, closes, ?_, StandsWhole.exists_line⟩
  exact standsWhole_iff (first.1 _ member) marks

/-- A page whose one break is mended. -/
theorem run_mended_page_standsWhole :
    (onePage "_(\"a\nb\")").top.Sound ∧ ∃ progress report,
      run (.search pages) .quiet { fix := true, maxPasses := 2 } (onePage "_(\"a\nb\")") =
        .ok (progress, report) ∧
      report.verdict = .mended ∧ ∃ broken ∈ report.breaks, ∃ text after opening closing,
        (onePage "_(\"a\nb\")").read broken.file = .ok text ∧
        progress.files.read broken.file = .ok after ∧
        StandsWhole text after broken opening closing ∧
        ∃ line ∈ splitLines after,
          solid (broken.quote.opener ++ broken.text ++ broken.quote.closer) <:+: solid line := by
  refine ⟨onePage_sound _, ?_⟩
  have once : mendOnce "_(\"a\nb\")".toList = "_(\"a b\")".toList := by
    rw [mendOnce_eq]
    decide
  have unclean : ¬ Clean "_(\"a\nb\")".toList := by decide
  obtain ⟨told, report, done, verdict, passes, breaks⟩ := run_onePage unclean once (by decide)
  refine ⟨_, report, done, verdict, ?_⟩
  obtain ⟨broken, others, first⟩ := List.exists_cons_of_ne_nil
    (mt (breaksIn_eq_nil_iff ⟨"./page.jinja"⟩ _).mp unclean)
  have member : broken ∈ breaksIn ⟨"./page.jinja"⟩ "_(\"a\nb\")".toList := first ▸ List.mem_cons_self
  have file := file_of_mem_breaksIn member
  rw [← breaks] at member
  obtain ⟨text, after, opening, closing, read, final, -, -, whole, line⟩ :=
    run_mended_standsWhole_iff (onePage_sound _) pages 2 done verdict broken member
  rw [file, read_onePage, Except.ok.injEq] at read final
  subst read final
  have stands : StandsWhole "_(\"a\nb\")".toList "_(\"a b\")".toList broken opening closing := by
    refine whole.mpr ⟨?_, ?_⟩
    · intro earlier bound
      obtain rfl : earlier = 0 := by omega
      rw [file, apart_unitedIn_iff, Apart]
      decide
    · rintro ⟨start, stop, -, -, -, -, below, -⟩
      obtain ⟨left, right, tail, -⟩ := exists_newline_of_lineOf_lt below
      have newline : '\n' ∈ "_(\"a b\")".toList.drop start := by
        rw [tail]
        exact List.mem_append_right _ List.mem_cons_self
      exact absurd (List.mem_of_mem_drop newline) (by decide)
  refine ⟨broken, member, _, _, opening, closing, ?_, ?_, stands, line stands⟩
  · rw [file, read_onePage]
  · rw [file, read_onePage]

/-- Three chained breaks. The lowest is mended first, so that the middle one has lost its last line and
is passed over. The uppermost is mended then and takes the first line of the middle one, which the next
survey does not see any more. -/
theorem run_mended_leaves_break :
    let page := onePage "_('p\nx') _(\"a\n_(\"b\nc\")"
    let after := "_('p x') _(\"a\n_(\"b c\")"
    ∃ told report, run (.search pages) .quiet { fix := true, maxPasses := 2 } page =
        .ok ({ files := onePage after, told := told }, report) ∧
      report.verdict = .mended ∧
      ∃ broken ∈ report.breaks, (onePage after).read broken.file = .ok after.toList ∧
        ∀ line ∈ splitLines after.toList,
          ¬ solid (broken.quote.opener ++ broken.text ++ broken.quote.closer) <:+: solid line := by
  intro page after
  have once : mendOnce "_('p\nx') _(\"a\n_(\"b\nc\")".toList = after.toList := by
    rw [mendOnce_eq]
    decide
  obtain ⟨told, report, done, verdict, -, breaks⟩ := run_onePage (by decide) once (by decide)
  refine ⟨told, report, done, verdict, ?_⟩
  have left : ∃ broken ∈ breaksIn ⟨"./page.jinja"⟩ "_('p\nx') _(\"a\n_(\"b\nc\")".toList,
      ∀ line ∈ splitLines after.toList,
        ¬ solid (broken.quote.opener ++ broken.text ++ broken.quote.closer) <:+: solid line := by
    decide
  obtain ⟨broken, member, nowhere⟩ := left
  refine ⟨broken, breaks ▸ member, ?_, nowhere⟩
  rw [file_of_mem_breaksIn member, read_onePage]

end Check

end Unbroken
