import Unbroken.Proofs.Text.Places
import Unbroken.Proofs.United

/-! The message of a break can be put between markers. It came from a text without a closing marker, and no
closing marker comes up when the text is spaced singly: a marker has no blank in it, and blanks become
fewer but do not vanish between two words. So the marker that is put behind the message is the first. -/

namespace Unbroken

theorem cut_closer_append {quote : Quote} {text : List Char} (clear : ¬ quote.closer <:+: text)
    (more : List Char) :
    cut quote.closer (text ++ quote.closer ++ more) = some (text, more) := by
  induction text with
  | nil => exact cut_closer_quote_bracket quote more
  | cons letter rest ih =>
      rw [List.infix_cons_iff, not_or] at clear
      have notHere : ¬ quote.closer <+: letter :: (rest ++ quote.closer ++ more) := by
        intro stands
        obtain ⟨rfl, bracket⟩ := List.cons_prefix_cons.mp stands
        cases rest with
        | nil =>
            exact absurd (List.cons_prefix_cons.mp bracket).1 quote.bracket_ne_char
        | cons next rest =>
            obtain ⟨rfl, -⟩ := List.cons_prefix_cons.mp bracket
            exact clear.1 ⟨rest, rfl⟩
      rw [List.cons_append, List.cons_append, cut_cons_of_not_starts notHere, ih clear.2]
      rfl

theorem closes_append_iff {quote : Quote} {text : List Char} (clear : ¬ quote.closer <:+: text)
    (more : List Char) (position : Nat) :
    Closes (text ++ quote.closer ++ more) quote 0 position ↔ position = text.length := by
  rw [closes_iff_cut, List.drop_zero, cut_closer_append clear]
  simp

/-- The message of a break is free of closing markers and spaced singly, and its visible letters are those
between its opening marker and the first closing marker behind. Whatever follows it, a closing marker
that is put behind it is the first one. -/
theorem breaksIn_enclosed {file : Path} {text : List Char} {broken : Break}
    (member : broken ∈ breaksIn file text) :
    ¬ broken.quote.closer <:+: broken.text ∧ SinglySpaced broken.text ∧
      (∃ opening closing, Opens text broken.firstLine broken.quote opening ∧
        Closes text broken.quote (opening + 3) closing ∧
        solid broken.text = solid ((text.take closing).drop (opening + 3))) ∧
      ∀ more position, Closes (broken.text ++ broken.quote.closer ++ more) broken.quote 0 position ↔
        position = broken.text.length := by
  obtain ⟨opening, closing, opens, closes, -, -, same⟩ := (mem_breaksIn_iff_markers _ _ _).mp member
  have message : broken.text = singleSpaced ((text.take closing).drop (opening + 3)) :=
    congrArg Break.text same
  have clear : ¬ broken.quote.closer <:+: broken.text := by
    intro inside
    obtain ⟨body, after, found, rfl⟩ := (closes_iff_cut _ _ _ _).mp closes
    rw [message, slice_of_cut found] at inside
    exact not_infix_of_cut (closer_ne_nil _) found
      (infix_of_infix_singleSpaced (closer_ne_nil _) (blank_free_closer _) inside)
  refine ⟨clear, ?_, ⟨opening, closing, opens, closes, ?_⟩, fun more => closes_append_iff clear more⟩
  · rw [message]
    exact singlySpaced_singleSpaced _
  · rw [message, solid_singleSpaced]

/-- A message with a quote before a line feed and a bracket behind it, with blanks of three kinds, and with
a quote before its closing marker. -/
theorem breaksIn_enclosed_page :
    let text := "_(\"a\"\n) \u00a0\r\n\nb\"\")".toList
    let broken : Break := ⟨⟨"page"⟩, 1, 4, .double, "a\" ) b\"".toList, text⟩
    broken ∈ breaksIn ⟨"page"⟩ text ∧ ¬ "\")".toList <:+: broken.text ∧ SinglySpaced broken.text ∧
      Closes "a\" ) b\"\") \")".toList .double 0 7 := by
  intro text broken
  have member : broken ∈ breaksIn ⟨"page"⟩ text := by decide
  obtain ⟨clear, spaced, -, first⟩ := breaksIn_enclosed member
  exact ⟨member, clear, spaced, (first " \")".toList 7).mpr rfl⟩

end Unbroken
