import Unbroken.JsonReport
import Unbroken.Proofs.Json
import Unbroken.Proofs.Toml.Reader

/-! A JSON report read back. Its text is the text of an array with one object for each break, and
from that array the breaks are known, so different breaks have different reports. -/

namespace Unbroken

namespace Json

def member? (key : String) : Json → Option Json
  | .object members => members.lookup key.toList
  | _ => none

def text? : Json → Option (List Char)
  | .atom (.string content) => some content
  | _ => none

def natural? : Json → Option Nat
  | .atom (.number literal) =>
    if literal.all Char.isDigit then some (Nat.ofDigitChars 10 literal 0) else none
  | _ => none

theorem natural?_toDigits (number : Nat) :
    natural? (.atom (.number (Nat.toDigits 10 number))) = some number := by
  have allDigits : (Nat.toDigits 10 number).all Char.isDigit = true :=
    List.all_eq_true.mpr fun _ => Nat.isDigit_of_mem_toDigits (by decide) (Nat.le_refl 10)
  simp only [natural?, allDigits, if_true, Nat.ofDigitChars_ten_toDigits]

end Json

def Quote.named? (name : List Char) : Option Quote :=
  [double, single].find? (·.name.toList = name)

theorem Quote.named?_name (quote : Quote) : named? quote.name.toList = some quote := by
  cases quote <;> rfl

namespace Break

def toJson (broken : Break) : Json :=
  .object [
    ("file".toList, .atom (.string broken.file.spelling.toList)),
    ("start_line".toList, .atom (.number (toString broken.firstLine).toList)),
    ("end_line".toList, .atom (.number (toString broken.lastLine).toList)),
    ("quote".toList, .atom (.string broken.quote.name.toList)),
    ("text".toList, .atom (.string broken.text)),
    ("content".toList, .atom (.string broken.excerpt))]

def ofJson? (value : Json) : Option Break := do
  let file ← (← value.member? "file").text?
  let firstLine ← (← value.member? "start_line").natural?
  let lastLine ← (← value.member? "end_line").natural?
  let quote ← Quote.named? (← (← value.member? "quote").text?)
  let text ← (← value.member? "text").text?
  let excerpt ← (← value.member? "content").text?
  some { file := ⟨String.ofList file⟩, firstLine, lastLine, quote, text, excerpt }

theorem ofJson?_toJson (broken : Break) : ofJson? broken.toJson = some broken := by
  simp [ofJson?, toJson, Json.member?, Json.text?, List.lookup_cons, Json.natural?_toDigits,
    Quote.named?_name]

end Break

namespace JsonReport

theorem hexValue?_hexDigit : ∀ value < 16, Toml.hexValue? (hexDigit value) = some value := by
  decide

theorem codeUnit_hexDigit {code : Nat} (control : code < 0x20) (rest : List Char) :
    Json.codeUnit ('0' :: '0' :: hexDigit (code / 16) :: hexDigit (code % 16) :: rest) =
      some (code, rest) := by
  have high := hexValue?_hexDigit (code / 16) (by omega)
  have low := hexValue?_hexDigit (code % 16) (by omega)
  have zero : Toml.hexValue? '0' = some 0 := rfl
  have highBound : code / 16 < 16 := by omega
  have lowBound : code % 16 < 16 := by omega
  simp [Json.codeUnit, Toml.numeral?, zero, high, low, highBound, lowBound, Nat.div_add_mod]

theorem letter_escaped (letter : Char) (rest : List Char) :
    Json.letter (escaped letter ++ rest) = some (letter, rest) := by
  unfold escaped
  split
  case h_8 notQuote notBackslash _ _ _ _ _ =>
    split
    next control =>
      have noSurrogate : ¬ (0xD800 ≤ letter.toNat ∧ letter.toNat < 0xDC00) := by omega
      have valid : letter.toNat.isValidChar := letter.valid
      simp [Json.letter, Json.escape, codeUnit_hexDigit control, noSurrogate, valid]
    next printed => simpa [Json.letter, printed] using notQuote
  all_goals rfl

theorem many_letter_escaped (content rest : List Char) :
    Toml.Reader.many Json.letter (content.flatMap escaped ++ '"' :: rest) =
      (content, '"' :: rest) := by
  have read : ∀ letter ∈ content, escaped letter ≠ [] ∧
      ∀ rest, Json.letter (escaped letter ++ rest) = some (letter, rest) := by
    refine fun letter _ => ⟨fun empty => ?_, letter_escaped letter⟩
    have := letter_escaped letter []
    simp [empty, Json.letter] at this
  have stop : Json.letter ('"' :: rest) = none := rfl
  rw [Toml.Reader.many_flatMap read stop, List.map_id']

variable {rest : List Char} {tokens : List Json.Token}

theorem spells_quoted (content : List Char) (behind : Json.Spells rest tokens) :
    Json.Spells (quoted content ++ rest) (.atom (.string content) :: tokens) := by
  refine .token ?_ behind
  simp [quoted, Json.token, Toml.singleLine, many_letter_escaped, Toml.Reader.mark]

theorem exists_toDigits_eq_cons (number : Nat) :
    ∃ first others, Nat.toDigits 10 number = first :: others ∧ first.isDigit = true ∧
      (first = '0' → number = 0) := by
  induction number using Nat.strongRecOn with
  | _ number ih =>
      by_cases small : number < 10
      · refine ⟨number.digitChar, [], Nat.toDigits_of_lt_base small, ?_, by simp⟩
        simpa [Nat.isDigit_digitChar] using small
      · obtain ⟨first, others, written, isDigit, zero⟩ := ih (number / 10) (by omega)
        refine ⟨first, others ++ [(number % 10).digitChar], ?_, isDigit, fun isZero => ?_⟩
        · rw [Nat.toDigits_of_base_le (by decide) (by omega), written, List.cons_append]
        · have := zero isZero
          omega

theorem number_toDigits (number : Nat) (rest : List Char) :
    Json.number (Nat.toDigits 10 number ++ ',' :: rest) =
      some (Nat.toDigits 10 number, ',' :: rest) := by
  have run : Json.digits (Nat.toDigits 10 number ++ ',' :: rest) =
      some (Nat.toDigits 10 number, ',' :: rest) := by
    have allDigits : ∀ digit ∈ Nat.toDigits 10 number, digit.isDigit = true := fun _ =>
      Nat.isDigit_of_mem_toDigits (by decide) (Nat.le_refl 10)
    simp [Json.digits, List.takeWhile_append_of_pos allDigits, Nat.toDigits_ne_nil]
  obtain ⟨first, others, written, isDigit, zero⟩ := exists_toDigits_eq_cons number
  have unsigned : first ≠ '-' := by
    rintro rfl
    cases isDigit
  have whole : Json.whole (Nat.toDigits 10 number ++ ',' :: rest) =
      some (Nat.toDigits 10 number, ',' :: rest) := by
    by_cases isZero : first = '0'
    · rw [zero isZero]
      rfl
    · rw [← run, written]
      simp [Json.whole, isZero]
  rw [written, List.cons_append] at whole ⊢
  simp [Json.number, unsigned, whole, Json.fraction, Json.power]

theorem token_of_isDigit {first : Char} (isDigit : first.isDigit = true) (text : List Char) :
    Json.token (first :: text) =
      (Json.number (first :: text)).map fun (literal, rest) => (.atom (.number literal), rest) := by
  have noWord : 'n' ≠ first ∧ 't' ≠ first ∧ 'f' ≠ first := by
    refine ⟨?_, ?_, ?_⟩ <;> (rintro rfl; cases isDigit)
  unfold Json.token
  split
  case h_8 => simp [Toml.Reader.word, List.isPrefixOf, noWord]
  all_goals
    next same =>
      cases same
      cases isDigit

theorem spells_number (number : Nat) (behind : Json.Spells (',' :: rest) tokens) :
    Json.Spells ((toString number).toList ++ ',' :: rest)
      (.atom (.number (toString number).toList) :: tokens) := by
  have text : (toString number).toList = Nat.toDigits 10 number := Nat.toList_repr
  have read := number_toDigits number rest
  obtain ⟨first, others, written, isDigit, -⟩ := exists_toDigits_eq_cons number
  rw [text]
  refine .token ?_ behind
  rw [written, List.cons_append] at read ⊢
  rw [token_of_isDigit isDigit, read]
  rfl

theorem spells_member (key : String) {value : List Char} {atom : Json.Atom}
    (behind : Json.Spells (value ++ rest) (.atom atom :: tokens)) :
    Json.Spells (member key value ++ rest)
      (.atom (.string key.toList) :: .colon :: .atom atom :: tokens) := by
  have colon : Json.Spells (": ".toList ++ (value ++ rest)) (.colon :: .atom atom :: tokens) :=
    .token rfl (.gap rfl behind)
  have indented := spells_quoted key.toList colon
  -- Unlike `unfold`, this leaves the literals alone.
  delta member
  simp only [List.append_assoc]
  exact .gap rfl (.gap rfl (.gap rfl (.gap rfl indented)))

theorem spells_comma (next : Json.Spells rest tokens) :
    Json.Spells (',' :: '\n' :: rest) (.comma :: tokens) :=
  .token rfl (.gap rfl next)

theorem spells_record (broken : Break) (behind : Json.Spells rest tokens) :
    Json.Spells (record broken ++ rest) (broken.toJson.tokens ++ tokens) := by
  have closed : Json.Spells ('\n' :: ' ' :: ' ' :: '\x7d' :: rest) (.closeObject :: tokens) :=
    .gap rfl (.gap rfl (.gap rfl (.token rfl behind)))
  have content := spells_member "content" (spells_quoted broken.excerpt closed)
  have text := spells_member "text" (spells_quoted broken.text (spells_comma content))
  have quote := spells_member "quote" (spells_quoted broken.quote.name.toList (spells_comma text))
  have lastLine := spells_member "end_line" (spells_number broken.lastLine (spells_comma quote))
  have firstLine := spells_member "start_line" (spells_number broken.firstLine (spells_comma lastLine))
  have file := spells_member "file" (spells_quoted broken.file.spelling.toList (spells_comma firstLine))
  have opened : Json.Spells (' ' :: ' ' :: '\x7b' :: '\n' :: _) (.openObject :: _) :=
    .gap rfl (.gap rfl (.token rfl (.gap rfl file)))
  delta record
  simpa [members, Break.toJson, Json.tokens, Json.memberTokens, Json.laterMemberTokens]
    using opened

theorem spells_records (first : Break) (others : List Break) :
    Json.Spells (",\n".toList.intercalate ((first :: others).map record) ++ "\n]\n".toList)
      (first.toJson.tokens ++ Json.laterItemTokens (others.map Break.toJson)) := by
  induction others generalizing first with
  | nil =>
      have closed : Json.Spells ['\n', ']', '\n'] [.closeArray] :=
        .gap rfl (.token rfl (.gap rfl .done))
      simpa [Json.laterItemTokens] using spells_record first closed
  | cons second later ih =>
      simpa [Json.laterItemTokens, List.intercalate_cons_cons]
        using spells_record first (spells_comma (ih second))

theorem isText_render (breaks : List Break) :
    Json.IsText (render breaks) (.array (breaks.map Break.toJson)) := by
  cases breaks with
  | nil => exact .token rfl (.token rfl (.gap rfl .done))
  | cons first others =>
      have opened : Json.Spells ('[' :: '\n' :: _) (.openArray :: _) :=
        .token rfl (.gap rfl (spells_records first others))
      simpa [Json.IsText, render, Json.tokens, Json.itemTokens] using opened

/-- The breaks of a report. -/
def breaks? : Json → Option (List Break)
  | .array items => items.mapM Break.ofJson?
  | _ => none

theorem breaks?_map_toJson (breaks : List Break) :
    breaks? (.array (breaks.map Break.toJson)) = some breaks := by
  induction breaks with
  | nil => rfl
  | cons first others ih =>
      simp only [breaks?] at ih
      simp [breaks?, Break.ofJson?_toJson, ih]

theorem exists_render_eq_append (breaks : List Break) :
    ∃ front, render breaks = front ++ [']', '\n'] := by
  cases breaks with
  | nil => exact ⟨['['], rfl⟩
  | cons first others =>
      refine ⟨"[\n".toList ++ ",\n".toList.intercalate ((first :: others).map record) ++ ['\n'], ?_⟩
      simp [render]

/-- A report is valid JSON with one line feed at its end, and whoever reads it finds the breaks that
were reported. So no other breaks have the same report. -/
theorem render_reads_back (breaks : List Break) :
    (∃ body, render breaks = body ++ ['\n'] ∧ body.getLast? ≠ some '\n') ∧
      (∃ value, Json.IsText (render breaks) value) ∧
      (∀ value, Json.IsText (render breaks) value → breaks? value = some breaks) ∧
      ∀ others, render others = render breaks → others = breaks := by
  refine ⟨?_, ⟨_, isText_render breaks⟩, ?_, ?_⟩
  · obtain ⟨front, ends⟩ := exists_render_eq_append breaks
    exact ⟨front ++ [']'], by simp [ends], by simp⟩
  · intro value isText
    rw [isText.unique (isText_render breaks), breaks?_map_toJson]
  · intro others same
    have read : Json.IsText (render breaks) (.array (others.map Break.toJson)) :=
      same ▸ isText_render others
    have values := read.unique (isText_render breaks)
    have decoded := breaks?_map_toJson others
    rw [values, breaks?_map_toJson] at decoded
    exact (Option.some.inj decoded).symm

end JsonReport

end Unbroken
