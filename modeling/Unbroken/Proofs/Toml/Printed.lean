import Unbroken.Proofs.Fitting

/-! Settings written as a document: one line for each member, with every letter of a string given by
its number. Reading the document gives the same table again. -/

namespace Unbroken.Toml

def hexDigits : (count number : Nat) → List Char
  | 0, _ => []
  | count + 1, number => hexDigits count (number / 16) ++ [(number % 16).digitChar]

def printedLetter (letter : Char) : List Char :=
  '\\' :: 'U' :: hexDigits 8 letter.toNat

def printedString (text : List Char) : List Char :=
  '"' :: text.flatMap printedLetter ++ ['"']

def printedElement : Value → List Char
  | .string text => printedString text ++ [',']
  | _ => []

/-- Decimal digits could start a date or a time, so a number has hexadecimal ones. What no settings
are given is left out. -/
def printedValue : Value → List Char
  | .string text => printedString text
  | .integer value => '0' :: 'x' :: hexDigits 16 value.toNat
  | .array elements => '[' :: elements.flatMap printedElement ++ [']']
  | _ => []

def printedLine (member : String × Value) : List Char :=
  member.1.toList ++ '=' :: printedValue member.2 ++ ['\n']

def printed (members : Members) : List Char :=
  members.flatMap printedLine

theorem length_hexDigits (count number : Nat) : (hexDigits count number).length = count := by
  induction count generalizing number with
  | zero => rfl
  | succ count ih => simp [hexDigits, ih]

theorem hexValue?_digitChar : ∀ digit < 16, hexValue? (Nat.digitChar digit) = some digit := by
  decide

theorem numeral?_hexDigits {count number : Nat} (bound : number < 16 ^ count) :
    numeral? 16 (hexDigits count number) = some number := by
  induction count generalizing number with
  | zero =>
      obtain rfl : number = 0 := by omega
      rfl
  | succ count ih =>
      have higher : number / 16 < 16 ^ count := by
        rw [Nat.pow_succ] at bound
        omega
      have lowest : number % 16 < 16 := Nat.mod_lt _ (by decide)
      have read := ih higher
      unfold numeral? at read ⊢
      rw [hexDigits, List.foldlM_append, read]
      simp [hexValue?_digitChar _ lowest, lowest, Nat.div_add_mod]

theorem basicLetter_printedLetter (letter : Char) (rest : List Char) :
    basicLetter (printedLetter letter ++ rest) = some (letter, rest) := by
  have valid : letter.toNat.isValidChar := letter.valid
  have bound : letter.toNat < 16 ^ 8 := by
    obtain bound | bound := valid <;> omega
  have digits : (hexDigits 8 letter.toNat ++ rest).take 8 = hexDigits 8 letter.toNat :=
    List.take_left' (length_hexDigits _ _)
  have behind : (hexDigits 8 letter.toNat ++ rest).drop 8 = rest :=
    List.drop_left' (length_hexDigits _ _)
  simp [basicLetter, printedLetter, escape, codePoint, digits, behind, numeral?_hexDigits bound,
    length_hexDigits, valid]

theorem singleLine_printed (text rest : List Char) :
    singleLine '"' basicLetter (text.flatMap printedLetter ++ '"' :: rest) = some (text, rest) := by
  have read : ∀ letter ∈ text, printedLetter letter ≠ [] ∧
      ∀ rest, basicLetter (printedLetter letter ++ rest) = some (letter, rest) :=
    fun letter _ => ⟨List.cons_ne_nil _ _, basicLetter_printedLetter letter⟩
  have stop : basicLetter ('"' :: rest) = none := rfl
  simp [singleLine, Reader.many_flatMap read stop, Reader.mark]

theorem string_printedString (text : List Char) {next : Char} (other : next ≠ '"')
    (rest : List Char) : string (printedString text ++ next :: rest) = some (text, next :: rest) := by
  have read := singleLine_printed text (next :: rest)
  cases text with
  | nil =>
      simp only [List.flatMap_nil, List.nil_append] at read
      simp [printedString, string, other, read]
  | cons letter later =>
      simp only [printedString, List.flatMap_cons, printedLetter, List.cons_append,
        List.append_assoc, List.nil_append] at read ⊢
      simp [string, read]

theorem value_printedString (depth : Nat) (text : List Char) {next : Char} (other : next ≠ '"')
    (rest : List Char) :
    Toml.value depth (printedString text ++ next :: rest) = some (.string text, next :: rest) := by
  have read := string_printedString text other rest
  obtain ⟨behind, written⟩ : ∃ behind, printedString text ++ next :: rest = '"' :: behind :=
    ⟨_, rfl⟩
  rw [written] at read ⊢
  simp [Toml.value, read]

theorem skipGap_cons {first : Char} (solid : first ∉ [' ', '\t', '#', '\n', '\r'])
    (rest : List Char) : skipGap (first :: rest) = first :: rest := by
  simp only [List.mem_cons, List.not_mem_nil, or_false, not_or] at solid
  have blanks : skipBlanks (first :: rest) = first :: rest := by
    simp [skipBlanks, solid]
  have noComment : skipComment (first :: rest) = first :: rest := by
    simp [skipComment, comment, solid]
  have noEnd : newline (first :: rest) = none := by
    simp [newline, solid]
  rw [skipGap, Reader.many]
  simp [blanks, noComment, noEnd]

theorem value_bracket (depth : Nat) (rest : List Char) : Toml.value depth (']' :: rest) = none := by
  unfold Toml.value
  rfl

theorem element_printedString (depth : Nat) (text rest : List Char) :
    element (Toml.value depth) (printedString text ++ ',' :: rest) = some (.string text, ',' :: rest) := by
  have front : skipGap (printedString text ++ ',' :: rest) = printedString text ++ ',' :: rest :=
    skipGap_cons (by decide) _
  have behind : skipGap (',' :: rest) = ',' :: rest := skipGap_cons (by decide) _
  simp [element, front, behind, value_printedString depth text (by decide : ',' ≠ '"')]

theorem value_printedArray (depth : Nat) (names : List String) (rest : List Char) :
    Toml.value (depth + 1)
        (printedValue (.array (names.map fun name => .string name.toList)) ++ rest) =
      some (.array (names.map fun name => .string name.toList), rest) := by
  have gap : skipGap (']' :: rest) = ']' :: rest := skipGap_cons (by decide) _
  have stop : element (Toml.value depth) (']' :: rest) = none := by
    rw [element, gap, value_bracket, Option.map_none]
  have elements : Reader.separated (element (Toml.value depth)) ',' true true
      ((names.map fun name => Value.string name.toList).flatMap printedElement ++ ']' :: rest) =
        some (names.map fun name => .string name.toList, ']' :: rest) := by
    rw [List.flatMap_map]
    exact Reader.separated_flatMap (fun name _ => element_printedString depth name.toList) stop
  have read : arrayElements (Toml.value depth)
      ((names.map fun name => Value.string name.toList).flatMap printedElement ++ ']' :: rest) =
        some (names.map fun name => .string name.toList, rest) := by
    simp [arrayElements, elements, gap, Reader.mark]
  simp [printedValue, Toml.value, read]

theorem isDigitOf_of_mem_hexDigits {count number : Nat} {digit : Char}
    (member : digit ∈ hexDigits count number) : isDigitOf 16 digit = true := by
  induction count generalizing number with
  | zero => cases member
  | succ count ih =>
      rw [hexDigits, List.mem_append, List.mem_singleton] at member
      obtain earlier | rfl := member
      · exact ih earlier
      · have bound : number % 16 < 16 := Nat.mod_lt _ (by decide)
        simp [isDigitOf, hexValue?_digitChar _ bound, bound]

theorem digitRun_hexDigits (count number : Nat) (rest : List Char) :
    digitRun 16 (hexDigits (count + 1) number ++ '\n' :: rest) =
      some (hexDigits (count + 1) number, '\n' :: rest) := by
  have areDigits := fun digit => @isDigitOf_of_mem_hexDigits (count + 1) number digit
  obtain ⟨first, others, written⟩ : ∃ first others, hexDigits (count + 1) number = first :: others :=
    List.exists_cons_of_length_eq_add_one (length_hexDigits _ _)
  rw [written] at areDigits ⊢
  have read : ∀ digit ∈ others, [digit] ≠ [] ∧
      ∀ rest, laterDigit 16 ([digit] ++ rest) = some (digit, rest) := by
    refine fun digit member => ⟨List.cons_ne_nil _ _, fun rest => ?_⟩
    have isDigit := areDigits digit (List.mem_cons_of_mem _ member)
    have noUnderscore : digit ≠ '_' := by
      rintro rfl
      cases isDigit
    simp [laterDigit, isDigit, noUnderscore]
  have many : Reader.many (laterDigit 16) (others ++ '\n' :: rest) = (others, '\n' :: rest) := by
    have stop : laterDigit 16 ('\n' :: rest) = none := rfl
    simpa using Reader.many_flatMap read stop
  rw [List.cons_append, digitRun, if_pos (areDigits first List.mem_cons_self), many]

theorem basedNumber_hexadecimal {text digits rest : List Char} {number : Nat} {result : Value}
    (run : digitRun 16 text = some (digits, rest)) (read : numeral? 16 digits = some number)
    (whole : wholeNumber? number = some result) :
    basedNumber ('0' :: 'x' :: text) = some (result, rest) := by
  simp only [basedNumber, Option.bind_eq_bind, Option.bind_some]
  rw [run, Option.bind_some, read, Option.bind_some, whole, Option.bind_some]

theorem value_hexadecimal (depth : Nat) {text rest : List Char} {result : Value}
    (read : basedNumber ('0' :: 'x' :: text) = some (result, rest)) :
    Toml.value depth ('0' :: 'x' :: text) = some (result, rest) := by
  have noString : string ('0' :: 'x' :: text) = none := rfl
  have noBoolean : boolean ('0' :: 'x' :: text) = none := rfl
  have noDate : dateTime ('0' :: 'x' :: text) = none := rfl
  simp [Toml.value, noString, noBoolean, noDate, number, sign, read]

theorem value_printedNumber (depth : Nat) {size : Nat} (bound : size < 2 ^ 63) (rest : List Char) :
    Toml.value depth (printedValue (.integer size) ++ '\n' :: rest) =
      some (.integer size, '\n' :: rest) := by
  have read := numeral?_hexDigits (by omega : size < 16 ^ 16)
  have whole : wholeNumber? size = some (.integer size) := by
    have power : Int.pow 2 63 = 2 ^ 63 := rfl
    rw [wholeNumber?, power, if_pos (by omega)]
  exact value_hexadecimal depth
    (basedNumber_hexadecimal (digitRun_hexDigits 15 size rest) read whole)

theorem value_printedValue {key : String} {value : Value} (fits : Settings.Fits key value)
    (depth : Nat) (rest : List Char) :
    Toml.value (depth + 1) (printedValue value ++ '\n' :: rest) = some (value, '\n' :: rest) := by
  cases fits with
  | extension text => exact value_printedString _ text (by decide) rest
  | exclude names => exact value_printedArray depth names _
  | maxFileSize lower upper =>
      obtain ⟨size, rfl⟩ := Int.eq_ofNat_of_zero_le lower
      exact value_printedNumber _ (by omega) rest

theorem ne_of_isBare {letter other : Char} (bare : isBare letter = true)
    (foreign : isBare other = false) : letter ≠ other := by
  rintro rfl
  cases bare.symm.trans foreign

variable {first : Char} {others : List Char}

theorem simpleKey_bare (bare : ∀ letter ∈ first :: others, isBare letter = true)
    (rest : List Char) :
    simpleKey (first :: others ++ '=' :: rest) =
      some (String.ofList (first :: others), '=' :: rest) := by
  have noDouble : first ≠ '"' := ne_of_isBare (bare _ List.mem_cons_self) rfl
  have noSingle : first ≠ '\'' := ne_of_isBare (bare _ List.mem_cons_self) rfl
  have run : (first :: others ++ '=' :: rest).takeWhile isBare = first :: others := by
    rw [List.takeWhile_append_of_pos bare]
    simp [isBare]
  rw [List.cons_append] at run ⊢
  simp [simpleKey, noDouble, noSingle, run]

theorem skipBlanks_bare (bare : isBare first = true) (rest : List Char) :
    skipBlanks (first :: rest) = first :: rest := by
  have noSpace : first ≠ ' ' := ne_of_isBare bare rfl
  have noTab : first ≠ '\t' := ne_of_isBare bare rfl
  simp [skipBlanks, noSpace, noTab]

theorem key_bare (bare : ∀ letter ∈ first :: others, isBare letter = true) (rest : List Char) :
    key (first :: others ++ '=' :: rest) =
      some ([String.ofList (first :: others)], '=' :: rest) := by
  have front : skipBlanks (first :: others ++ '=' :: rest) = first :: others ++ '=' :: rest :=
    skipBlanks_bare (bare _ List.mem_cons_self) _
  have behind : skipBlanks ('=' :: rest) = '=' :: rest := rfl
  rw [key, Reader.separated]
  simp only [front, simpleKey_bare bare]
  simp [behind, longestKey]

theorem pair_printed {key : String} {value : Value} (fits : Settings.Fits key value)
    (named : key.toList = first :: others) (bare : ∀ letter ∈ first :: others, isBare letter = true)
    (depth : Nat) (rest : List Char) :
    pair (Toml.value (depth + 1)) (first :: others ++ '=' :: (printedValue value ++ '\n' :: rest)) =
      some (([key], value), '\n' :: rest) := by
  have name : String.ofList (first :: others) = key := by rw [← named, String.ofList_toList]
  have front : skipBlanks (printedValue value ++ '\n' :: rest) =
      printedValue value ++ '\n' :: rest := by
    cases fits <;> rfl
  rw [pair, key_bare bare, name]
  simp [Reader.mark, front, value_printedValue fits]

theorem statement_printedLine {key : String} {value : Value} (fits : Settings.Fits key value)
    (rest : List Char) : statement (printedLine (key, value) ++ rest) =
      some (.assignment [key] value, rest) := by
  have bare : ∀ letter ∈ key.toList, isBare letter = true := by
    cases fits <;> exact List.all_eq_true.mp rfl
  obtain ⟨first, others, named⟩ : ∃ first others, key.toList = first :: others :=
    List.exists_cons_of_ne_nil (by cases fits <;> simp)
  rw [named] at bare
  have line : printedLine (key, value) ++ rest =
      first :: others ++ '=' :: (printedValue value ++ '\n' :: rest) := by
    simp [printedLine, named]
  have front := bare _ List.mem_cons_self
  have noHeader : first ≠ '[' := ne_of_isBare front rfl
  have noBlank : ¬ (first = '#' ∨ first = '\n' ∨ first = '\r') := by
    simp only [not_or]
    exact ⟨ne_of_isBare front rfl, ne_of_isBare front rfl, ne_of_isBare front rfl⟩
  have ended : lineEnd ('\n' :: rest) = some ((), rest) := rfl
  have read := pair_printed fits named bare 78 rest
  rw [line]
  rw [List.cons_append] at read ⊢
  simp [statement, skipBlanks_bare front, noHeader, noBlank, deepestNesting, read, ended]

theorem many_printed {members : Members}
    (fit : ∀ member ∈ members, Settings.Fits member.1 member.2) :
    Reader.many statement (printed members) =
      (members.map fun member => .assignment [member.1] member.2, []) := by
  have read : ∀ member ∈ members, printedLine member ≠ [] ∧
      ∀ rest, statement (printedLine member ++ rest) =
        some (.assignment [member.1] member.2, rest) :=
    fun member present => ⟨by simp [printedLine], statement_printedLine (fit member present)⟩
  have stop : statement [] = none := rfl
  simpa [printed] using Reader.many_flatMap read stop

theorem Draft.add_assignment {members : Members} {key : String} (new : members.find? key = none)
    (value : Value) : Draft.add { members := members, header := [] } (.assignment [key] value) =
      some { members := members ++ [(key, value)], header := [] } := by
  simp [Draft.add, Members.update, Members.assign, new]

theorem foldlM_add_assignments {before members : Members}
    (distinct : ((before ++ members).map Prod.fst).Nodup) :
    (members.map fun member => Statement.assignment [member.1] member.2).foldlM Draft.add
        { members := before, header := [] } =
      some { members := before ++ members, header := [] } := by
  induction members generalizing before with
  | nil => simp
  | cons first others ih =>
      have new : before.find? first.1 = none := by
        rw [Members.find?_eq_none_iff]
        simp only [List.map_append, List.map_cons, List.nodup_append] at distinct
        exact fun earlier => distinct.2.2 _ earlier _ List.mem_cons_self rfl
      rw [List.map_cons, List.foldlM_cons, Draft.add_assignment new]
      have later : ((before ++ [first] ++ others).map Prod.fst).Nodup := by simpa using distinct
      simpa using ih later

theorem parse?_printed {members : Members} (distinct : (members.map Prod.fst).Nodup)
    (fit : ∀ member ∈ members, Settings.Fits member.1 member.2) :
    parse? (printed members) = some members := by
  have noMark : ∀ rest, printed members ≠ '\ufeff' :: rest := by
    cases members with
    | nil => simp [printed]
    | cons first others =>
        obtain ⟨key, value⟩ := first
        rw [List.forall_mem_cons] at fit
        intro rest same
        have front := congrArg List.head? same
        cases fit.1 <;> simp [printed, printedLine] at front
  have added := @foldlM_add_assignments [] members distinct
  unfold parse?
  split
  next marked => exact absurd marked (noMark _)
  next => simp [many_printed fit, added, skipBlanks]

end Unbroken.Toml
