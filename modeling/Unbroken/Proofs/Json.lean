import Unbroken.Toml.Text

/-! The texts of JSON. A text is cut into tokens, with gaps between them, and a value is written as
the list of its tokens. Neither step leaves a choice, so a text is the text of one value at most. -/

namespace Unbroken

inductive Json.Atom where
  | null
  | truth (value : Bool)
  | number (literal : List Char)
  | string (content : List Char)

inductive Json where
  | atom (value : Json.Atom)
  | array (items : List Json)
  | object (members : List (List Char × Json))

namespace Json

inductive Token where
  | atom (value : Atom)
  | openArray
  | closeArray
  | openObject
  | closeObject
  | comma
  | colon

def codeUnit : Toml.Reader Nat := fun text => do
  let digits := text.take 4
  let code ← Toml.numeral? 16 digits
  if digits.length = 4 then some (code, text.drop 4) else none

def lowSurrogate (high : Nat) : Toml.Reader Char
  | '\\' :: 'u' :: rest => do
    let (low, rest) ← codeUnit rest
    if 0xDC00 ≤ low ∧ low ≤ 0xDFFF then
      some (Char.ofNat (0x10000 + (high - 0xD800) * 0x400 + (low - 0xDC00)), rest)
    else none
  | _ => none

def escape : Toml.Reader Char
  | '"' :: rest => some ('"', rest)
  | '\\' :: rest => some ('\\', rest)
  | '/' :: rest => some ('/', rest)
  | 'b' :: rest => some ('\x08', rest)
  | 'f' :: rest => some ('\x0C', rest)
  | 'n' :: rest => some ('\n', rest)
  | 'r' :: rest => some ('\r', rest)
  | 't' :: rest => some ('\t', rest)
  | 'u' :: rest => do
    let (code, rest) ← codeUnit rest
    if 0xD800 ≤ code ∧ code < 0xDC00 then lowSurrogate code rest
    else if code.isValidChar then some (Char.ofNat code, rest)
    else none
  | _ => none

def letter : Toml.Reader Char
  | '\\' :: rest => escape rest
  | letter :: rest => if letter = '"' ∨ letter.toNat < 0x20 then none else some (letter, rest)
  | [] => none

def digits : Toml.Reader (List Char) := fun text =>
  let run := text.takeWhile Char.isDigit
  if run.isEmpty then none else some (run, text.drop run.length)

def whole : Toml.Reader (List Char)
  | '0' :: rest => some (['0'], rest)
  | text => digits text

def fraction : Toml.Reader (List Char)
  | '.' :: rest => (digits rest).map fun (run, rest) => ('.' :: run, rest)
  | text => some ([], text)

def power : Toml.Reader (List Char)
  | letter :: rest =>
    if letter = 'e' ∨ letter = 'E' then do
      let (sign, unsigned) := match rest with
        | '+' :: rest => (['+'], rest)
        | '-' :: rest => (['-'], rest)
        | _ => ([], rest)
      let (run, rest) ← digits unsigned
      some (letter :: sign ++ run, rest)
    else some ([], letter :: rest)
  | [] => some ([], [])

def number : Toml.Reader (List Char) := fun text => do
  let (sign, unsigned) := match text with
    | '-' :: rest => (['-'], rest)
    | _ => ([], text)
  let (run, rest) ← whole unsigned
  let (places, rest) ← fraction rest
  let (exponent, rest) ← power rest
  some (sign ++ run ++ places ++ exponent, rest)

def token : Toml.Reader Token
  | '[' :: rest => some (.openArray, rest)
  | ']' :: rest => some (.closeArray, rest)
  | '\x7b' :: rest => some (.openObject, rest)
  | '\x7d' :: rest => some (.closeObject, rest)
  | ',' :: rest => some (.comma, rest)
  | ':' :: rest => some (.colon, rest)
  | '"' :: rest =>
    (Toml.singleLine '"' letter rest).map fun (content, rest) => (.atom (.string content), rest)
  | text =>
    (((Toml.Reader.word "null" (.atom .null) text).or
      (Toml.Reader.word "true" (.atom (.truth true)) text)).or
      (Toml.Reader.word "false" (.atom (.truth false)) text)).or
      ((number text).map fun (literal, rest) => (.atom (.number literal), rest))

def isGap (letter : Char) : Bool :=
  letter == ' ' || letter == '\t' || letter == '\n' || letter == '\r'

/-- The text consists of these tokens. -/
inductive Spells : List Char → List Token → Prop where
  | done : Spells [] []
  | gap {letter : Char} {text : List Char} {tokens : List Token} (isGap : isGap letter = true) :
    Spells text tokens → Spells (letter :: text) tokens
  | token {text rest : List Char} {first : Token} {tokens : List Token}
    (read : token text = some (first, rest)) : Spells rest tokens → Spells text (first :: tokens)

theorem token_gap {letter : Char} (isGap : isGap letter = true) (text : List Char) :
    token (letter :: text) = none := by
  simp only [Json.isGap, Bool.or_eq_true, beq_iff_eq] at isGap
  obtain ((rfl | rfl) | rfl) | rfl := isGap <;> rfl

theorem Spells.unique {text : List Char} {left right : List Token} (first : Spells text left)
    (second : Spells text right) : left = right := by
  induction first generalizing right with
  | done =>
      cases second with
      | done => rfl
      | token read => cases read
  | gap isGap _ ih =>
      cases second with
      | gap _ rest => exact ih rest
      | token read => simp [token_gap isGap] at read
  | token read _ ih =>
      cases second with
      | done => cases read
      | gap isGap _ => simp [token_gap isGap] at read
      | token again rest =>
          obtain ⟨rfl, rfl⟩ := Prod.mk.inj (Option.some.inj (read.symm.trans again))
          rw [ih rest]

mutual

def tokens : Json → List Token
  | .atom value => [.atom value]
  | .array items => .openArray :: itemTokens items
  | .object members => .openObject :: memberTokens members

def itemTokens : List Json → List Token
  | [] => [.closeArray]
  | item :: others => tokens item ++ laterItemTokens others

def laterItemTokens : List Json → List Token
  | [] => [.closeArray]
  | item :: others => .comma :: tokens item ++ laterItemTokens others

def memberTokens : List (List Char × Json) → List Token
  | [] => [.closeObject]
  | (key, value) :: others =>
    .atom (.string key) :: .colon :: tokens value ++ laterMemberTokens others

def laterMemberTokens : List (List Char × Json) → List Token
  | [] => [.closeObject]
  | (key, value) :: others =>
    .comma :: .atom (.string key) :: .colon :: tokens value ++ laterMemberTokens others

end

theorem tokens_append_ne_closeArray (value : Json) (behind others : List Token) :
    value.tokens ++ behind ≠ .closeArray :: others := by
  cases value <;> simp [tokens]

mutual

/-- A value is known from its tokens, whatever stands behind them. -/
theorem tokens_append_inj (left right : Json) {behind others : List Token}
    (same : left.tokens ++ behind = right.tokens ++ others) : left = right ∧ behind = others := by
  match left, right with
  | .atom _, .atom _ => simpa [tokens] using same
  | .array items, .array items' =>
      obtain ⟨rfl, rest⟩ := itemTokens_append_inj items items' (List.cons.inj same).2
      exact ⟨rfl, rest⟩
  | .object members, .object members' =>
      obtain ⟨rfl, rest⟩ := memberTokens_append_inj members members' (List.cons.inj same).2
      exact ⟨rfl, rest⟩
  | .atom _, .array _ | .atom _, .object _ | .array _, .atom _ | .array _, .object _
  | .object _, .atom _ | .object _, .array _ => simp [tokens] at same

theorem itemTokens_append_inj (left right : List Json) {behind others : List Token}
    (same : itemTokens left ++ behind = itemTokens right ++ others) :
    left = right ∧ behind = others := by
  match left, right with
  | [], [] => simpa [itemTokens] using same
  | [], item :: _ =>
      simp only [itemTokens, List.append_assoc] at same
      exact absurd same.symm (tokens_append_ne_closeArray item _ _)
  | item :: _, [] =>
      simp only [itemTokens, List.append_assoc] at same
      exact absurd same (tokens_append_ne_closeArray item _ _)
  | item :: later, item' :: later' =>
      simp only [itemTokens, List.append_assoc] at same
      obtain ⟨rfl, behindItem⟩ := tokens_append_inj item item' same
      obtain ⟨rfl, rest⟩ := laterItemTokens_append_inj later later' behindItem
      exact ⟨rfl, rest⟩

theorem laterItemTokens_append_inj (left right : List Json) {behind others : List Token}
    (same : laterItemTokens left ++ behind = laterItemTokens right ++ others) :
    left = right ∧ behind = others := by
  match left, right with
  | [], [] => simpa [laterItemTokens] using same
  | item :: later, item' :: later' =>
      simp only [laterItemTokens, List.cons_append, List.append_assoc, List.cons.injEq,
        true_and] at same
      obtain ⟨rfl, behindItem⟩ := tokens_append_inj item item' same
      obtain ⟨rfl, rest⟩ := laterItemTokens_append_inj later later' behindItem
      exact ⟨rfl, rest⟩
  | [], _ :: _ | _ :: _, [] => simp [laterItemTokens] at same

theorem memberTokens_append_inj (left right : List (List Char × Json))
    {behind others : List Token}
    (same : memberTokens left ++ behind = memberTokens right ++ others) :
    left = right ∧ behind = others := by
  match left, right with
  | [], [] => simpa [memberTokens] using same
  | (key, value) :: later, (key', value') :: later' =>
      simp only [memberTokens, List.cons_append, List.append_assoc, List.cons.injEq,
        Token.atom.injEq, Atom.string.injEq, true_and] at same
      obtain ⟨rfl, behindKey⟩ := same
      obtain ⟨rfl, behindValue⟩ := tokens_append_inj value value' behindKey
      obtain ⟨rfl, rest⟩ := laterMemberTokens_append_inj later later' behindValue
      exact ⟨rfl, rest⟩
  | [], _ :: _ | _ :: _, [] => simp [memberTokens] at same

theorem laterMemberTokens_append_inj (left right : List (List Char × Json))
    {behind others : List Token}
    (same : laterMemberTokens left ++ behind = laterMemberTokens right ++ others) :
    left = right ∧ behind = others := by
  match left, right with
  | [], [] => simpa [laterMemberTokens] using same
  | (key, value) :: later, (key', value') :: later' =>
      simp only [laterMemberTokens, List.cons_append, List.append_assoc, List.cons.injEq,
        Token.atom.injEq, Atom.string.injEq, true_and] at same
      obtain ⟨rfl, behindKey⟩ := same
      obtain ⟨rfl, behindValue⟩ := tokens_append_inj value value' behindKey
      obtain ⟨rfl, rest⟩ := laterMemberTokens_append_inj later later' behindValue
      exact ⟨rfl, rest⟩
  | [], _ :: _ | _ :: _, [] => simp [laterMemberTokens] at same

end

/-- The text is valid, and this is its value. -/
def IsText (text : List Char) (value : Json) : Prop :=
  Spells text value.tokens

theorem IsText.unique {text : List Char} {left right : Json} (first : IsText text left)
    (second : IsText text right) : left = right := by
  have same : left.tokens ++ [] = right.tokens ++ [] := by rw [Spells.unique first second]
  exact (tokens_append_inj left right same).1

end Json

end Unbroken
