/-! The two quotes that may enclose a message, and the markers around it: `_("` and `")`, or `_('`
and `')`. -/

namespace Unbroken

inductive Quote where
  | double
  | single
  deriving DecidableEq, Repr

namespace Quote

def ofChar? : Char → Option Quote
  | '"' => some double
  | '\'' => some single
  | _ => none

def char : Quote → Char
  | double => '"'
  | single => '\''

def name : Quote → String
  | double => "double"
  | single => "single"

def opener (quote : Quote) : List Char :=
  ['_', '(', quote.char]

def closer (quote : Quote) : List Char :=
  [quote.char, ')']

theorem ofChar?_eq_some_iff (letter : Char) (quote : Quote) :
    ofChar? letter = some quote ↔ letter = quote.char := by
  constructor
  · intro found
    unfold ofChar? at found
    split at found
    · cases found; rfl
    · cases found; rfl
    · cases found
  · rintro rfl
    cases quote <;> rfl

theorem eq_of_char_eq {quote other : Quote} (same : quote.char = other.char) : quote = other := by
  have read := (ofChar?_eq_some_iff quote.char quote).mpr rfl
  exact Option.some.inj (read.symm.trans ((ofChar?_eq_some_iff _ other).mpr same))

theorem bracket_ne_char (quote : Quote) : ')' ≠ quote.char := by
  cases quote <;> decide

end Quote

end Unbroken
