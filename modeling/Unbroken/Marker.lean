import Unbroken.Quote

/-! The opening marker that decides how a line is read: the leftmost one, whatever its quote. -/

namespace Unbroken

/-- An opening marker in a line: what stands before it, its quote, and what stands after it. -/
structure Marker where
  before : List Char
  quote : Quote
  tail : List Char
  deriving DecidableEq, Repr

namespace Marker

def atStart? : List Char → Option (Quote × List Char)
  | '_' :: '(' :: letter :: tail => (Quote.ofChar? letter).map fun quote => (quote, tail)
  | _ => none

def leftmost? : List Char → Option Marker
  | [] => none
  | letter :: rest =>
    match atStart? (letter :: rest) with
    | some (quote, tail) => some { before := [], quote := quote, tail := tail }
    | none => (leftmost? rest).map fun marker => { marker with before := letter :: marker.before }

theorem append_of_leftmost? {line : List Char} {marker : Marker}
    (found : leftmost? line = some marker) :
    line = marker.before ++ marker.quote.opener ++ marker.tail := by
  induction line generalizing marker with
  | nil => simp [leftmost?] at found
  | cons letter rest ih =>
      rw [leftmost?] at found
      split at found
      next quote tail here =>
        cases found
        unfold atStart? at here
        split at here
        next starts =>
          obtain ⟨same, known, pair⟩ := Option.map_eq_some_iff.mp here
          obtain ⟨rfl, rfl⟩ := Prod.mk.inj pair
          simp [starts, Quote.opener, (Quote.ofChar?_eq_some_iff _ _).mp known]
        next => cases here
      next =>
        obtain ⟨later, known, rfl⟩ := Option.map_eq_some_iff.mp found
        simp [ih known]

end Marker

end Unbroken
