import Unbroken.Proofs.Gap

/-! Mending with all accesses guarded. Lines are looked up, cut, replaced and dropped by positions, and
each position is checked against what is there by then. No line numbers and no messages make a check
fail, so that a mend of any breaks ends, and with the same result. -/

namespace Unbroken

namespace Guarded

/-- An access outside of what is there. -/
inductive Fault where
  | zero
  | index (place size : Nat)
  | range (start stop size : Nat)
  deriving DecidableEq, Repr

variable {α : Type}

def position (number : Nat) : Except Fault Nat :=
  if number = 0 then .error .zero else .ok (number - 1)

def get (items : List α) (place : Nat) : Except Fault α :=
  match items[place]? with
  | some item => .ok item
  | none => .error (.index place items.length)

def slice (items : List α) (start stop : Nat) : Except Fault (List α) :=
  if start ≤ stop ∧ stop ≤ items.length then .ok ((items.take stop).drop start)
  else .error (.range start stop items.length)

def replace (items : List α) (place : Nat) (item : α) : Except Fault (List α) :=
  if place < items.length then .ok (items.set place item) else .error (.index place items.length)

def drain (items : List α) (start stop : Nat) : Except Fault (List α) :=
  if start ≤ stop ∧ stop ≤ items.length then .ok (items.take start ++ items.drop stop)
  else .error (.range start stop items.length)

def find? (pattern text : List Char) : Option Nat :=
  (cut pattern text).map fun (before, _) => before.length

def unite (broken : Break) (lines : List (List Char)) : Except Fault (Option (List (List Char))) :=
  if broken.firstLine = 0 ∨ broken.lastLine < broken.firstLine then .ok none
  else do
    let start ← position broken.firstLine
    let stop ← position broken.lastLine
    if lines.length ≤ start ∨ lines.length ≤ stop then .ok none
    else do
      let first ← get lines start
      match find? broken.quote.opener first with
      | none => .ok none
      | some opens => do
        let last ← get lines stop
        match find? broken.quote.closer last with
        | none => .ok none
        | some closes => do
          let before ← slice first 0 opens
          let after ← slice last (closes + broken.quote.closer.length) last.length
          let united := before ++ broken.quote.opener ++ broken.text ++ broken.quote.closer ++ after
          let replaced ← replace lines start united
          let drained ← drain replaced (start + 1) (stop + 1)
          .ok (some drained)

def step (mended : Mended) (broken : Break) : Except Fault Mended := do
  match ← unite broken mended.template.lines with
  | some lines => .ok { template := ⟨lines⟩, count := mended.count + 1 }
  | none => .ok mended

def mend (template : Template) (breaks : List Break) : Except Fault Mended :=
  (bottomUp breaks).foldlM step { template := template, count := 0 }

/-! No access fails. -/

theorem ok_bind {α β : Type} (value : α) (next : α → Except Fault β) :
    (Except.ok value >>= next) = next value :=
  rfl

theorem get_of_getElem? {items : List α} {place : Nat} {item : α} (found : items[place]? = some item) :
    get items place = .ok item := by
  rw [get, found]

theorem slice_of_le {items : List α} {start stop : Nat} (ordered : start ≤ stop)
    (inside : stop ≤ items.length) : slice items start stop = .ok ((items.take stop).drop start) := by
  rw [slice, if_pos ⟨ordered, inside⟩]

theorem find?_of_cut {pattern text before after : List Char}
    (found : cut pattern text = some (before, after)) : find? pattern text = some before.length := by
  rw [find?, found]
  rfl

theorem slice_before {pattern text before after : List Char}
    (found : cut pattern text = some (before, after)) : slice text 0 before.length = .ok before := by
  have parts := cut_append found
  rw [slice_of_le (Nat.zero_le _) (by simp [parts]), parts, List.append_assoc, List.take_left,
    List.drop_zero]

theorem slice_after {pattern text before after : List Char}
    (found : cut pattern text = some (before, after)) :
    slice text (before.length + pattern.length) text.length = .ok after := by
  have parts := cut_append found
  rw [slice_of_le (by simp [parts]) (Nat.le_refl _), List.take_length, parts, ← List.length_append,
    List.drop_left]

theorem replace_drain {items : List α} {start stop : Nat} (ordered : start < stop)
    (inside : stop ≤ items.length) (item : α) :
    (replace items start item >>= fun replaced => drain replaced (start + 1) stop) =
      .ok (items.take start ++ item :: items.drop stop) := by
  have replaced : replace items start item = .ok (items.set start item) :=
    if_pos (Nat.lt_of_lt_of_le ordered inside)
  have front : (items.set start item).take (start + 1) = items.take start ++ [item] := by
    rw [List.take_succ_eq_append_getElem (by rw [List.length_set]; omega), List.getElem_set_self,
      List.take_set_of_le (Nat.le_refl _)]
  have behind : (items.set start item).drop stop = items.drop stop :=
    List.drop_set_of_lt ordered
  have bounds : start + 1 ≤ stop ∧ stop ≤ (items.set start item).length := by
    rw [List.length_set]
    exact ⟨ordered, inside⟩
  rw [replaced, ok_bind, drain, if_pos bounds, front, behind, List.append_assoc, List.singleton_append]

theorem unite_eq (broken : Break) (lines : List (List Char)) :
    unite broken lines = .ok (unite? broken lines) := by
  by_cases invalid : broken.firstLine = 0 ∨ broken.lastLine < broken.firstLine
  · rw [unite, unite?, if_pos invalid, if_pos invalid]
  · have start : position broken.firstLine = .ok (broken.firstLine - 1) := if_neg (by omega)
    have stop : position broken.lastLine = .ok (broken.lastLine - 1) := if_neg (by omega)
    have below : broken.lastLine - 1 + 1 = broken.lastLine := by omega
    rw [unite, unite?, if_neg invalid, if_neg invalid, start, ok_bind, stop, ok_bind]
    by_cases outside : lines.length ≤ broken.firstLine - 1 ∨ lines.length ≤ broken.lastLine - 1
    · rw [if_pos outside]
      rcases outside with outside | outside
      · rw [List.getElem?_eq_none outside]
        rfl
      · rw [List.getElem?_eq_none outside]
        cases lines[broken.firstLine - 1]? <;> rfl
    · obtain ⟨firstInside, lastInside⟩ : broken.firstLine - 1 < lines.length ∧
          broken.lastLine - 1 < lines.length := by omega
      have atFirst := List.getElem?_eq_getElem firstInside
      have atLast := List.getElem?_eq_getElem lastInside
      rw [if_neg outside, get_of_getElem? atFirst, atFirst, atLast, ok_bind]
      cases opens : cut broken.quote.opener lines[broken.firstLine - 1] with
      | none => simp [find?, opens]
      | some opening =>
          rw [find?_of_cut opens, get_of_getElem? atLast]
          simp only [ok_bind, Option.bind_eq_bind, Option.bind_some, opens]
          cases closes : cut broken.quote.closer lines[broken.lastLine - 1] with
          | none => simp [find?, closes]
          | some closing =>
              have ordered : broken.firstLine - 1 < broken.lastLine := by omega
              have inside : broken.lastLine ≤ lines.length := by omega
              rw [find?_of_cut closes]
              simp only [slice_before opens, slice_after closes, ok_bind, Option.bind_some, below,
                ← bind_assoc, replace_drain ordered inside]

theorem step_eq (mended : Mended) (broken : Break) : step mended broken = .ok (mended.step broken) := by
  rw [step, unite_eq, Mended.step]
  cases unite? broken mended.template.lines <;> rfl

theorem mend_eq (template : Template) (breaks : List Break) :
    mend template breaks = .ok (Unbroken.mend template breaks) := by
  rw [mend, Unbroken.mend]
  generalize Mended.mk template 0 = mended
  induction bottomUp breaks generalizing mended with
  | nil => rfl
  | cons broken later ih =>
      rw [List.foldlM_cons, step_eq, List.foldl_cons]
      exact ih _

end Guarded

end Unbroken
