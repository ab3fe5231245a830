import Mathlib.Algebra.Group.Int.Defs
import Mathlib.Algebra.Group.Nat.Defs
import Mathlib.Data.List.Nodup
import Unbroken.Toml.Document
import Unbroken.Proofs.Toml.Reader

/-! What every table of a document is like: no key stands twice, whole numbers have 64 bits, and an
array of tables has an element. -/

namespace Unbroken.Toml

def Value.Proper : Value → Prop
  | .integer value => -2 ^ 63 ≤ value ∧ value < 2 ^ 63
  | .tables elements => elements ≠ []
  | _ => True

namespace Members

structure Proper (members : Members) : Prop where
  distinct : (members.map Prod.fst).Nodup
  values : ∀ member ∈ members, member.2.Proper

theorem find?_eq_none_iff (key : String) (members : Members) :
    find? key members = none ↔ key ∉ members.map Prod.fst := by
  simp only [find?, List.lookup_eq_none_iff, bne_iff_ne, List.mem_map, not_exists, not_and]
  exact forall₂_congr fun _ _ => ne_comm

theorem Proper.nil : Proper [] :=
  ⟨List.nodup_nil, by simp⟩

variable {members : Members} {key : String} {value : Value}

theorem nodup_append_new (distinct : (members.map Prod.fst).Nodup)
    (new : find? key members = none) : ((members ++ [(key, value)]).map Prod.fst).Nodup := by
  rw [List.map_append, List.map_singleton, ← List.concat_eq_append]
  exact distinct.concat ((find?_eq_none_iff key members).mp new)

theorem nodup_remove (distinct : (members.map Prod.fst).Nodup) :
    ((members.remove key).map Prod.fst).Nodup :=
  distinct.sublist (List.filter_sublist.map _)

theorem Proper.append (proper : members.Proper) (new : find? key members = none)
    (valueProper : value.Proper) : Proper (members ++ [(key, value)]) := by
  refine ⟨nodup_append_new proper.distinct new, ?_⟩
  simp only [List.mem_append, List.mem_singleton]
  rintro member (old | rfl)
  · exact proper.values member old
  · exact valueProper

theorem Proper.set (proper : members.Proper) (valueProper : value.Proper) :
    (members.set key value).Proper := by
  refine ⟨?_, ?_⟩
  · have keys : (members.set key value).map Prod.fst = members.map Prod.fst := by
      rw [Members.set, List.map_map]
      refine List.map_congr_left fun member _ => ?_
      simp only [Function.comp_apply]
      split
      next same => exact same.symm
      next => rfl
    exact keys ▸ proper.distinct
  · simp only [Members.set, List.mem_map]
    rintro _ ⟨member, old, rfl⟩
    split
    · exact valueProper
    · exact proper.values member old

theorem Proper.remove (proper : members.Proper) : (members.remove key).Proper :=
  ⟨nodup_remove proper.distinct,
    fun member kept => proper.values member (List.mem_of_mem_filter kept)⟩

theorem find?_remove (key : String) (members : Members) : find? key (members.remove key) = none := by
  simp [find?_eq_none_iff, Members.remove]

theorem Proper.perm {others : Members} (proper : members.Proper) (perm : members.Perm others) :
    others.Proper :=
  ⟨(perm.map Prod.fst).nodup_iff.mp proper.distinct,
    fun member present => proper.values member (perm.mem_iff.mpr present)⟩

/-- Only the table at the end of the path is at the mercy of the change. -/
theorem update_proper {isDotted : Bool} {change : Origin → Members → Option Members}
    {path : List String} {origin : Origin} {result : Members} (proper : members.Proper)
    (changed : ∀ result, change origin members = some result → result.Proper)
    (updated : update isDotted change path origin members = some result) : result.Proper := by
  cases path with
  | nil => exact changed result updated
  | cons key path =>
      rw [update] at updated
      split at updated
      case h_1 new =>
        simp only [Option.bind_eq_bind, Option.bind_eq_some_iff, Option.some.injEq] at updated
        obtain ⟨inner, -, rfl⟩ := updated
        exact proper.append new trivial
      case h_2 =>
        split at updated
        · cases updated
        · simp only [Option.bind_eq_bind, Option.bind_eq_some_iff, Option.some.injEq] at updated
          obtain ⟨inner, -, rfl⟩ := updated
          exact proper.set trivial
      case h_3 =>
        simp only [Option.bind_eq_bind, Option.bind_eq_some_iff, Option.some.injEq] at updated
        obtain ⟨_, -, last, -, rfl⟩ := updated
        refine proper.set ?_
        simp [Value.Proper]
      case h_4 => cases updated

theorem assign_proper {path : List String} {origin : Origin} {result : Members}
    (proper : members.Proper) (valueProper : value.Proper)
    (assigned : assign path key value origin members = some result) : result.Proper := by
  refine update_proper proper (fun result changed => ?_) assigned
  split at changed
  · cases changed
  next fresh =>
    cases changed
    simp only [not_or, Option.not_isSome_iff_eq_none] at fresh
    exact proper.append fresh.2 valueProper

theorem openTable_proper {path : List String} {result : Members} (proper : members.Proper)
    (opened : openTable path key members = some result) : result.Proper := by
  refine update_proper proper (fun result changed => ?_) opened
  split at changed
  case h_1 new =>
    cases changed
    exact proper.append new trivial
  case h_2 =>
    cases changed
    exact proper.remove.append (find?_remove key members) trivial
  case h_3 => cases changed

theorem openElement_proper {path : List String} {result : Members} (proper : members.Proper)
    (opened : openElement path key members = some result) : result.Proper := by
  refine update_proper proper (fun result changed => ?_) opened
  split at changed
  case h_1 new =>
    cases changed
    exact proper.append new (by simp [Value.Proper])
  case h_2 =>
    cases changed
    exact proper.set (by simp [Value.Proper])
  case h_3 => cases changed

end Members

variable {text rest : List Char}

theorem wholeNumber?_proper {number : Int} {result : Value}
    (read : wholeNumber? number = some result) : result.Proper := by
  unfold wholeNumber? at read
  split at read
  next bounds =>
    cases read
    exact bounds
  next => cases read

theorem floatingPoint?_proper {negative : Bool} {decimal : Decimal} {result : Value}
    (read : floatingPoint? negative decimal = some result) : result.Proper := by
  unfold floatingPoint? at read
  split at read
  · cases read
  · cases read
    trivial

theorem decimalNumber_proper {negative : Bool} {result : Value}
    (read : decimalNumber negative text = some (result, rest)) : result.Proper := by
  simp only [decimalNumber, Option.bind_eq_bind, Option.bind_eq_some_iff] at read
  obtain ⟨_, -, _, -, _, -, digits, -, read⟩ := read
  split at read
  all_goals
    obtain ⟨value, made, same⟩ := Option.bind_eq_some_iff.mp read
    cases same
  · exact wholeNumber?_proper made
  · exact floatingPoint?_proper made

theorem basedNumber_proper {result : Value} (read : basedNumber text = some (result, rest)) :
    result.Proper := by
  unfold basedNumber at read
  split at read
  · split at read
    all_goals
      simp only [Option.bind_eq_bind, Option.bind_eq_some_iff] at read
      obtain ⟨_, -, _, -, _, -, value, read, same⟩ := read
      cases same
      exact wholeNumber?_proper read
  · cases read

theorem word_eq_some {α : Type} {expected : String} {value result : α}
    (read : Reader.word expected value text = some (result, rest)) : result = value := by
  unfold Reader.word at read
  split at read
  next =>
    cases read
    rfl
  next => cases read

theorem number_proper {result : Value} (read : number text = some (result, rest)) :
    result.Proper := by
  simp only [number, Option.or_eq_some_iff] at read
  obtain (read | ⟨-, read⟩) | ⟨-, read⟩ := read
  · exact basedNumber_proper read
  · exact decimalNumber_proper read
  · simp only [specialFloat, Option.or_eq_some_iff] at read
    obtain read | ⟨-, read⟩ := read <;> simp [word_eq_some read, Value.Proper]

theorem value_proper {depth : Nat} {result : Value}
    (read : Toml.value depth text = some (result, rest)) : result.Proper := by
  unfold Toml.value at read
  split at read
  case h_3 =>
    simp only [Option.or_eq_some_iff] at read
    obtain ((read | ⟨-, read⟩) | ⟨-, read⟩) | ⟨-, read⟩ := read
    · obtain ⟨_, -, same⟩ := Option.map_eq_some_iff.mp read
      cases same
      trivial
    · simp only [boolean, Option.or_eq_some_iff] at read
      obtain read | ⟨-, read⟩ := read <;> simp [word_eq_some read, Value.Proper]
    · simp only [dateTime, Option.bind_eq_bind, Option.bind_eq_some_iff] at read
      obtain ⟨_, -, same⟩ := read
      cases same
      trivial
    · exact number_proper read
  all_goals
    split at read
    · cases read
    · obtain ⟨_, -, same⟩ := Option.map_eq_some_iff.mp read
      cases same
      trivial

def Statement.Proper : Statement → Prop
  | .assignment _ value => value.Proper
  | _ => True

theorem statement_proper {result : Statement} (read : statement text = some (result, rest)) :
    result.Proper := by
  unfold statement at read
  split at read
  case h_1 => cases read
  case h_4 =>
    split at read
    · obtain ⟨_, -, same⟩ := Option.map_eq_some_iff.mp read
      cases same
      trivial
    · simp only [pair, Option.bind_eq_bind, Option.bind_eq_some_iff] at read
      obtain ⟨_, ⟨_, -, _, -, _, value, same⟩, _, -, made⟩ := read
      cases same
      cases made
      exact value_proper value
  all_goals
    obtain ⟨_, -, same⟩ := Option.map_eq_some_iff.mp read
    cases same
    trivial

theorem Draft.add_proper {draft result : Draft} {statement : Statement}
    (proper : draft.members.Proper) (statementProper : statement.Proper)
    (added : draft.add statement = some result) : result.members.Proper := by
  cases statement with
  | blank =>
      cases added
      exact proper
  | tableHeader path =>
      simp only [Draft.add, Option.bind_eq_bind, Option.bind_eq_some_iff] at added
      obtain ⟨_, -, members, opened, same⟩ := added
      cases same
      exact Members.openTable_proper proper opened
  | elementHeader path =>
      simp only [Draft.add, Option.bind_eq_bind, Option.bind_eq_some_iff] at added
      obtain ⟨_, -, members, opened, same⟩ := added
      cases same
      exact Members.openElement_proper proper opened
  | assignment path value =>
      simp only [Draft.add, Option.bind_eq_bind, Option.bind_eq_some_iff] at added
      obtain ⟨_, -, members, updated, same⟩ := added
      cases same
      exact Members.update_proper proper
        (fun _ => Members.assign_proper proper statementProper) updated

theorem foldlM_add_proper (statements : List Statement)
    (statementsProper : ∀ statement ∈ statements, statement.Proper) {draft result : Draft}
    (proper : draft.members.Proper) (added : statements.foldlM Draft.add draft = some result) :
    result.members.Proper := by
  induction statements generalizing draft with
  | nil =>
      cases added
      exact proper
  | cons first others ih =>
      rw [List.foldlM_cons, Option.bind_eq_bind, Option.bind_eq_some_iff] at added
      obtain ⟨next, addedFirst, addedOthers⟩ := added
      rw [List.forall_mem_cons] at statementsProper
      exact ih statementsProper.2 (Draft.add_proper proper statementsProper.1 addedFirst) addedOthers

theorem parse?_proper {members : Members} (parsed : parse? text = some members) :
    members.Proper := by
  simp only [parse?] at parsed
  split at parsed <;> split at parsed
  case isTrue | isTrue =>
    obtain ⟨draft, added, rfl⟩ := Option.map_eq_some_iff.mp parsed
    exact foldlM_add_proper _ (Reader.many_forall (fun _ _ _ => statement_proper) _) Members.Proper.nil added
  all_goals cases parsed

end Unbroken.Toml
