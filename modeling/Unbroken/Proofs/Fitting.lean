import Unbroken.Settings
import Unbroken.Proofs.Toml.Proper

/-! Which tables are settings, and which settings they are. What a table says is looked up by key,
so the order of its members does not count. -/

namespace Unbroken

namespace Toml.Members

variable {members others : Members} {key : String} {value : Value}

@[simp] theorem find?_cons (key name : String) (value : Value) (members : Members) :
    find? key ((name, value) :: members) = if key = name then some value else find? key members := by
  rw [find?, List.lookup_cons]
  by_cases same : key = name
  · simp [same]
  · have differ : (key == name) = false := by simpa using same
    rw [differ, if_neg same, find?]

theorem find?_eq_some_iff (distinct : (members.map Prod.fst).Nodup) :
    find? key members = some value ↔ (key, value) ∈ members := by
  induction members with
  | nil => simp [find?]
  | cons first others ih =>
      obtain ⟨name, content⟩ := first
      simp only [List.map_cons, List.nodup_cons] at distinct
      by_cases same : key = name
      · subst same
        have notLater : (key, value) ∉ others := fun later =>
          distinct.1 (List.mem_map.mpr ⟨_, later, rfl⟩)
        simp [notLater, eq_comm]
      · simp [same, ih distinct.2]

theorem find?_perm (distinct : (members.map Prod.fst).Nodup) (perm : members.Perm others)
    (key : String) : find? key members = find? key others := by
  have distinctOthers : (others.map Prod.fst).Nodup := (perm.map Prod.fst).nodup_iff.mp distinct
  ext value
  rw [find?_eq_some_iff distinct, find?_eq_some_iff distinctOthers, perm.mem_iff]

def given {α ε : Type} (read : Value → Except ε α) (key : String) (members : Members) : Option α :=
  (find? key members).bind fun value => (read value).toOption

@[simp] theorem given_nil {α ε : Type} (read : Value → Except ε α) (key : String) :
    given read key [] = none := by
  simp [given, find?]

@[simp] theorem given_cons {α ε : Type} (read : Value → Except ε α) (key name : String)
    (value : Value) (members : Members) : given read key ((name, value) :: members) =
      if key = name then (read value).toOption else given read key members := by
  by_cases same : key = name <;> simp [given, same]

theorem given_eq_none {α ε : Type} (read : Value → Except ε α)
    (absent : key ∉ members.map Prod.fst) : given read key members = none := by
  rw [given, (find?_eq_none_iff key members).mpr absent, Option.bind_none]

end Toml.Members

namespace Settings

/-- The keys that there are, each with what it may be given. -/
inductive Fits : String → Toml.Value → Prop where
  | extension (text : List Char) : Fits "extension" (.string text)
  | exclude (names : List String) : Fits "exclude" (.array (names.map fun name => .string name.toList))
  | maxFileSize {size : Int} (lower : 0 ≤ size) (upper : size < 2 ^ 63) :
    Fits "max_file_size" (.integer size)

def overlaid (settings : Settings) (members : Toml.Members) : Settings :=
  { extension := ((members.given readString "extension").map withoutDots).getD settings.extension
    exclude := (members.given readStrings "exclude").getD settings.exclude
    maxFileSize := (members.given readSize "max_file_size").or settings.maxFileSize }

theorem readString_eq_ok_iff (value : Toml.Value) (text : String) :
    readString value = .ok text ↔ value = .string text.toList := by
  cases value with
  | string letters =>
      simp only [readString, Except.ok.injEq, Toml.Value.string.injEq]
      exact ⟨fun same => by simp [← same], fun same => by simp [same]⟩
  | _ => simp [readString]

theorem mapM_readString_eq_ok_iff (elements : List Toml.Value) (names : List String) :
    elements.mapM readString = .ok names ↔ elements = names.map fun name => .string name.toList := by
  induction elements generalizing names with
  | nil => cases names <;> simp [pure, Except.pure]
  | cons first others ih =>
      simp only [List.mapM_cons, bind_eq_ok_iff, readString_eq_ok_iff, ih, pure, Except.pure,
        Except.ok.injEq, @eq_comm _ (_ :: _), List.map_eq_cons_iff]
      constructor
      · rintro ⟨name, rfl, names, rfl, rfl⟩
        exact ⟨name, names, rfl, rfl, rfl⟩
      · rintro ⟨name, names, rfl, rfl, rfl⟩
        exact ⟨name, rfl, names, rfl, rfl⟩

theorem readStrings_eq_ok_iff {value : Toml.Value} (proper : value.Proper) (names : List String) :
    readStrings value = .ok names ↔ value = .array (names.map fun name => .string name.toList) := by
  cases value with
  | array elements => simp [readStrings, mapM_readString_eq_ok_iff]
  | tables elements =>
      obtain ⟨first, others, rfl⟩ := List.exists_cons_of_ne_nil proper
      simp [readStrings, readString, bind, Except.bind]
  | _ => simp [readStrings]

theorem readSize_eq_ok_iff (value : Toml.Value) (size : Nat) :
    readSize value = .ok size ↔ value = .integer size := by
  cases value with
  | integer number =>
      simp only [readSize, Toml.Value.integer.injEq]
      split <;> simp <;> omega
  | _ => simp [readSize]

theorem setMember_of_fits {key : String} {value : Toml.Value} (fits : Fits key value)
    (settings : Settings) :
    settings.setMember key value = .ok (settings.overlaid [(key, value)]) := by
  cases fits with
  | extension text => rfl
  | exclude names =>
      have read := (mapM_readString_eq_ok_iff _ names).mpr rfl
      simp [setMember, readStrings, read, overlaid, bind, Except.bind, Except.toOption]
  | maxFileSize lower upper =>
      obtain ⟨size, rfl⟩ := Int.eq_ofNat_of_zero_le lower
      have read := (readSize_eq_ok_iff _ size).mpr rfl
      simp [setMember, read, overlaid, bind, Except.bind, Except.toOption]

theorem fits_of_setMember {key : String} {value : Toml.Value} (proper : value.Proper)
    {settings next : Settings} (set : settings.setMember key value = .ok next) : Fits key value := by
  unfold setMember at set
  split at set
  · obtain ⟨text, read, -⟩ := bind_eq_ok_iff.mp set
    obtain rfl := (readString_eq_ok_iff value text).mp read
    exact .extension _
  · obtain ⟨names, read, -⟩ := bind_eq_ok_iff.mp set
    obtain rfl := (readStrings_eq_ok_iff proper names).mp read
    exact .exclude _
  · obtain ⟨size, read, -⟩ := bind_eq_ok_iff.mp set
    obtain rfl := (readSize_eq_ok_iff value size).mp read
    exact .maxFileSize (Int.natCast_nonneg size) proper.2
  · cases set

theorem overlaid_overlaid {key : String} {value : Toml.Value} (fits : Fits key value)
    {members : Toml.Members} (absent : key ∉ members.map Prod.fst) (settings : Settings) :
    (settings.overlaid [(key, value)]).overlaid members =
      settings.overlaid ((key, value) :: members) := by
  cases fits <;> simp [overlaid, Toml.Members.given_eq_none _ absent]

theorem foldlM_setMember_of_fits {members : Toml.Members}
    (distinct : (members.map Prod.fst).Nodup) (fit : ∀ member ∈ members, Fits member.1 member.2)
    (settings : Settings) :
    members.foldlM (fun settings (key, value) => settings.setMember key value) settings =
      .ok (settings.overlaid members) := by
  induction members generalizing settings with
  | nil => rfl
  | cons first others ih =>
      obtain ⟨key, value⟩ := first
      rw [List.map_cons, List.nodup_cons] at distinct
      rw [List.forall_mem_cons] at fit
      simp only [List.foldlM_cons, setMember_of_fits fit.1]
      rw [← overlaid_overlaid fit.1 distinct.1]
      exact ih distinct.2 fit.2 _

theorem fits_of_foldlM_setMember {members : Toml.Members}
    (proper : ∀ member ∈ members, member.2.Proper) {settings result : Settings}
    (set : members.foldlM (fun settings (key, value) => settings.setMember key value) settings =
      .ok result) : ∀ member ∈ members, Fits member.1 member.2 := by
  induction members generalizing settings with
  | nil => simp
  | cons first others ih =>
      rw [List.forall_mem_cons] at proper ⊢
      rw [List.foldlM_cons] at set
      obtain ⟨next, setFirst, setOthers⟩ := bind_eq_ok_iff.mp set
      exact ⟨fits_of_setMember proper.1 setFirst, ih proper.2 setOthers⟩

theorem ofMembers_eq_ok_iff {members : Toml.Members} (proper : members.Proper) (settings : Settings) :
    ofMembers members = .ok settings ↔
      (∀ member ∈ members, Fits member.1 member.2) ∧ settings = usual.overlaid members := by
  constructor
  · intro read
    have fit := fits_of_foldlM_setMember proper.values read
    rw [ofMembers, foldlM_setMember_of_fits proper.distinct fit] at read
    exact ⟨fit, (Except.ok.inj read).symm⟩
  · rintro ⟨fit, rfl⟩
    exact foldlM_setMember_of_fits proper.distinct fit usual

theorem overlaid_perm {members others : Toml.Members} (distinct : (members.map Prod.fst).Nodup)
    (perm : members.Perm others) (settings : Settings) :
    settings.overlaid members = settings.overlaid others := by
  simp only [overlaid, Toml.Members.given, Toml.Members.find?_perm distinct perm]

end Settings

end Unbroken
