import Unbroken.Proofs.FileSystem.Walk

/-! The order of paths, and the paths of what lies below a directory. -/

namespace Unbroken

namespace Component

instance : Std.TransOrd Component :=
  inferInstanceAs (Std.TransCmp (compareLex (compareOn rank) (compareOn text)))

instance : Std.LawfulEqOrd Component where
  eq_of_compare {left right} equal := by
    change (compare left.rank right.rank).then (compare left.text right.text) = .eq at equal
    obtain ⟨ranks, texts⟩ := Ordering.then_eq_eq.mp equal
    have sameRank := Std.LawfulEqOrd.eq_of_compare ranks
    have sameText := Std.LawfulEqOrd.eq_of_compare texts
    cases left <;> cases right <;> simp_all [rank, text]

end Component

namespace Path

instance : Std.TransCmp order :=
  inferInstanceAs (Std.TransCmp (compareOn components))

theorem order_eq_iff (left right : Path) : order left right = .eq ↔ left.components = right.components :=
  Std.LawfulEqOrd.compare_eq_iff_eq

theorem same_iff (left right : Path) : left.same right = true ↔ left.components = right.components :=
  beq_iff_eq

theorem order_swap (left right : Path) : order left right = (order right left).swap :=
  Std.OrientedCmp.eq_swap

theorem precedes_trans {first second third : Path} (left : first.precedes second)
    (right : second.precedes third) : first.precedes third :=
  Std.TransCmp.isLE_trans left right

theorem precedes_total (left right : Path) : (left.precedes right || right.precedes left) = true := by
  rw [precedes, precedes, order_swap right left]
  cases order left right <;> rfl

theorem order_lt_of_precedes {left right : Path} (ordered : left.precedes right)
    (differ : left.components ≠ right.components) : order left right = .lt := by
  have unequal := mt (order_eq_iff left right).mp differ
  rw [precedes] at ordered
  cases found : order left right with
  | lt => rfl
  | eq => exact absurd found unequal
  | gt => simp [found] at ordered

def Ascending (paths : List Path) : Prop :=
  paths.Pairwise fun left right => order left right = .lt

theorem Ascending.nodup {paths : List Path} (ascending : Ascending paths) : paths.Nodup := by
  refine ascending.imp ?_
  rintro path _ less rfl
  rw [(order_eq_iff path path).mpr rfl] at less
  cases less

theorem Ascending.eq_of_mem_iff {left right : List Path} (leftUp : Ascending left)
    (rightUp : Ascending right) (same : ∀ path, path ∈ left ↔ path ∈ right) : left = right := by
  refine List.Perm.eq_of_pairwise ?_ leftUp rightUp
    ((List.perm_ext_iff_of_nodup leftUp.nodup rightUp.nodup).mpr same)
  intro upper lower _ _ below above
  rw [order_swap, above] at below
  cases below

theorem insert_of_mem {path : Path} {paths : List Path} (ascending : Ascending paths)
    (member : path ∈ paths) : path.insert paths = paths := by
  induction paths with
  | nil => cases member
  | cons first others ih =>
      obtain ⟨least, rest⟩ := List.pairwise_cons.mp ascending
      rw [insert]
      rcases List.mem_cons.mp member with rfl | later
      · rw [(order_eq_iff path path).mpr rfl]
      · have above : order path first = .gt := by
          rw [order_swap, least path later]
          rfl
        rw [above]
        simp only [ih rest later]

theorem insert_eq_append {path : Path} {paths : List Path}
    (last : ∀ known ∈ paths, order known path = .lt) : path.insert paths = paths ++ [path] := by
  induction paths with
  | nil => rfl
  | cons first others ih =>
      have above : order path first = .gt := by
        rw [order_swap, last first List.mem_cons_self]
        rfl
      rw [insert, above]
      simp only [ih fun known member => last known (List.mem_cons_of_mem _ member), List.cons_append]

theorem foldl_insert_of_subset {paths known : List Path} (ascending : Ascending known)
    (subset : paths ⊆ known) : paths.foldl (fun known path => path.insert known) known = known := by
  induction paths with
  | nil => rfl
  | cons path paths ih =>
      obtain ⟨member, rest⟩ := List.cons_subset.mp subset
      rw [List.foldl_cons, insert_of_mem ascending member]
      exact ih rest

theorem foldl_insert_append {paths known : List Path} (ascending : Ascending (known ++ paths)) :
    paths.foldl (fun known path => path.insert known) known = known ++ paths := by
  induction paths generalizing known with
  | nil => simp
  | cons path paths ih =>
      have last : ∀ other ∈ known, order other path = .lt := by
        intro other member
        exact (List.pairwise_append.mp ascending).2.2 other member path List.mem_cons_self
      rw [List.foldl_cons, insert_eq_append last]
      have grouped : known ++ path :: paths = (known ++ [path]) ++ paths := by simp
      rw [grouped] at ascending ⊢
      exact ih ascending

end Path

theorem pieces_append_cons {α : Type} {cuts : α → Bool} {separator : α} (here : cuts separator = true)
    (before after : List α) :
    pieces cuts (before ++ separator :: after) = pieces cuts before ++ pieces cuts after := by
  induction before with
  | nil => simp [pieces, here]
  | cons head rest ih =>
      rw [List.cons_append, pieces, pieces, ih]
      split
      · rfl
      · cases parts : pieces cuts rest with
        | nil => exact absurd parts (pieces_ne_nil cuts rest)
        | cons first others => rfl

theorem pieces_of_uncut {α : Type} {cuts : α → Bool} {whole : List α}
    (uncut : ∀ element ∈ whole, cuts element = false) : pieces cuts whole = [whole] := by
  induction whole with
  | nil => rfl
  | cons head rest ih =>
      rw [pieces, uncut head List.mem_cons_self, ih fun element member =>
        uncut element (List.mem_cons_of_mem _ member)]
      rfl

namespace Path

theorem toList_join {folder : Path} (given : folder.spelling ≠ "") (name : String) :
    ∃ front, (folder.join name).spelling.toList = front ++ '/' :: name.toList ∧
      (folder.spelling.toList = front ∨ folder.spelling.toList = front ++ ['/']) := by
  rw [join]
  split
  next last =>
    simp only [List.getLast?_eq_none_iff, String.toList_eq_nil_iff] at last
    exact absurd last given
  next last =>
    obtain ⟨front, parts⟩ := List.getLast?_eq_some_iff.mp last
    exact ⟨front, by simp [parts], Or.inr parts⟩
  next => exact ⟨folder.spelling.toList, by simp, Or.inl rfl⟩

theorem segments_join {folder : Path} (given : folder.spelling ≠ "") {name : String}
    (proper : ProperName name) :
    ∃ front, front ≠ [] ∧ (folder.join name).segments = front ++ [name] ∧
      (folder.segments = front ∨ folder.segments = front ++ [""]) := by
  have single : pieces (· == '/') name.toList = [name.toList] := by
    apply pieces_of_uncut
    intro letter member
    simpa using fun same : letter = '/' => proper.2.2.2 (same ▸ member)
  obtain ⟨front, joined, folderParts⟩ := toList_join given name
  refine ⟨(pieces (· == '/') front).map String.ofList, by simpa using pieces_ne_nil _ _, ?_, ?_⟩
  · rw [segments, joined, pieces_append_cons (by rfl), single]
    simp
  · rcases folderParts with same | closed
    · exact Or.inl (by rw [segments, same])
    · refine Or.inr ?_
      rw [segments, closed, pieces_append_cons (by rfl)]
      simp [pieces]

theorem join_ne_empty {folder : Path} (given : folder.spelling ≠ "") (name : String) :
    (folder.join name).spelling ≠ "" := by
  obtain ⟨front, joined, -⟩ := toList_join given name
  intro nothing
  simp [nothing] at joined

theorem isAbsolute_join {folder : Path} (given : folder.spelling ≠ "") (name : String) :
    (folder.join name).isAbsolute = folder.isAbsolute := by
  obtain ⟨front, joined, same | closed⟩ := toList_join given name
  · have nonempty : front ≠ [] := by
      rintro rfl
      exact given (String.toList_eq_nil_iff.mp same)
    obtain ⟨first, others, rfl⟩ := List.exists_cons_of_ne_nil nonempty
    simp [isAbsolute, joined, same]
  · rw [isAbsolute, isAbsolute, joined, closed]
    cases front <;> rfl

theorem component?_of_proper {name : String} (proper : ProperName name) (first : Bool) :
    component? first name = some (.name name) := by
  obtain ⟨nonempty, here, parent, -⟩ := proper
  simp [component?, nonempty, here, parent]

theorem components_join {folder : Path} (given : folder.spelling ≠ "") {name : String}
    (proper : ProperName name) :
    (folder.join name).components = folder.components ++ [.name name] := by
  obtain ⟨front, nonempty, joined, parts⟩ := segments_join given proper
  obtain ⟨first, others, rfl⟩ := List.exists_cons_of_ne_nil nonempty
  have blank : component? false "" = none := by decide
  have named := component?_of_proper proper false
  rw [components, components, isAbsolute_join given, joined]
  cases folder.isAbsolute with
  | false => rcases parts with parts | parts <;> simp [parts, named, blank]
  | true =>
      have same : folder.segments.filterMap (component? false) =
          (first :: others).filterMap (component? false) := by
        rcases parts with parts | parts
        · rw [parts]
        · rw [parts, List.filterMap_append, List.filterMap_cons_none blank, List.filterMap_nil,
            List.append_nil]
      rw [if_pos rfl, if_pos rfl, same, List.filterMap_append, List.filterMap_cons_some named,
        List.filterMap_nil, List.cons_append]

def descend (folder : Path) (names : List String) : Path :=
  names.foldl join folder

theorem segments_descend {folder : Path} (given : folder.spelling ≠ "") {names : List String}
    (nonempty : names ≠ []) (proper : ∀ name ∈ names, ProperName name) :
    ∃ front, (folder.descend names).segments = front ++ names ∧
      (folder.segments = front ∨ folder.segments = front ++ [""]) := by
  induction names generalizing folder with
  | nil => exact absurd rfl nonempty
  | cons name below ih =>
      have first := proper name List.mem_cons_self
      obtain ⟨front, -, joined, parts⟩ := segments_join given first
      by_cases last : below = []
      · subst last
        exact ⟨front, joined, parts⟩
      · obtain ⟨middle, whole, same | closed⟩ := ih (join_ne_empty given name) last
          fun other member => proper other (List.mem_cons_of_mem _ member)
        · refine ⟨front, ?_, parts⟩
          rw [descend, List.foldl_cons, ← descend, whole, ← same, joined]
          simp
        · rw [joined] at closed
          have final := congrArg List.getLast? closed
          simp only [List.getLast?_append, List.getLast?_singleton, Option.some_or,
            Option.some.injEq] at final
          exact absurd final first.1

theorem components_descend {folder : Path} (given : folder.spelling ≠ "") {names : List String}
    (proper : ∀ name ∈ names, ProperName name) :
    (folder.descend names).components = folder.components ++ names.map .name := by
  induction names generalizing folder with
  | nil => simp [descend]
  | cons name below ih =>
      have later := ih (join_ne_empty given name)
        fun other member => proper other (List.mem_cons_of_mem _ member)
      rw [descend, List.foldl_cons, ← descend, later,
        components_join given (proper name List.mem_cons_self)]
      simp

theorem descend_ne_empty {folder : Path} (given : folder.spelling ≠ "") (names : List String) :
    (folder.descend names).spelling ≠ "" := by
  induction names generalizing folder with
  | nil => exact given
  | cons name below ih => exact ih (join_ne_empty given name)

theorem isAbsolute_descend {folder : Path} (given : folder.spelling ≠ "") (names : List String) :
    (folder.descend names).isAbsolute = folder.isAbsolute := by
  induction names generalizing folder with
  | nil => rfl
  | cons name below ih =>
      rw [descend, List.foldl_cons, ← descend, ih (join_ne_empty given name), isAbsolute_join given]

end Path

end Unbroken
