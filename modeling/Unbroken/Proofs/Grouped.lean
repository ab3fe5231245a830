import Unbroken.Proofs.Listed

/-! Sorted breaks in their groups. As breaks are sorted by their files first, a group holds all breaks of
its file, and no two groups are of the same file. -/

namespace Unbroken

namespace Break

instance : Std.TransOrd Path :=
  inferInstanceAs (Std.TransCmp Path.order)

instance : Std.TransCmp order :=
  inferInstanceAs (Std.TransCmp
    (compareLex (compareLex (compareOn file) (compareOn firstLine)) (compareOn lastLine)))

theorem sorted_pairwise (breaks : List Break) :
    (sorted breaks).Pairwise fun left right => (order left right).isLE = true := by
  refine List.pairwise_mergeSort ?_ ?_ breaks
  · intro first second third left right
    exact Std.TransCmp.isLE_trans left right
  · intro left right
    have turned : order left right = (order right left).swap := Std.OrientedCmp.eq_swap
    rw [turned]
    cases order right left <;> rfl

theorem precedes_of_order {left right : Break} (ordered : (order left right).isLE = true) :
    left.file.precedes right.file = true := by
  rw [order, Ordering.then_assoc] at ordered
  change (compare left.file right.file).isLE = true
  cases files : compare left.file right.file with
  | lt | eq => rfl
  | gt => rw [files] at ordered; cases ordered

end Break

namespace Check

variable {breaks : List Break} {group : List Break}

theorem flatten_groups (breaks : List Break) : (groups breaks).flatten = breaks :=
  List.flatten_splitBy _ breaks

theorem mem_of_mem_groups (member : group ∈ groups breaks) {broken : Break} (inside : broken ∈ group) :
    broken ∈ breaks := by
  rw [← flatten_groups breaks]
  exact List.mem_flatten.mpr ⟨group, member, inside⟩

theorem components_eq_of_mem_groups (member : group ∈ groups breaks) :
    ∀ left ∈ group, ∀ right ∈ group, left.file.components = right.file.components := by
  have chain : group.IsChain fun left right => left.file.components = right.file.components :=
    (List.isChain_of_mem_splitBy member).imp fun left right => (Path.same_iff _ _).mp
  have trans : IsTrans Break fun left right => left.file.components = right.file.components :=
    ⟨fun _ _ _ => Eq.trans⟩
  have symmetric : Std.Symm fun left right : Break => left.file.components = right.file.components :=
    ⟨fun _ _ => Eq.symm⟩
  intro left leftMember right rightMember
  refine (List.isChain_iff_pairwise.mp chain).forall_of_forall ?_ leftMember rightMember
  exact fun _ _ => rfl

theorem ascending_of_isChain {all : List (List Break)} (nonempty : ∀ group ∈ all, group ≠ [])
    (alike : ∀ group ∈ all, ∀ left ∈ group, ∀ right ∈ group,
      left.file.components = right.file.components)
    (ordered : all.Pairwise fun upper lower => ∀ left ∈ upper, ∀ right ∈ lower,
      left.file.precedes right.file = true)
    (apart : all.IsChain fun upper lower => ∃ last first,
      (upper.getLast last).file.same (lower.head first).file = false) :
    all.Pairwise fun upper lower => ∀ left ∈ upper, ∀ right ∈ lower,
      Path.order left.file right.file = .lt := by
  induction all with
  | nil => exact .nil
  | cons group rest ih =>
      obtain ⟨first, later⟩ := List.pairwise_cons.mp ordered
      have lower := ih (fun other member => nonempty other (List.mem_cons_of_mem _ member))
        (fun other member => alike other (List.mem_cons_of_mem _ member)) later apart.tail
      refine List.pairwise_cons.mpr ⟨?_, lower⟩
      cases rest with
      | nil => simp
      | cons next more =>
          obtain ⟨⟨lastBound, firstBound, differ⟩, -⟩ := List.isChain_cons_cons.mp apart
          have below : ∀ left ∈ group, ∀ right ∈ next, Path.order left.file right.file = .lt := by
            intro left leftMember right rightMember
            refine Path.order_lt_of_precedes (first next List.mem_cons_self left leftMember right rightMember) ?_
            intro same
            have upper := alike group List.mem_cons_self left leftMember _ (List.getLast_mem lastBound)
            have under := alike next (by simp) right rightMember _ (List.head_mem firstBound)
            rw [Bool.eq_false_iff, ne_eq, Path.same_iff] at differ
            exact differ (upper.symm.trans (same.trans under))
          intro other member left leftMember right rightMember
          rcases List.mem_cons.mp member with rfl | member
          · exact below left leftMember right rightMember
          · have onward := (List.pairwise_cons.mp later).1 other member _ (List.head_mem firstBound)
              right rightMember
            exact Std.TransCmp.lt_of_lt_of_isLE
              (below left leftMember _ (List.head_mem firstBound)) onward

theorem groups_ascending (sorted : breaks.Pairwise fun left right => (Break.order left right).isLE = true) :
    (groups breaks).Pairwise fun upper lower => ∀ left ∈ upper, ∀ right ∈ lower,
      Path.order left.file right.file = .lt := by
  rw [← flatten_groups breaks, List.pairwise_flatten] at sorted
  refine ascending_of_isChain (fun group => List.ne_nil_of_mem_splitBy)
    (fun group => components_eq_of_mem_groups) ?_ (List.isChain_getLast_head_splitBy
      (fun left right => left.file.same right.file) breaks)
  exact sorted.2.imp fun ordered left leftMember right rightMember =>
    Break.precedes_of_order (ordered left leftMember right rightMember)

theorem eq_filter_of_mem_groups
    (sorted : breaks.Pairwise fun left right => (Break.order left right).isLE = true)
    (member : group ∈ groups breaks) {broken : Break} (inside : broken ∈ group) :
    group = breaks.filter fun other => broken.file.same other.file := by
  have ascending := groups_ascending sorted
  have alike := components_eq_of_mem_groups member
  obtain ⟨before, after, parts⟩ := List.append_of_mem member
  rw [parts, List.pairwise_append, List.pairwise_cons] at ascending
  obtain ⟨-, ⟨lower, -⟩, upper⟩ := ascending
  have own : group.filter (fun other => broken.file.same other.file) = group :=
    List.filter_eq_self.mpr fun other here => (Path.same_iff _ _).mpr (alike broken inside other here)
  have foreign : ∀ {all : List (List Break)}, (∀ others ∈ all, ∀ other ∈ others,
      broken.file.components ≠ other.file.components) →
      all.flatten.filter (fun other => broken.file.same other.file) = [] := by
    intro all differ
    rw [List.filter_eq_nil_iff]
    intro other there same
    obtain ⟨others, listed, here⟩ := List.mem_flatten.mp there
    exact differ others listed other here ((Path.same_iff _ _).mp same)
  have above : ∀ others ∈ before, ∀ other ∈ others, broken.file.components ≠ other.file.components := by
    intro others listed other here same
    have less := upper others listed group List.mem_cons_self other here broken inside
    rw [(Path.order_eq_iff _ _).mpr same.symm] at less
    cases less
  have below : ∀ others ∈ after, ∀ other ∈ others, broken.file.components ≠ other.file.components := by
    intro others listed other here same
    have less := lower others listed broken inside other here
    rw [(Path.order_eq_iff _ _).mpr same] at less
    cases less
  conv_rhs => rw [← flatten_groups breaks, parts, List.flatten_append, List.flatten_cons, List.filter_append,
    List.filter_append, foreign above, foreign below, own, List.nil_append, List.append_nil]

end Check

end Unbroken
