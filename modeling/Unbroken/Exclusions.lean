/-! The names of directories that a search passes over. -/

namespace Unbroken

structure Exclusions where
  names : List String
  deriving DecidableEq, Repr

namespace Exclusions

def usual : Exclusions :=
  ⟨["node_modules", ".git", "libraries", "dist", "build"]⟩

def excludes (exclusions : Exclusions) (name : String) : Bool :=
  exclusions.names.contains name

def extend (exclusions : Exclusions) (names : List String) : Exclusions :=
  ⟨exclusions.names ++ names⟩

def sameAs (left right : Exclusions) : Bool :=
  left.names.all right.excludes && right.names.all left.excludes

theorem sameAs_iff (left right : Exclusions) :
    left.sameAs right = true ↔ ∀ name, left.excludes name = right.excludes name := by
  simp only [sameAs, excludes, Bool.and_eq_true, List.all_eq_true, List.contains_iff_mem]
  constructor
  · rintro ⟨forward, backward⟩ name
    rw [Bool.eq_iff_iff]
    simp only [List.contains_iff_mem]
    exact ⟨forward name, backward name⟩
  · intro same
    constructor
    · intro name member
      have here := same name
      rw [Bool.eq_iff_iff] at here
      simp only [List.contains_iff_mem] at here
      exact here.mp member
    · intro name member
      have here := same name
      rw [Bool.eq_iff_iff] at here
      simp only [List.contains_iff_mem] at here
      exact here.mpr member

end Exclusions

end Unbroken
