import Mathlib.Data.List.Count

/-!
# Resources that are released

A trace tells when a resource was got, and when a pointer was released; the pointer may be NULL.
`ReleasedOnce` says that each resource is released once, and nothing else is. In a trace that gets
no resource twice, that is the same as `Balanced`, which can be checked step by step.
-/

namespace SpiderFrame.Base

inductive Use (ι : Type*) where
  | got (i : ι)
  | released (ptr : Option ι)
  deriving DecidableEq

variable {ι : Type*} [DecidableEq ι]

structure ReleasedOnce (uses : List (Use ι)) : Prop where
  once : ∀ i, .got i ∈ uses → uses.count (.released (some i)) = 1
  only : ∀ i, .released (some i) ∈ uses → .got i ∈ uses

/-- Each resource is released as often as it is got. -/
def Balanced (uses : List (Use ι)) : Prop :=
  ∀ i, uses.count (.released (some i)) = uses.count (.got i)

theorem releasedOnce_iff {uses : List (Use ι)} (distinct : ∀ i, uses.count (.got i) ≤ 1) :
    ReleasedOnce uses ↔ Balanced uses := by
  constructor
  · intro once i
    have atMost := distinct i
    by_cases got : Use.got i ∈ uses
    · have one := once.once i got
      have some_ := List.count_pos_iff.2 got
      omega
    · have none_ : Use.released (some i) ∉ uses := fun released => got (once.only i released)
      rw [List.count_eq_zero.2 got, List.count_eq_zero.2 none_]
  · intro balanced
    refine ⟨fun i got => ?_, fun i released => ?_⟩
    · have atMost := distinct i
      have some_ := List.count_pos_iff.2 got
      have same := balanced i
      omega
    · have some_ := List.count_pos_iff.2 released
      have same := balanced i
      apply List.count_pos_iff.1
      omega

/-- Getting a resource and releasing it at once. -/
theorem balanced_pair {i : ι} {uses : List (Use ι)} :
    Balanced (.got i :: .released (some i) :: uses) ↔ Balanced uses := by
  apply forall_congr'
  intro j
  by_cases same : i = j
  · subst same
    simp
  · simp [same]

theorem balanced_null {uses : List (Use ι)} : Balanced (.released none :: uses) ↔ Balanced uses := by
  apply forall_congr'
  intro j
  simp

/-- A pointer is released that is not got. -/
theorem not_balanced {i : ι} {uses : List (Use ι)} (old : .got i ∉ uses) :
    ¬ Balanced (.released (some i) :: uses) := by
  intro balanced
  have same := balanced i
  simp [List.count_eq_zero.2 old] at same

end SpiderFrame.Base
