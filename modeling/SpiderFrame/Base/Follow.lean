import Mathlib.Data.Set.Finite.Basic
import Mathlib.Data.Fintype.EquivFin

/-!
# Following a partial function

`follow f n a` is `n` steps of the partial function `f` from `a`. A chain of steps ends or goes on
for ever; over finitely many points it goes on for ever if and only if it comes to a point that it
comes back to (`ends_iff_no_cycle`).
-/

namespace SpiderFrame.Base

variable {α : Type*} {f : α → Option α} {a b : α}

/-- The point after `n` steps, if each of them has a next point. -/
def follow (f : α → Option α) : Nat → α → Option α
  | 0, a => some a
  | n + 1, a => (f a).bind (follow f n)

/-- The chain of steps from `a` comes to an end. -/
def Ends (f : α → Option α) (a : α) : Prop := ∃ n, follow f n a = none

/-- No point of the chain from `a` is reached from itself. -/
def NoCycle (f : α → Option α) (a : α) : Prop :=
  ∀ n b, follow f n a = some b → ∀ k, follow f (k + 1) b ≠ some b

theorem follow_add (m n : Nat) : follow f (m + n) a = (follow f m a).bind (follow f n) := by
  induction m generalizing a with
  | zero => rw [Nat.zero_add]; rfl
  | succ m ih =>
    rw [Nat.add_right_comm]
    show (f a).bind (follow f (m + n)) = ((f a).bind (follow f m)).bind (follow f n)
    cases f a with
    | none => rfl
    | some b => exact ih

theorem follow_succ (n : Nat) : follow f (n + 1) a = (follow f n a).bind f := by
  rw [follow_add]
  congr 1
  funext b
  cases h : f b <;> simp [follow, h]

theorem ends_next : Ends f a ↔ ∀ b ∈ f a, Ends f b := by
  constructor
  · rintro ⟨n, stops⟩ b next
    cases n with
    | zero => cases stops
    | succ n =>
      refine ⟨n, ?_⟩
      rwa [follow, Option.mem_def.1 next] at stops
  · intro after
    cases next : f a with
    | none => exact ⟨1, by simp [follow, next]⟩
    | some b =>
      obtain ⟨n, stops⟩ := after b next
      exact ⟨n + 1, by simpa [follow, next] using stops⟩

theorem follow_cycle {k : Nat} (back : follow f k b = some b) (j : Nat) :
    follow f (k * j) b = some b := by
  induction j with
  | zero => rfl
  | succ j ih => rw [Nat.mul_succ, follow_add, ih, Option.bind_some, back]

theorem Ends.noCycle (ends : Ends f a) : NoCycle f a := by
  intro n b reached k back
  obtain ⟨m, stops⟩ := ends
  -- after `m` rounds the chain is past the place where it stops
  have goes : follow f (n + (k + 1) * m) a = some b := by
    rw [follow_add, reached, Option.bind_some, follow_cycle back]
  have past : n + (k + 1) * m = m + (n + k * m) := by
    rw [Nat.succ_mul]
    omega
  rw [past, follow_add, stops] at goes
  cases goes

/-- **Over finitely many points a chain ends if and only if it has no cycle.** -/
theorem ends_iff_no_cycle {names : List α} (known : ∀ b, f b ≠ none → b ∈ names) :
    Ends f a ↔ NoCycle f a := by
  refine ⟨Ends.noCycle, fun free => ?_⟩
  by_contra endless
  have goes : ∀ n, ∃ b, follow f n a = some b := by
    intro n
    rw [← Option.ne_none_iff_exists']
    exact fun stops => endless ⟨n, stops⟩
  choose point reached using goes
  have inside : ∀ n, point n ∈ names := by
    intro n
    apply known
    have next := reached (n + 1)
    rw [follow_succ, reached n, Option.bind_some] at next
    rw [next]
    exact Option.some_ne_none _
  obtain ⟨i, j, before, same⟩ : ∃ i j, i < j ∧ point i = point j := by
    have finite : Set.Finite {b | b ∈ names} := List.finite_toSet names
    obtain ⟨i, -, j, -, other, same⟩ :=
      Set.infinite_univ.exists_ne_map_eq_of_mapsTo (fun n _ => inside n) finite
    rcases Nat.lt_or_gt_of_ne other with before | before
    · exact ⟨i, j, before, same⟩
    · exact ⟨j, i, before, same.symm⟩
  obtain ⟨k, rfl⟩ := Nat.exists_eq_add_of_lt before
  refine free i (point i) (reached i) k ?_
  have back := reached (i + k + 1)
  rw [Nat.add_assoc, follow_add, reached i, Option.bind_some] at back
  rw [back, ← Nat.add_assoc, ← same]

end SpiderFrame.Base
