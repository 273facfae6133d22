import Mathlib.Data.List.Basic
import Mathlib.Logic.Function.Basic

/-!
# Singly linked lists

A store of `next` words gives every address a nullable successor. `Chain next head l` says that the
addresses from `head` on are `l`, in order, up to NULL. `collect` walks such a list.
-/

namespace SpiderFrame.Base

variable {α : Type*}

/-- From `head` on the members are `l`, and then comes NULL. -/
def Chain (next : α → Option α) : Option α → List α → Prop
  | head, [] => head = none
  | head, a :: l => head = some a ∧ Chain next (next a) l

/-- The members from `head` on. `none` is a walk that has not ended within the fuel. -/
def collect (next : α → Option α) : Nat → Option α → Option (List α)
  | _, none => some []
  | 0, some _ => none
  | fuel + 1, some a => (collect next fuel (next a)).map (a :: ·)

namespace Chain

variable {next next' : α → Option α} {head : Option α} {l : List α} {a : α}

theorem empty (next : α → Option α) : Chain next none [] := rfl

/-- Stores to other addresses do not matter. -/
theorem frame (h : Chain next head l) (same : ∀ b ∈ l, next' b = next b) : Chain next' head l := by
  induction l generalizing head with
  | nil => exact h
  | cons b l ih =>
    obtain ⟨first, rest⟩ := h
    rw [List.forall_mem_cons] at same
    refine ⟨first, ?_⟩
    rw [same.1]
    exact ih rest same.2

/-- **A new node before the first.** -/
theorem push [DecidableEq α] (h : Chain next head l) (fresh : a ∉ l) :
    Chain (Function.update next a head) (some a) (a :: l) := by
  refine ⟨rfl, ?_⟩
  rw [Function.update_self]
  apply h.frame
  intro b hb
  have other : b ≠ a := fun e => fresh (e ▸ hb)
  exact Function.update_of_ne other _ _

/-- The members are determined by the first. -/
theorem unique {l' : List α} (h : Chain next head l) (h' : Chain next head l') : l = l' := by
  induction l generalizing head l' with
  | nil =>
    cases h
    cases l' with
    | nil => rfl
    | cons b l' => cases h'.1
  | cons a l ih =>
    obtain ⟨rfl, rest⟩ := h
    cases l' with
    | nil => cases h'
    | cons b l' =>
      obtain ⟨same, rest'⟩ := h'
      cases same
      rw [ih rest rest']

/-- From a member on come the members behind it. -/
theorem behind {front back : List α} (h : Chain next head (front ++ a :: back)) :
    Chain next (some a) (a :: back) := by
  induction front generalizing head with
  | nil => exact ⟨rfl, h.2⟩
  | cons b front ih => exact ih h.2

/-- **A chain that comes to NULL has no member twice.** -/
theorem nodup (h : Chain next head l) : l.Nodup := by
  induction l generalizing head with
  | nil => exact List.nodup_nil
  | cons a l ih =>
    refine List.nodup_cons.2 ⟨fun again => ?_, ih h.2⟩
    obtain ⟨front, back, rfl⟩ := List.append_of_mem again
    have tail : Chain next (some a) (a :: back) := behind h.2
    have whole : Chain next (some a) (a :: (front ++ a :: back)) := ⟨rfl, h.2⟩
    have lengths := congrArg List.length (tail.unique whole)
    simp only [List.length_cons, List.length_append] at lengths
    omega

/-- The pointer is to the first member. -/
theorem head_eq (h : Chain next head l) : head = l.head? := by
  cases l with
  | nil => exact h
  | cons a l => exact h.1

/-- **A new node behind the last**, once its own successor is NULL. -/
theorem snoc {last : α} (h : Chain next head (l ++ [last])) (linked : next' last = some a)
    (ends : next' a = none) (same : ∀ b ∈ l, next' b = next b) :
    Chain next' head (l ++ [last, a]) := by
  induction l generalizing head with
  | nil =>
    refine ⟨h.1, ?_⟩
    rw [linked]
    exact ⟨rfl, ends⟩
  | cons b l ih =>
    obtain ⟨first, rest⟩ := h
    rw [List.forall_mem_cons] at same
    refine ⟨first, ?_⟩
    rw [same.1]
    exact ih rest same.2

/-- **A walk lists the members.** -/
theorem collect_eq (h : Chain next head l) {fuel : Nat} (enough : l.length ≤ fuel) :
    collect next fuel head = some l := by
  induction l generalizing head fuel with
  | nil =>
    cases h
    rw [collect]
  | cons a l ih =>
    obtain ⟨rfl, rest⟩ := h
    cases fuel with
    | zero => cases enough
    | succ fuel =>
      rw [collect, ih rest (Nat.le_of_succ_le_succ enough)]
      rfl

end Chain

end SpiderFrame.Base
