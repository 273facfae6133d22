import Mathlib.Data.List.Basic

/-!
# Loops over a text

A loop takes the text in rounds: a round puts something out and leaves a shorter text. The number
of rounds is bounded by the length, so `rounds` takes fuel, and `rounds_step` leaves it alone.
-/

namespace SpiderFrame.Base

variable {α β : Type*}

/-- What the loop puts out. -/
def rounds (round : List α → List β × List α) : Nat → List α → List β
  | 0, _ => []
  | _ + 1, [] => []
  | n + 1, a :: p => (round (a :: p)).1 ++ rounds round n (round (a :: p)).2

/-- Each round takes something. -/
def Shortens (round : List α → List β × List α) : Prop :=
  ∀ p, p ≠ [] → (round p).2.length < p.length

variable {round : List α → List β × List α}

@[simp] theorem rounds_nil (n : Nat) : rounds round n [] = [] := by
  cases n <;> rfl

/-- More fuel than letters makes no difference. -/
theorem rounds_enough (shortens : Shortens round) {n : Nat} :
    ∀ {m : Nat} {p : List α}, p.length ≤ n → p.length ≤ m → rounds round n p = rounds round m p := by
  induction n with
  | zero =>
    intro m p enough _
    obtain rfl := List.length_eq_zero_iff.1 (Nat.le_zero.1 enough)
    rw [rounds_nil, rounds_nil]
  | succ n ih =>
    intro m p enough enough'
    cases p with
    | nil => rw [rounds_nil, rounds_nil]
    | cons a p =>
      have shorter := shortens (a :: p) (List.cons_ne_nil a p)
      cases m with
      | zero => cases enough'
      | succ m =>
        rw [rounds, rounds, ih (by omega) (show (round (a :: p)).2.length ≤ m by omega)]

/-- **One round, and the loop again.** -/
theorem rounds_step (shortens : Shortens round) {n : Nat} {p : List α} (some_ : p ≠ [])
    (enough : p.length ≤ n) : rounds round n p = (round p).1 ++ rounds round n (round p).2 := by
  have shorter := shortens p some_
  cases n with
  | zero => exact absurd (List.length_eq_zero_iff.1 (Nat.le_zero.1 enough)) some_
  | succ n =>
    obtain ⟨a, p, rfl⟩ := List.exists_cons_of_ne_nil some_
    rw [rounds, rounds_enough shortens (show (round (a :: p)).2.length ≤ n by omega)
      (show (round (a :: p)).2.length ≤ n + 1 by omega)]

/-- What holds of the output of each round that begins with a letter of the text. -/
theorem forall_rounds {P : β → Prop} {Q : List α → Prop}
    (round_ : ∀ p, Q p → (∀ b ∈ (round p).1, P b) ∧ Q (round p).2) {n : Nat} :
    ∀ {p : List α}, Q p → ∀ b ∈ rounds round n p, P b := by
  induction n with
  | zero =>
    intro p _ b hb
    cases hb
  | succ n ih =>
    intro p holds b hb
    cases p with
    | nil => cases hb
    | cons a p =>
      obtain ⟨here, next⟩ := round_ (a :: p) holds
      rw [rounds] at hb
      obtain hb | hb := List.mem_append.1 hb
      · exact here b hb
      · exact ih next b hb

end SpiderFrame.Base
