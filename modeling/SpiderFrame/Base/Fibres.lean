import Mathlib.Logic.Equiv.Fin.Basic
import Mathlib.SetTheory.Cardinal.Finite

/-!
# Functions with equal fibres

Every value has equally many preimages. So it is for a function of pairs that permutes the second
component, by a permutation that depends on the first (`equalFibres_perms`), and an equivalence put
before such a function changes nothing.
-/

namespace SpiderFrame.Base

variable {α α' β ι : Type*} {n : ℕ}

/-- Every value of `f` has `n` preimages. -/
def EqualFibres (f : α → β) (n : ℕ) : Prop := ∀ b, Nat.card {a // f a = b} = n

theorem EqualFibres.comp {f : α → β} (h : EqualFibres f n) (e : α' ≃ α) :
    EqualFibres (f ∘ e) n := by
  intro b
  have same : {a // (f ∘ e) a = b} ≃ {a // f a = b} := e.subtypeEquiv fun a => Iff.rfl
  rw [Nat.card_congr same]
  exact h b

/-- The first component of a pair with a given value may be any. -/
def permsFibre (σ : ι → Equiv.Perm β) (b : β) : {p : ι × β // σ p.1 p.2 = b} ≃ ι where
  toFun p := p.1.1
  invFun i := ⟨(i, (σ i).symm b), (σ i).apply_symm_apply b⟩
  left_inv := by
    rintro ⟨⟨i, x⟩, rfl⟩
    simp
  right_inv _ := rfl

/-- **A family of permutations has equal fibres.** -/
theorem equalFibres_perms (σ : ι → Equiv.Perm β) :
    EqualFibres (fun p : ι × β => σ p.1 p.2) (Nat.card ι) :=
  fun b => Nat.card_congr (permsFibre σ b)

end SpiderFrame.Base
