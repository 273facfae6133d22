/-!
# Computations that may fail

What holds of the result of a computation or of its error (`Meets`), one computation that follows another
but for errors of its own (`Follows`), and one that carries the other as a part of its states (`Carries`),
with the rules for `map`, `bind` and `foldlM`.
-/

namespace SpiderFrame.Base

variable {ε α β γ δ : Type}

/-- The result satisfies `Q`, or the error `E`. -/
def Meets (Q : α → Prop) (E : ε → Prop) : Except ε α → Prop
  | .ok a => Q a
  | .error e => E e

namespace Meets

variable {P Q : α → Prop} {R : β → Prop} {E : ε → Prop} {x : Except ε α}

theorem ok {a : α} (h : Q a) : Meets Q E (.ok a) := h

theorem error {e : ε} (h : E e) : Meets Q E (.error e) := h

theorem result {a : α} (h : Meets Q E x) (same : x = .ok a) : Q a := by
  subst same
  exact h

theorem failure {e : ε} (h : Meets Q E x) (same : x = .error e) : E e := by
  subst same
  exact h

theorem any (x : Except ε α) : Meets (fun _ => True) (fun _ => True) x := by
  cases x with
  | ok a => trivial
  | error e => trivial

theorem mono (h : Meets P E x) (imp : ∀ a, P a → Q a) : Meets Q E x := by
  cases x with
  | ok a => exact imp a h
  | error e => exact h

theorem weaken {F : ε → Prop} (h : Meets Q E x) (imp : ∀ e, E e → F e) : Meets Q F x := by
  cases x with
  | ok a => exact h
  | error e => exact imp e h

theorem bind {f : α → Except ε β} (h : Meets Q E x) (rest : ∀ a, Q a → Meets R E (f a)) :
    Meets R E (x.bind f) := by
  cases x with
  | ok a => exact rest a h
  | error e => exact h

theorem map {f : α → β} (h : Meets Q E x) (rest : ∀ a, Q a → R (f a)) : Meets R E (x.map f) := by
  cases x with
  | ok a => exact rest a h
  | error e => exact h

/-- **What one step keeps, a whole list of them keeps.** -/
theorem foldlM {f : α → β → Except ε α} {a : α} (init : Q a)
    (kept : ∀ a b, Q a → Meets Q E (f a b)) (l : List β) : Meets Q E (l.foldlM f a) := by
  induction l generalizing a with
  | nil => exact init
  | cons b l ih => exact (kept a b init).bind fun a' here => ih here

end Meets

/-- The left does what the right does, or stops with an error that is its own. -/
def Follows (own : ε → Prop) (R : α → β → Prop) (x : Except ε α) (y : Except ε β) : Prop :=
  match x with
  | .ok a => ∃ b, y = .ok b ∧ R a b
  | .error e => own e ∨ y = .error e

namespace Follows

variable {own : ε → Prop} {R : α → β → Prop} {S : γ → δ → Prop} {x : Except ε α} {y : Except ε β}

theorem ok {a : α} {b : β} (h : R a b) : Follows own R (.ok a) (.ok b) := ⟨b, rfl, h⟩

theorem error (e : ε) : Follows own R (.error e) (.error e) := .inr rfl

theorem same (x : Except ε α) : Follows own Eq x x := by
  cases x with
  | ok a => exact .ok rfl
  | error e => exact .error e

theorem weaken {own' : ε → Prop} (h : Follows own R x y) (imp : ∀ e, own e → own' e) : Follows own' R x y := by
  cases x with
  | ok a => exact h
  | error e => exact h.imp_left (imp e)

theorem mono {S : α → β → Prop} (h : Follows own R x y) (imp : ∀ a b, R a b → S a b) :
    Follows own S x y := by
  cases x with
  | ok a =>
    obtain ⟨b, same, related⟩ := h
    exact ⟨b, same, imp a b related⟩
  | error e => exact h

theorem bind {f : α → Except ε γ} {g : β → Except ε δ} (h : Follows own R x y)
    (rest : ∀ a b, R a b → Follows own S (f a) (g b)) : Follows own S (x.bind f) (y.bind g) := by
  cases x with
  | ok a =>
    obtain ⟨b, rfl, related⟩ := h
    exact rest a b related
  | error e =>
    rcases h with mine | rfl
    · exact .inl mine
    · exact .inr rfl

theorem map {f : α → γ} {g : β → δ} (h : Follows own R x y) (rest : ∀ a b, R a b → S (f a) (g b)) :
    Follows own S (x.map f) (y.map g) := by
  cases x with
  | ok a =>
    obtain ⟨b, rfl, related⟩ := h
    exact ⟨_, rfl, rest a b related⟩
  | error e =>
    rcases h with mine | rfl
    · exact .inl mine
    · exact .inr rfl

/-- Without an error of its own the left stops where the right does. -/
theorem error_iff (h : Follows own R x y) (notOwn : ∀ e, x = .error e → ¬ own e) (e : ε) :
    x = .error e ↔ y = .error e := by
  cases x with
  | ok a =>
    obtain ⟨b, rfl, -⟩ := h
    constructor <;> rintro ⟨⟩
  | error e' =>
    rw [show y = .error e' from h.resolve_left (notOwn e' rfl), Except.error.injEq, Except.error.injEq]

/-- **Step by step.** -/
theorem foldlM {f : α → γ → Except ε α} {g : β → γ → Except ε β} {a : α} {b : β} (init : R a b)
    (step : ∀ a b c, R a b → Follows own R (f a c) (g b c)) (l : List γ) :
    Follows own R (l.foldlM f a) (l.foldlM g b) := by
  induction l generalizing a b with
  | nil => exact .ok init
  | cons c l ih => exact (step a b c init).bind fun _ _ related => ih related

end Follows

/-- Whenever `f` comes to an end, what its states carry has gone through `g`, in which it may have failed. -/
def Carries (part : α → Except ε β) (f : α → Except ε α) (g : β → Except ε β) : Prop :=
  ∀ a a', f a = .ok a' → (part a).bind g = part a'

namespace Carries

variable {part : α → Except ε β} {f f' : α → Except ε α} {g g' : β → Except ε β}

theorem bind (first : Carries part f g) (second : Carries part f' g') :
    Carries part (fun a => (f a).bind f') (fun b => (g b).bind g') := by
  intro a a' result
  dsimp only at result
  cases front : f a with
  | error e =>
    rw [front] at result
    cases result
  | ok m =>
    rw [front] at result
    rw [← second m a' result, ← first a m front]
    cases part a <;> rfl

theorem map {h : α → α} {k : β → β} (first : Carries part f g) (same : ∀ a, part (h a) = (part a).map k) :
    Carries part (fun a => (f a).map h) (fun b => (g b).map k) := by
  intro a a' result
  dsimp only at result
  cases front : f a with
  | error e =>
    rw [front] at result
    cases result
  | ok m =>
    rw [front] at result
    cases result
    rw [same, ← first a m front]
    cases part a <;> rfl

/-- **Step by step.** -/
theorem foldlM {f : α → γ → Except ε α} {g : β → γ → Except ε β} (step : ∀ c, Carries part (f · c) (g · c))
    (l : List γ) : Carries part (fun a => l.foldlM f a) (fun b => l.foldlM g b) := by
  induction l with
  | nil =>
    intro a a' result
    cases result
    cases part a <;> rfl
  | cons c l ih => exact (step c).bind ih

end Carries

end SpiderFrame.Base
