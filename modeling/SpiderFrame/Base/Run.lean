import Mathlib.Data.List.Basic

/-!
# Runs of a transition system

A partial step function over states and actions, its runs over a list of actions
(`exec`), the states it reaches by steps that satisfy a condition (`Reach`), and the
condition held along one run (`Along`). `Reach.invariant` is the induction rule.
-/

namespace SpiderFrame.Base

variable {σ α : Type*} {step : σ → α → Option σ} {C D : σ → α → Prop}

/-- The state after a list of actions, if each of them is possible in its turn. -/
def exec (step : σ → α → Option σ) : σ → List α → Option σ
  | s, [] => some s
  | s, a :: acts => (step s a).bind fun s => exec step s acts

/-- `C` holds of each state and action of a run from `s`. -/
def Along (step : σ → α → Option σ) (C : σ → α → Prop) : σ → List α → Prop
  | _, [] => True
  | s, a :: acts => C s a ∧ ∀ s', step s a = some s' → Along step C s' acts

/-- The states reached from `s₀` by steps that satisfy `C`. -/
inductive Reach (step : σ → α → Option σ) (C : σ → α → Prop) (s₀ : σ) : σ → Prop
  | start : Reach step C s₀ s₀
  | next {s a s'} : Reach step C s₀ s → C s a → step s a = some s' → Reach step C s₀ s'

/-- Every step is allowed. -/
def Any (_ : σ) (_ : α) : Prop := True

namespace Reach

variable {s₀ s s' : σ}

/-- **What holds at the start and is kept by every step holds of every state reached.** -/
theorem invariant {I : σ → Prop} (h : Reach step C s₀ s) (init : I s₀)
    (kept : ∀ s a s', Reach step C s₀ s → I s → C s a → step s a = some s' → I s') : I s := by
  induction h with
  | start => exact init
  | next h allowed taken ih => exact kept _ _ _ h ih allowed taken

theorem mono (h : Reach step C s₀ s) (weaker : ∀ s a, C s a → D s a) : Reach step D s₀ s := by
  induction h with
  | start => exact .start
  | next _ allowed taken ih => exact .next ih (weaker _ _ allowed) taken

theorem any (h : Reach step C s₀ s) : Reach step Any s₀ s := h.mono fun _ _ _ => trivial

theorem trans (h : Reach step C s₀ s) (h' : Reach step C s s') : Reach step C s₀ s' := by
  induction h' with
  | start => exact h
  | next _ allowed taken ih => exact .next ih allowed taken

theorem one {a : α} (allowed : C s a) (taken : step s a = some s') : Reach step C s s' :=
  .next .start allowed taken

end Reach

section Exec

variable {s s' : σ} {acts : List α}

theorem exec_cons {a : α} (h : exec step s (a :: acts) = some s') :
    ∃ m, step s a = some m ∧ exec step m acts = some s' := by
  cases first : step s a with
  | none => simp [exec, first] at h
  | some m => exact ⟨m, rfl, by simpa [exec, first] using h⟩

theorem exec_append (acts acts' : List α) :
    exec step s (acts ++ acts') = (exec step s acts).bind fun s => exec step s acts' := by
  induction acts generalizing s with
  | nil => rfl
  | cons a acts ih =>
    rw [List.cons_append, exec, exec, Option.bind_assoc]
    exact congrArg _ (funext fun m => ih)

theorem along_cons_some {a : α} {m : σ} (first : step s a = some m) :
    Along step C s (a :: acts) ↔ C s a ∧ Along step C m acts := by
  refine and_congr_right fun _ => ⟨fun rest => rest m first, fun rest s' taken => ?_⟩
  rw [first, Option.some_inj] at taken
  exact taken ▸ rest

theorem along_cons_none {a : α} (stuck : step s a = none) :
    Along step C s (a :: acts) ↔ C s a :=
  and_iff_left fun s' taken => by rw [stuck] at taken; cases taken

instance decidableAlong [∀ s a, Decidable (C s a)] :
    ∀ (acts : List α) (s : σ), Decidable (Along step C s acts)
  | [], _ => isTrue trivial
  | a :: acts, s =>
    match first : step s a with
    | none => decidable_of_iff' _ (along_cons_none first)
    | some m =>
      haveI := decidableAlong acts m
      decidable_of_iff' _ (along_cons_some first)

/-- The states of a run all of whose steps satisfy `C`. -/
theorem Along.reach (along : Along step C s acts) (run : exec step s acts = some s') :
    Reach step C s s' := by
  induction acts generalizing s with
  | nil => cases run; exact .start
  | cons a acts ih =>
    obtain ⟨m, first, rest⟩ := exec_cons run
    exact (Reach.one along.1 first).trans (ih (along.2 m first) rest)

/-- The condition at one step of the run. -/
theorem Along.at_step {before after : List α} {a : α} {m : σ}
    (along : Along step C s (before ++ a :: after)) (run : exec step s before = some m) : C m a := by
  induction before generalizing s with
  | nil => cases run; exact along.1
  | cons b before ih =>
    obtain ⟨s₁, first, rest⟩ := exec_cons run
    exact ih (along.2 s₁ first) rest

theorem along_any : ∀ (acts : List α) (s : σ), Along step Any s acts
  | [], _ => trivial
  | _ :: acts, _ => ⟨trivial, fun s' _ => along_any acts s'⟩

theorem exec_reach (run : exec step s acts = some s') : Reach step Any s s' :=
  (along_any acts s).reach run

/-- A condition that fails along a run fails at some step of it. -/
theorem exists_not_along (h : ¬ Along step C s acts) (run : exec step s acts = some s') :
    ∃ m a m', Reach step Any s m ∧ ¬ C m a ∧ step m a = some m' ∧ Reach step Any m' s' := by
  induction acts generalizing s with
  | nil => exact absurd trivial h
  | cons a acts ih =>
    obtain ⟨m, first, rest⟩ := exec_cons run
    by_cases here : C s a
    · have later : ¬ Along step C m acts := fun along =>
        h ⟨here, fun s' taken => by rw [first] at taken; cases taken; exact along⟩
      obtain ⟨m₁, a₁, m₂, before, bad, taken, after⟩ := ih later rest
      exact ⟨m₁, a₁, m₂, (Reach.one trivial first).trans before, bad, taken, after⟩
    · exact ⟨s, a, m, .start, here, first, exec_reach rest⟩

/-- A condition that implies another on the steps of every reachable state does so along runs. -/
theorem Along.imp (along : Along step C s acts)
    (weaker : ∀ m a, Reach step Any s m → C m a → D m a) : Along step D s acts := by
  induction acts generalizing s with
  | nil => trivial
  | cons a acts ih =>
    refine ⟨weaker s a .start along.1, fun s' taken => ih (along.2 s' taken) fun m a h => ?_⟩
    exact weaker m a ((Reach.one trivial taken).trans h)

/-- A weaker condition. -/
theorem Along.mono (along : Along step C s acts) (weaker : ∀ m a, C m a → D m a) :
    Along step D s acts := along.imp fun m a _ => weaker m a

/-- **What holds at the start and is kept by the steps that satisfy a condition holds along a run
of such steps.** -/
theorem Along.carry {I : σ → Prop} (along : Along step C s acts) (init : I s)
    (kept : ∀ m a m', I m → C m a → step m a = some m' → I m') :
    Along step (fun m a => I m ∧ C m a) s acts := by
  induction acts generalizing s with
  | nil => trivial
  | cons a acts ih =>
    refine ⟨⟨init, along.1⟩, fun s' taken => ?_⟩
    exact ih (along.2 s' taken) (kept s a s' init along.1 taken)

/-- **A run whose steps are possible wherever an invariant holds goes through**, and keeps it. -/
theorem Along.complete {I : σ → Prop} (along : Along step C s acts) (init : I s)
    (next : ∀ m a, I m → C m a → ∃ m', step m a = some m' ∧ I m') :
    ∃ s', exec step s acts = some s' ∧ I s' := by
  induction acts generalizing s with
  | nil => exact ⟨s, rfl, init⟩
  | cons a acts ih =>
    obtain ⟨m, taken, inv⟩ := next s a init along.1
    obtain ⟨s', rest, last⟩ := ih (along.2 m taken) inv
    exact ⟨s', by rw [exec, taken]; exact rest, last⟩

/-- **`I` holds after each step of a run if and only if each step satisfies the condition that says
when a step keeps it.** The condition may rely on what every step keeps. -/
theorem along_kept_iff {I J : σ → Prop} (initI : I s) (initJ : J s)
    (always : ∀ m a m', J m → step m a = some m' → J m')
    (keeps : ∀ m a, J m → I m → (C m a ↔ ∀ m', step m a = some m' → I m')) :
    Along step (fun m a => ∀ m', step m a = some m' → I m') s acts ↔ Along step C s acts := by
  constructor
  · intro along
    apply (along.carry (I := fun m => J m ∧ I m) ⟨initJ, initI⟩ ?_).mono
    · intro m a both
      exact (keeps m a both.1.1 both.1.2).2 both.2
    · intro m a m' inv kept taken
      exact ⟨always m a m' inv.1 taken, kept m' taken⟩
  · intro along
    apply (along.carry (I := fun m => J m ∧ I m) ⟨initJ, initI⟩ ?_).mono
    · intro m a both
      exact (keeps m a both.1.1 both.1.2).1 both.2
    · intro m a m' inv allowed taken
      exact ⟨always m a m' inv.1 taken, (keeps m a inv.1 inv.2).1 allowed m' taken⟩

/-- Two conditions that agree on the steps of every reachable state hold along the same runs. -/
theorem along_congr (agree : ∀ m a, Reach step Any s m → (C m a ↔ D m a)) :
    Along step C s acts ↔ Along step D s acts :=
  ⟨fun along => along.imp fun m a h => (agree m a h).1,
    fun along => along.imp fun m a h => (agree m a h).2⟩

end Exec

end SpiderFrame.Base
