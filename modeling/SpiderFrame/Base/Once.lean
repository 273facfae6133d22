import Mathlib.Data.List.Nodup
import Mathlib.Logic.Function.Basic

/-!
# Queueing at most once

Several parties share a register of the keys seen and a queue. A party first claims a
key that the register does not have, and appends it to the queue at some later time; in
between others may claim and append. `Once` is the invariant that ties the register, the
queue and the claims in flight together; `Once.claim` and `Once.append` keep it. At any
time every key is in the queue at most once, and never if it was there to begin with.
-/

namespace SpiderFrame.Base

/-- Register `seen`, keys `loaded` at the start and `queued` since, and for each party
the key it has claimed and not yet queued. -/
structure Once {κ ι : Type*} (seen : κ → Prop) (loaded queued : List κ) (claimed : ι → Option κ) :
    Prop where
  seen_iff : ∀ k, seen k ↔ k ∈ loaded ∨ k ∈ queued ∨ ∃ i, claimed i = some k
  distinct : queued.Nodup
  fresh : ∀ k ∈ queued, k ∉ loaded
  pending : ∀ i k, claimed i = some k → k ∉ loaded ∧ k ∉ queued
  apart : ∀ i j k, claimed i = some k → claimed j = some k → i = j

namespace Once

variable {κ ι : Type*} {seen seen' : κ → Prop} {loaded queued : List κ} {claimed : ι → Option κ}
  {i : ι} {k : κ}

/-- The register of the loaded keys, nothing queued and nothing in flight. -/
theorem init (h : ∀ k, seen k ↔ k ∈ loaded) : Once seen loaded [] (fun _ : ι => none) where
  seen_iff k := by simp [h]
  distinct := List.nodup_nil
  fresh k hk := by cases hk
  pending i k hk := by cases hk
  apart i j k hi := by cases hi

/-- With nothing in flight, a key seen was loaded and not queued since, or queued once. -/
theorem settled [BEq κ] [LawfulBEq κ] (h : Once seen loaded queued claimed)
    (quiet : ∀ i, claimed i = none) (hk : seen k) :
    (k ∈ loaded ∧ queued.count k = 0) ∨ (k ∉ loaded ∧ queued.count k = 1) := by
  rw [h.seen_iff] at hk
  rcases hk with hl | hq | ⟨i, hi⟩
  · exact .inl ⟨hl, List.count_eq_zero.2 fun hq => h.fresh k hq hl⟩
  · exact .inr ⟨h.fresh k hq, List.count_eq_one_of_mem h.distinct hq⟩
  · rw [quiet i] at hi
    cases hi

section Steps

variable [DecidableEq ι]

theorem update_some {j : ι} {k' : κ} :
    Function.update claimed i (some k) j = some k' ↔
      (j = i ∧ k' = k) ∨ (j ≠ i ∧ claimed j = some k') := by
  by_cases own : j = i
  · subst own
    simp [eq_comm]
  · simp [own]

theorem update_none {j : ι} {k' : κ} :
    Function.update claimed i none j = some k' ↔ j ≠ i ∧ claimed j = some k' := by
  by_cases own : j = i
  · subst own
    simp
  · simp [own]

/-- A party with nothing in flight claims a key that nobody has seen. -/
theorem claim (h : Once seen loaded queued claimed) (idle : claimed i = none) (new : ¬ seen k)
    (registered : ∀ k', seen' k' ↔ k' = k ∨ seen k') :
    Once seen' loaded queued (Function.update claimed i (some k)) := by
  rw [h.seen_iff, not_or, not_or, not_exists] at new
  obtain ⟨notLoaded, notQueued, notClaimed⟩ := new
  refine ⟨fun k' => ?_, h.distinct, h.fresh, ?_, ?_⟩
  · rw [registered, h.seen_iff]
    constructor
    · rintro (rfl | hl | hq | ⟨j, hj⟩)
      · exact .inr (.inr ⟨i, update_some.2 (.inl ⟨rfl, rfl⟩)⟩)
      · exact .inl hl
      · exact .inr (.inl hq)
      · have other : j ≠ i := fun e => by rw [e, idle] at hj; cases hj
        exact .inr (.inr ⟨j, update_some.2 (.inr ⟨other, hj⟩)⟩)
    · rintro (hl | hq | ⟨j, hj⟩)
      · exact .inr (.inl hl)
      · exact .inr (.inr (.inl hq))
      · rcases update_some.1 hj with ⟨-, same⟩ | ⟨-, older⟩
        · exact .inl same
        · exact .inr (.inr (.inr ⟨j, older⟩))
  · intro j k' hj
    rcases update_some.1 hj with ⟨-, rfl⟩ | ⟨-, older⟩
    · exact ⟨notLoaded, notQueued⟩
    · exact h.pending j k' older
  · -- the new claim differs from every older one
    intro j j' k' hj hj'
    rcases update_some.1 hj with ⟨rfl, rfl⟩ | ⟨-, older⟩ <;>
      rcases update_some.1 hj' with ⟨rfl, same⟩ | ⟨-, older'⟩
    · rfl
    · exact absurd older' (notClaimed j')
    · exact absurd (same ▸ older) (notClaimed j)
    · exact h.apart j j' k' older older'

/-- A party appends the key it has claimed. -/
theorem append (h : Once seen loaded queued claimed) (mine : claimed i = some k) :
    Once seen loaded (queued ++ [k]) (Function.update claimed i none) := by
  obtain ⟨notLoaded, notQueued⟩ := h.pending i k mine
  refine ⟨fun k' => ?_, ?_, ?_, ?_, ?_⟩
  · rw [h.seen_iff, List.mem_append, List.mem_singleton]
    constructor
    · rintro (hl | hq | ⟨j, hj⟩)
      · exact .inl hl
      · exact .inr (.inl (.inl hq))
      · by_cases own : j = i
        · rw [own, mine, Option.some_inj] at hj
          exact .inr (.inl (.inr hj.symm))
        · exact .inr (.inr ⟨j, update_none.2 ⟨own, hj⟩⟩)
    · rintro (hl | (hq | rfl) | ⟨j, hj⟩)
      · exact .inl hl
      · exact .inr (.inl hq)
      · exact .inr (.inr ⟨i, mine⟩)
      · exact .inr (.inr ⟨j, (update_none.1 hj).2⟩)
  · rw [List.nodup_append]
    refine ⟨h.distinct, List.nodup_singleton k, fun a ha b hb e => notQueued ?_⟩
    rw [List.mem_singleton] at hb
    rw [← hb, ← e]
    exact ha
  · intro k' hk'
    rcases List.mem_append.1 hk' with hq | hk
    · exact h.fresh k' hq
    · rw [List.mem_singleton.1 hk]
      exact notLoaded
  · intro j k' hj
    obtain ⟨other, hj⟩ := update_none.1 hj
    obtain ⟨hl, hq⟩ := h.pending j k' hj
    refine ⟨hl, fun hk' => ?_⟩
    rcases List.mem_append.1 hk' with hq' | hk
    · exact hq hq'
    · rw [List.mem_singleton] at hk
      exact other (h.apart j i k' hj (hk ▸ mine))
  · intro j j' k' hj hj'
    exact h.apart j j' k' (update_none.1 hj).2 (update_none.1 hj').2

end Steps

end Once

end SpiderFrame.Base
