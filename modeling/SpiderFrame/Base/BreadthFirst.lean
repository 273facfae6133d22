import Mathlib.Order.Bounds.Defs
import Mathlib.Algebra.Order.Ring.Int
import SpiderFrame.Base.Worklist

/-!
# Worklists visit breadth first

The items of a worklist stand for the nodes of a graph, and an item has a level: that of the
items it starts with is zero, and that of a child one more than that of its parent. Then the
levels never go down from one item to the next, those in the list are at most one more than
that of the item in hand, and the level of an item is the number of hops from a seed to its
node (`Layered.least`).
-/

namespace SpiderFrame.Base.BreadthFirst
open Worklist

variable {ρ ν : Type*}

/-- The node is that many links away from a seed. -/
inductive Hops (links : ν → List ν) (seeds : List ν) : Nat → ν → Prop
  | seed {v : ν} : v ∈ seeds → Hops links seeds 0 v
  | link {n : Nat} {v w : ν} : Hops links seeds n v → w ∈ links v → Hops links seeds (n + 1) w

/-- The list `L` with the item `c` in hand and all items before it expanded. -/
structure Layered (node : ρ → ν) (lvl : ρ → Int) (links : ν → List ν) (seeds : List ν)
    (L : List ρ) (c : Nat) : Prop where
  sorted : L.Pairwise fun x y => lvl x ≤ lvl y
  window : ∀ r, L[c]? = some r → ∀ x ∈ L, lvl x ≤ lvl r + 1
  hops : ∀ x ∈ L, ∃ n : Nat, lvl x = n ∧ Hops links seeds n (node x)
  seeded : ∀ v ∈ seeds, ∃ x ∈ L, node x = v ∧ lvl x ≤ 0
  closed : ∀ j r, j < c → L[j]? = some r → ∀ v ∈ links (node r), ∃ x ∈ L, node x = v ∧
    lvl x ≤ lvl r + 1
  parents : ∀ x ∈ L, lvl x = 0 ∨ ∃ j r, j ≤ c ∧ L[j]? = some r ∧ lvl x = lvl r + 1
  same : ∀ x ∈ L, ∀ y ∈ L, node x = node y → lvl x = lvl y

section Layers

variable {node : ρ → ν} {lvl : ρ → Int} {links : ν → List ν} {seeds : List ν} {L : List ρ}
  {c : Nat} {r x : ρ}

/-- Of two items of a sorted list the one of lower level comes first. -/
theorem Layered.index_lt (h : Layered node lvl links seeds L c) {i j : Nat} (hi : L[i]? = some x)
    (hj : L[j]? = some r) (lower : lvl x < lvl r) : i < j := by
  obtain ⟨insideI, rfl⟩ := List.getElem?_eq_some_iff.1 hi
  obtain ⟨insideJ, rfl⟩ := List.getElem?_eq_some_iff.1 hj
  by_contra later
  rcases Nat.lt_or_eq_of_le (Nat.le_of_not_lt later) with before | rfl
  · have up := List.pairwise_iff_getElem.1 h.sorted j i insideJ insideI before
    omega
  · omega

/-! ## Steps -/

theorem Layered.first (zero : ∀ x ∈ L, lvl x = 0) :
    Layered node lvl links (L.map node) L 0 := by
  refine ⟨?_, ?_, ?_, ?_, ?_, ?_, ?_⟩
  · refine List.pairwise_iff_forall_sublist.2 fun {x y} sub => ?_
    rw [zero x (sub.subset (by simp)), zero y (sub.subset (by simp))]
  · intro r hr x hx
    rw [zero x hx, zero r (List.mem_of_getElem? hr)]
    omega
  · intro x hx
    exact ⟨0, zero x hx, .seed (List.mem_map_of_mem hx)⟩
  · intro v hv
    obtain ⟨x, hx, rfl⟩ := List.mem_map.1 hv
    exact ⟨x, hx, rfl, Int.le_of_eq (zero x hx)⟩
  · intro j r hj
    omega
  · exact fun x hx => .inl (zero x hx)
  · intro x hx y hy _
    rw [zero x hx, zero y hy]

/-- A child of the item in hand whose node is new comes last. -/
theorem Layered.push_new (h : Layered node lvl links seeds L c) (here : L[c]? = some r)
    (child : node x ∈ links (node r)) (below : lvl x = lvl r + 1) (new : node x ∉ L.map node) :
    Layered node lvl links seeds (L ++ [x]) c := by
  have inside := (List.getElem?_eq_some_iff.1 here).1
  have kept : ∀ {j r'}, L[j]? = some r' → (L ++ [x])[j]? = some r' :=
    fun hj => prefix_getElem? (List.prefix_append L [x]) hj
  have old : ∀ {j}, j < L.length → (L ++ [x])[j]? = L[j]? := List.getElem?_append_left
  refine ⟨?_, ?_, ?_, ?_, ?_, ?_, ?_⟩
  · refine List.pairwise_append.2 ⟨h.sorted, List.pairwise_singleton _ _, fun y hy z hz => ?_⟩
    rw [List.mem_singleton.1 hz, below]
    exact h.window r here y hy
  · intro r' hr' y hy
    rw [old inside, here, Option.some_inj] at hr'
    subst hr'
    rcases List.mem_append.1 hy with hy | hy
    · exact h.window r here y hy
    · rw [List.mem_singleton.1 hy, below]
  · intro y hy
    rcases List.mem_append.1 hy with hy | hy
    · exact h.hops y hy
    · obtain ⟨n, level, hop⟩ := h.hops r (List.mem_of_getElem? here)
      rw [List.mem_singleton.1 hy]
      exact ⟨n + 1, by omega, .link hop child⟩
  · intro v hv
    obtain ⟨y, hy, found⟩ := h.seeded v hv
    exact ⟨y, List.mem_append_left _ hy, found⟩
  · intro j r' hj hr' v hv
    rw [old (by omega)] at hr'
    obtain ⟨y, hy, found⟩ := h.closed j r' hj hr' v hv
    exact ⟨y, List.mem_append_left _ hy, found⟩
  · intro y hy
    rcases List.mem_append.1 hy with hy | hy
    · rcases h.parents y hy with zero | ⟨j, r', le, hr', level⟩
      · exact .inl zero
      · exact .inr ⟨j, r', le, kept hr', level⟩
    · rw [List.mem_singleton.1 hy]
      exact .inr ⟨c, r, Nat.le_refl c, kept here, below⟩
  · have apart : ∀ y ∈ L, node y ≠ node x := fun y hy e => new (e ▸ List.mem_map_of_mem hy)
    intro y hy z hz e
    rcases List.mem_append.1 hy with hy | hy <;> rcases List.mem_append.1 hz with hz | hz
    · exact h.same y hy z hz e
    · rw [List.mem_singleton.1 hz] at e
      exact absurd e (apart y hy)
    · rw [List.mem_singleton.1 hy] at e
      exact absurd e.symm (apart z hz)
    · rw [List.mem_singleton.1 hy, List.mem_singleton.1 hz]

/-- The item in hand is done with when the nodes it links to are all there. -/
theorem Layered.next (h : Layered node lvl links seeds L c)
    (all : ∀ r, L[c]? = some r → ∀ v ∈ links (node r), v ∈ L.map node) :
    Layered node lvl links seeds L (c + 1) := by
  refine ⟨h.sorted, ?_, h.hops, h.seeded, ?_, ?_, h.same⟩
  · intro r' hr' x hx
    have inside := (List.getElem?_eq_some_iff.1 hr').1
    obtain ⟨r, here⟩ : ∃ r, L[c]? = some r := ⟨_, List.getElem?_eq_getElem (by omega)⟩
    have above := h.window r here x hx
    by_contra high
    have order := h.index_lt hr' here (by omega)
    omega
  · intro j r hj hr v hv
    rcases Nat.lt_succ_iff_lt_or_eq.1 hj with before | rfl
    · exact h.closed j r before hr v hv
    · obtain ⟨x, hx, rfl⟩ := List.mem_map.1 (all r hr v hv)
      exact ⟨x, hx, rfl, h.window r hr x hx⟩
  · intro x hx
    rcases h.parents x hx with zero | ⟨j, r, le, hr, level⟩
    · exact .inl zero
    · exact .inr ⟨j, r, Nat.le_succ_of_le le, hr, level⟩

/-! ## Least hops -/

/-- What is fewer hops away than the level of some item is in the list. -/
theorem Layered.reached (h : Layered node lvl links seeds L c) {n : Nat} {v : ν}
    (hop : Hops links seeds n v) : ∀ y ∈ L, n < lvl y → ∃ x ∈ L, node x = v ∧ lvl x ≤ n := by
  induction hop with
  | seed hv => exact fun _ _ _ => h.seeded _ hv
  | @link n v w _ linked ih =>
    intro y hy deeper
    rcases h.parents y hy with zero | ⟨j, r, le, hr, level⟩
    · omega
    · -- the parent of `y` is deeper than `v`, so `v` has been expanded before it
      obtain ⟨x, hx, rfl, low⟩ := ih r (List.mem_of_getElem? hr) (by omega)
      obtain ⟨i, hi⟩ := List.mem_iff_getElem?.1 hx
      have before := h.index_lt hi hr (by omega)
      obtain ⟨z, hz, found, near⟩ := h.closed i x (by omega) hi w linked
      exact ⟨z, hz, found, by omega⟩

/-- **The level of an item is the least number of hops to its node.** -/
theorem Layered.least (h : Layered node lvl links seeds L c) (hx : x ∈ L) :
    ∃ d : Nat, lvl x = d ∧ IsLeast {n | Hops links seeds n (node x)} d := by
  obtain ⟨d, level, hop⟩ := h.hops x hx
  refine ⟨d, level, hop, fun n other => Nat.le_of_not_lt fun fewer => ?_⟩
  obtain ⟨y, hy, e, low⟩ := h.reached other x hx (by omega)
  have equal := h.same y hy x hx e
  omega

end Layers

/-! ## Runs -/

section Runs

variable [DecidableEq ν] {node : ρ → ν} {lvl : ρ → Int} {links : ν → List ν}
  {children : ρ → List ρ} {F G pre : List ρ} {c : Nat}
  (page : ∀ r, (children r).map node = links (node r))
  (below : ∀ r, ∀ x ∈ children r, lvl x = lvl r + 1)

include page below

/-- Children of the item in hand are pushed one by one. -/
theorem Layered.pushAll {seeds : List ν} {L xs : List ρ} {r : ρ}
    (h : Layered node lvl links seeds L c) (here : L[c]? = some r) (sub : xs ⊆ children r) :
    Layered node lvl links seeds (pushAll node L xs) c := by
  induction xs generalizing L with
  | nil => exact h
  | cons x xs ih =>
    rw [pushAll_cons]
    have child := sub (List.mem_cons_self ..)
    have linked : node x ∈ links (node r) := page r ▸ List.mem_map_of_mem child
    have rest : xs ⊆ children r := List.Subset.trans (List.subset_cons_self x xs) sub
    refine ih ?_ (prefix_getElem? (prefix_push L x) here) rest
    by_cases known : node x ∈ L.map node
    · rwa [push_known known]
    · rw [Worklist.push_new known]
      exact h.push_new here linked (below r x child) known

variable (zero : ∀ x ∈ F, lvl x = 0)

include zero

theorem layered_drain (n : Nat) :
    Layered node lvl links (F.map node) (drain node children F 0 n) n := by
  induction n with
  | zero => exact .first zero
  | succ n ih =>
    cases here : item node children F 0 n with
    | none =>
      rw [drain_stop here]
      apply ih.next
      intro r hr
      rw [item, Nat.zero_add, hr] at here
      cases here
    | some r =>
      have inHand : (drain node children F 0 n)[n]? = some r := by rwa [item, Nat.zero_add] at here
      rw [drain_succ here]
      apply (ih.pushAll page below inHand (List.Subset.refl _)).next
      intro r' hr' v hv
      have grown : drain node children F 0 n <+:
          Worklist.pushAll node (drain node children F 0 n) (children r) := prefix_pushAll _ _
      have same := prefix_getElem? grown inHand
      obtain rfl : r = r' := Option.some.inj (same.symm.trans hr')
      rw [← page r] at hv
      obtain ⟨x, hx, rfl⟩ := List.mem_map.1 hv
      exact key_mem_pushAll hx

/-- **Every stage of a worklist is layered.** -/
theorem layered_stage (stage : Stage node children F 0 c pre G) :
    Layered node lvl links (F.map node) G c := by
  have drained := layered_drain page below zero c
  rw [stage.list]
  cases here : item node children F 0 c with
  | none =>
    rw [stage.atEnd here]
    exact drained
  | some r =>
    have inHand : (drain node children F 0 c)[c]? = some r := by rwa [item, Nat.zero_add] at here
    exact drained.pushAll page below inHand (stage.current r here).subset

end Runs

end SpiderFrame.Base.BreadthFirst
