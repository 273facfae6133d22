import Mathlib.Data.List.Basic

/-!
# Stores and loads

A memory gives a value for each address. `store` writes a list from an address on and `load` reads
one; a read sees what the last store on its addresses has written.
-/

namespace SpiderFrame.Base

variable {β : Type*}

/-- The memory with a list written from the address `a` on. -/
def store (m : Nat → β) (a : Nat) (l : List β) : Nat → β :=
  fun i => if a ≤ i then (l[i - a]?).getD (m i) else m i

/-- `n` values from the address `a` on. -/
def load (m : Nat → β) (a n : Nat) : List β := (List.range n).map fun i => m (a + i)

@[simp] theorem load_length (m : Nat → β) (a n : Nat) : (load m a n).length = n := by
  simp [load]

@[simp] theorem store_nil (m : Nat → β) (a : Nat) : store m a [] = m := by
  funext i
  simp [store]

theorem store_outside (m : Nat → β) {a i : Nat} {l : List β} (h : i < a ∨ a + l.length ≤ i) :
    store m a l i = m i := by
  unfold store
  split
  · rw [List.getElem?_eq_none (by omega)]
    rfl
  · rfl

/-- One byte, and another address. -/
theorem store_other (m : Nat → β) {a i : Nat} {b : β} (other : i ≠ a) : store m a [b] i = m i :=
  store_outside m (by rw [List.length_singleton]; omega)

theorem store_inside (m : Nat → β) (a : Nat) {i : Nat} {l : List β} (h : i < l.length) :
    store m a l (a + i) = l[i] := by
  rw [store, if_pos (Nat.le_add_right a i), Nat.add_sub_cancel_left, List.getElem?_eq_getElem h]
  rfl

/-- A store right behind another. -/
theorem store_append (m : Nat → β) (a : Nat) (l l' : List β) :
    store (store m a l) (a + l.length) l' = store m a (l ++ l') := by
  funext i
  unfold store
  by_cases first : i < a + l.length
  · rw [if_neg (by omega)]
    by_cases inside : a ≤ i
    · rw [if_pos inside, if_pos inside, List.getElem?_append_left (by omega)]
    · rw [if_neg inside, if_neg inside]
  · rw [if_pos (by omega), if_pos (show a ≤ i by omega), if_pos (show a ≤ i by omega),
      List.getElem?_append_right (by omega), List.getElem?_eq_none (show l.length ≤ i - a by omega),
      Nat.sub_add_eq]
    rfl

/-- Writing what is there already. -/
theorem store_same (m : Nat → β) (a : Nat) : store m a [m a] = m := by
  funext i
  by_cases here : i = a
  · subst here
    exact store_inside m i (show 0 < [m i].length by simp)
  · apply store_outside
    simp only [List.length_singleton]
    omega

theorem load_congr {m m' : Nat → β} {a n : Nat} (h : ∀ i < n, m (a + i) = m' (a + i)) :
    load m a n = load m' a n :=
  List.map_congr_left fun i hi => h i (List.mem_range.1 hi)

theorem load_add (m : Nat → β) (a n k : Nat) :
    load m a (n + k) = load m a n ++ load m (a + n) k := by
  simp [load, List.range_add, Nat.add_assoc]

/-- A load on the addresses of the store before. -/
theorem load_store (m : Nat → β) (a : Nat) (l : List β) : load (store m a l) a l.length = l := by
  apply List.ext_getElem (load_length _ _ _)
  intro i _ hi
  simp only [load, List.getElem_map, List.getElem_range]
  exact store_inside m a hi

/-- A load in front of the store, or behind it, sees what it saw before. -/
theorem load_store_outside (m : Nat → β) {a b n : Nat} {l : List β}
    (h : b + n ≤ a ∨ a + l.length ≤ b) : load (store m a l) b n = load m b n :=
  load_congr fun _ _ => store_outside m (by omega)

/-- **A store behind a text, and the text is longer.** -/
theorem load_store_append (m : Nat → β) (a n : Nat) (l : List β) :
    load (store m (a + n) l) a (n + l.length) = load m a n ++ l := by
  rw [load_add, load_store, load_store_outside m (.inl (Nat.le_refl _))]

/-! ## Lists of stores -/

/-- Several stores, one after the other. -/
def storeAll (m : Nat → β) (ws : List (Nat × List β)) : Nat → β :=
  ws.foldl (fun m w => store m w.1 w.2) m

/-- Each value that the stores write has an address below the bound. -/
def Below (bound : Nat) (ws : List (Nat × List β)) : Prop :=
  ∀ w ∈ ws, ∀ i < w.2.length, w.1 + i < bound

theorem storeAll_snoc (m : Nat → β) (ws : List (Nat × List β)) (w : Nat × List β) :
    storeAll m (ws ++ [w]) = store (storeAll m ws) w.1 w.2 := by
  simp [storeAll]

section Below

variable {bound : Nat} {ws : List (Nat × List β)}

theorem below_snoc {w : Nat × List β} :
    Below bound (ws ++ [w]) ↔ Below bound ws ∧ ∀ i < w.2.length, w.1 + i < bound := by
  simp only [Below, List.mem_append, List.mem_singleton, or_imp, forall_and, forall_eq]

theorem Below.mono {bound' : Nat} (h : Below bound ws) (le : bound ≤ bound') : Below bound' ws :=
  fun w hw i hi => Nat.lt_of_lt_of_le (h w hw i hi) le

end Below

end SpiderFrame.Base
