import Mathlib.Data.List.Basic

/-!
# Folding over blocks

A function of blocks of `n` items is folded over a list, block by block; what is left behind the last block is
the `rest`. `hash_append` and `rest_append` say how a reader goes on that keeps the rest of what it has seen.
-/

namespace SpiderFrame.Base.Blocks

section

variable {α σ : Type*} (n : Nat) (f : σ → List α → σ)

/-- So many blocks. -/
def absorb : Nat → σ → List α → σ
  | 0, s, _ => s
  | k + 1, s, xs => absorb k (f s (xs.take n)) (xs.drop n)

/-- All blocks of a list. -/
def hash (s : σ) (xs : List α) : σ := absorb n f (xs.length / n) s xs

/-- What is behind the last block. -/
def rest (xs : List α) : List α := xs.drop (xs.length / n * n)

variable {n f} {xs ys : List α} {s : σ} {j k : Nat}

theorem absorb_add (j k : Nat) (s : σ) (xs : List α) :
    absorb n f (j + k) s xs = absorb n f k (absorb n f j s xs) (xs.drop (j * n)) := by
  induction j generalizing s xs with
  | zero => rw [Nat.zero_add, Nat.zero_mul, List.drop_zero, absorb]
  | succ j ih =>
    rw [Nat.succ_add, absorb, ih, absorb, List.drop_drop, Nat.succ_mul, Nat.add_comm n]

theorem absorb_append (enough : k * n ≤ xs.length) : absorb n f k s (xs ++ ys) = absorb n f k s xs := by
  induction k generalizing s xs with
  | zero => rfl
  | succ k ih =>
    rw [Nat.succ_mul] at enough
    have first : n ≤ xs.length := Nat.le_trans (Nat.le_add_left _ _) enough
    have more : k * n ≤ (xs.drop n).length := by
      rw [List.length_drop]
      omega
    rw [absorb, absorb, List.take_append_of_le_length first, List.drop_append_of_le_length first, ih more]

theorem rest_length : (rest n xs).length = xs.length % n := by
  rw [rest, List.length_drop, Nat.mod_eq_sub_div_mul]

theorem whole_le : xs.length / n * n ≤ xs.length := Nat.div_mul_le_self _ _

theorem drop_whole : (xs ++ ys).drop (xs.length / n * n) = rest n xs ++ ys := by
  rw [List.drop_append_of_le_length whole_le, rest]

theorem blocks_append (pos : 0 < n) :
    (xs ++ ys).length / n = xs.length / n + (rest n xs ++ ys).length / n := by
  rw [List.length_append, List.length_append, rest_length]
  conv_lhs => rw [← Nat.div_add_mod xs.length n, Nat.add_assoc]
  exact Nat.mul_add_div pos _ _

/-- **Folding goes on with the rest.** -/
theorem hash_append (pos : 0 < n) : hash n f s (xs ++ ys) = hash n f (hash n f s xs) (rest n xs ++ ys) := by
  rw [hash, blocks_append pos, absorb_add, drop_whole, absorb_append whole_le]
  rfl

theorem rest_append (pos : 0 < n) : rest n (xs ++ ys) = rest n (rest n xs ++ ys) := by
  rw [rest, blocks_append pos, Nat.add_mul, ← List.drop_drop, drop_whole]
  rfl

theorem hash_short (short : xs.length < n) : hash n f s xs = s := by
  rw [hash, Nat.div_eq_of_lt short, absorb]

theorem rest_short (short : xs.length < n) : rest n xs = xs := by
  rw [rest, Nat.div_eq_of_lt short, Nat.zero_mul, List.drop_zero]

theorem hash_block (pos : 0 < n) (whole : xs.length = n) : hash n f s xs = f s xs := by
  rw [hash, whole, Nat.div_self pos, absorb, absorb, List.take_of_length_le (Nat.le_of_eq whole)]

theorem rest_whole (whole : xs.length % n = 0) : rest n xs = [] :=
  List.eq_nil_of_length_eq_zero (rest_length.trans whole)

end

end SpiderFrame.Base.Blocks
