import Mathlib.Data.BitVec
import Mathlib.Data.Nat.Bitwise
import SpiderFrame.Base.Fibres
import SpiderFrame.Hash.Module

/-!
# The buckets of a table (`sf_hashmodule.c`)

`HashModuleInit` allocates `BITS_TO_NUM(S)` buckets, and `KeyToItem` picks one for a key: the low `S`
bits of `7591 * key`, with the windows of `S` bits above them folded in by exclusive or. The last
window ends in zeros when `S` does not divide 32. Multiplication by 7591 permutes the words, and for
given high bits the fold permutes the low ones, so every bucket gets as many keys as any other
(`keyToItem_balanced`).
-/

namespace SpiderFrame.Hash
open SpiderFrame.Base

variable {S : Nat}

/-- `BITS_TO_NUM(bits)`. -/
def bitsToNum (bits : Nat) : Word32 := (0xffffffff#32 >>> (32 - bits)) + 1#32

/-- The `while (key)` loop of `KeyToItem`; `none` is a loop that has not ended within the rounds. -/
def foldKeyWithin (shift : Nat) (mask : Word32) : Nat → Word32 → Word32 → Option Word32
  | 0, key1, key => if key = 0#32 then some key1 else none
  | rounds + 1, key1, key =>
    if key = 0#32 then some key1
    else foldKeyWithin shift mask rounds (key1 ^^^ (mask &&& key)) (key <<< shift)

/-- `KeyToItem` with its loop, as the index that it computes. -/
def keyToItemWithin (rounds S : Nat) (key : Word32) : Option Nat :=
  let key := key * 7591#32
  let mask := 0xffffffff#32 <<< (32 - S)
  let key1 := key <<< (32 - S)
  let key := (key >>> S) <<< S
  (foldKeyWithin S mask rounds key1 key).map fun key1 : Word32 => (key1 >>> (32 - S)).toNat

/-! ## The loop ends -/

/-- The loop ends by its own test when 32 bits are shifted out. -/
theorem foldKeyWithin_eq (shift : Nat) (mask x : Word32) : ∀ (rounds j : Nat) (key1 : Word32),
    32 ≤ j + shift * rounds → foldKeyWithin shift mask rounds key1 (x <<< j) =
      some (foldKey shift mask rounds key1 (x <<< j))
  | 0, j, key1, out => by
    have gone : x <<< j = 0#32 := BitVec.shiftLeft_eq_zero (by omega)
    rw [gone, foldKeyWithin, if_pos rfl, foldKey_zero]
  | rounds + 1, j, key1, out => by
    rw [foldKeyWithin, foldKey]
    split
    · rfl
    · rw [← BitVec.shiftLeft_add]
      apply foldKeyWithin_eq shift mask x rounds (j + shift)
      rw [Nat.mul_succ] at out
      omega

/-- **`KeyToItem` ends, with the index of its bucket.** -/
theorem keyToItemWithin_eq (pos : 0 < S) (key : Word32) :
    keyToItemWithin 32 S key = some (keyToItem S key).val := by
  have out : 32 ≤ S + S * 32 := by omega
  unfold keyToItemWithin
  dsimp only
  rw [foldKeyWithin_eq _ _ _ 32 S _ out]
  rfl

/-! ## The fold is an exclusive or -/

theorem foldKey_xor (shift : Nat) (mask a : Word32) : ∀ (rounds : Nat) (b key : Word32),
    foldKey shift mask rounds (a ^^^ b) key = a ^^^ foldKey shift mask rounds b key
  | 0, b, key => rfl
  | rounds + 1, b, key => by
    rw [foldKey, foldKey]
    split
    · rfl
    · rw [BitVec.xor_assoc]
      exact foldKey_xor shift mask a rounds _ _

/-- What the bits `high` above the low ones are folded to. -/
def foldHigh (S high : Nat) : Nat :=
  (foldKey S (0xffffffff#32 <<< (32 - S)) 32 0#32 (BitVec.ofNat 32 high <<< S) >>> (32 - S)).toNat

/-- The top `S` bits of a word. -/
theorem top_lt (le : S ≤ 32) (x : Word32) : (x >>> (32 - S)).toNat < 2 ^ S := by
  have bits := BitVec.toNat_ushiftRight_lt x (32 - S) (by omega)
  have width : 32 - (32 - S) = S := by omega
  rwa [width] at bits

/-- Shifting up and down again keeps the low `S` bits. -/
theorem low_toNat (le : S ≤ 32) (x : Word32) :
    ((x <<< (32 - S)) >>> (32 - S)).toNat = x.toNat % 2 ^ S := by
  have whole : 2 ^ 32 = 2 ^ S * 2 ^ (32 - S) := by
    rw [Nat.mul_comm, Nat.pow_sub_mul_pow 2 le]
  rw [BitVec.toNat_ushiftRight, BitVec.toNat_shiftLeft, Nat.shiftLeft_eq, Nat.shiftRight_eq_div_pow,
    whole, Nat.mul_mod_mul_right]
  exact Nat.mul_div_cancel _ (Nat.two_pow_pos _)

theorem high_ofNat (S : Nat) (x : Word32) : x >>> S = BitVec.ofNat 32 (x.toNat / 2 ^ S) := by
  apply BitVec.eq_of_toNat_eq
  have small : x.toNat / 2 ^ S < 2 ^ 32 := Nat.lt_of_le_of_lt (Nat.div_le_self _ _) x.isLt
  rw [BitVec.toNat_ushiftRight, BitVec.toNat_ofNat, Nat.shiftRight_eq_div_pow,
    Nat.mod_eq_of_lt small]

/-- **The index is the low bits with the folded high bits.** -/
theorem keyToItem_val (le : S ≤ 32) (key : Word32) :
    (keyToItem S key).val =
      (key * 7591#32).toNat % 2 ^ S ^^^ foldHigh S ((key * 7591#32).toNat / 2 ^ S) := by
  generalize product : key * 7591#32 = x
  have split : (keyToItem S key).val = (foldKey S (0xffffffff#32 <<< (32 - S)) 32
      (x <<< (32 - S) ^^^ 0#32) ((x >>> S) <<< S) >>> (32 - S)).toNat := by
    rw [BitVec.xor_zero, ← product]
    rfl
  rw [split, foldKey_xor, BitVec.ushiftRight_xor_distrib, BitVec.toNat_xor, low_toNat le,
    high_ofNat S x]
  rfl

/-! ## The buckets are equally full -/

/-- The key times 7591, undone by its inverse modulo `2 ^ 32`. -/
def mulPerm : Equiv.Perm Word32 where
  toFun key := key * 7591#32
  invFun x := x * 0xe43eba17#32
  left_inv key := by
    have inverse : 7591#32 * 0xe43eba17#32 = 1#32 := by decide
    show key * 7591#32 * 0xe43eba17#32 = key
    rw [BitVec.mul_assoc, inverse, BitVec.mul_one]
  right_inv x := by
    have inverse : 0xe43eba17#32 * 7591#32 = 1#32 := by decide
    show x * 0xe43eba17#32 * 7591#32 = x
    rw [BitVec.mul_assoc, inverse, BitVec.mul_one]

/-- A word as its bits above the low `S` and these. -/
def splitWord (le : S ≤ 32) : Word32 ≃ Fin (2 ^ (32 - S)) × Fin (2 ^ S) :=
  have whole : 2 ^ 32 = 2 ^ (32 - S) * 2 ^ S := by rw [← Nat.pow_add]; congr 1; omega
  BitVec.equivFin.toEquiv.trans ((finCongr whole).trans finProdFinEquiv.symm)

/-- The fold of given high bits, as a permutation of the buckets. -/
def foldPerm (le : S ≤ 32) (high : Nat) : Equiv.Perm (Fin (2 ^ S)) :=
  Function.Involutive.toPerm
    (fun low => ⟨low ^^^ foldHigh S high, Nat.xor_lt_two_pow low.isLt (top_lt le _)⟩)
    fun _ => Fin.ext (Nat.xor_xor_cancel_right _ _)

theorem keyToItem_split (le : S ≤ 32) :
    keyToItem S = (fun p : Fin (2 ^ (32 - S)) × Fin (2 ^ S) => foldPerm le p.1.val p.2) ∘
      mulPerm.trans (splitWord le) := by
  funext key
  apply Fin.ext
  rw [keyToItem_val le]
  rfl

theorem keyToItem_equal (le : S ≤ 32) : EqualFibres (keyToItem S) (2 ^ (32 - S)) := by
  have perms := equalFibres_perms fun high : Fin (2 ^ (32 - S)) => foldPerm le high.val
  rw [Nat.card_fin] at perms
  rw [keyToItem_split le]
  exact perms.comp _

/-! ## The table of `HashModuleInit` -/

theorem bitsToNum_toNat (small : S < 32) : (bitsToNum S).toNat = 2 ^ S := by
  have whole : 2 ^ 32 = 2 ^ S * 2 ^ (32 - S) := by
    rw [Nat.mul_comm, Nat.pow_sub_mul_pow 2 (Nat.le_of_lt small)]
  have pos := Nat.two_pow_pos S
  have ones : (0xffffffff#32 >>> (32 - S)).toNat = 2 ^ S - 1 := by
    have pos' := Nat.two_pow_pos (32 - S)
    have below : (2 ^ S - 1) * 2 ^ (32 - S) = 2 ^ 32 - 2 ^ (32 - S) := by
      rw [Nat.sub_mul, Nat.one_mul, whole]
    have le : 2 ^ (32 - S) ≤ 2 ^ 32 := Nat.pow_le_pow_right (by omega) (by omega)
    have next : (2 ^ S - 1 + 1) * 2 ^ (32 - S) = 2 ^ 32 := by rw [Nat.sub_add_cancel pos, whole]
    rw [BitVec.toNat_ushiftRight, Nat.shiftRight_eq_div_pow]
    show (2 ^ 32 - 1) / 2 ^ (32 - S) = 2 ^ S - 1
    apply Nat.div_eq_of_lt_le
    · rw [below]
      omega
    · rw [next]
      omega
  have room : 2 ^ S < 2 ^ 32 := Nat.pow_lt_pow_right (by omega) small
  rw [bitsToNum, BitVec.toNat_add, ones]
  show (2 ^ S - 1 + 1) % 2 ^ 32 = 2 ^ S
  rw [Nat.sub_add_cancel pos, Nat.mod_eq_of_lt room]

theorem hashModuleInit_isSome {α : Type*} (made : (hashModuleInit α S).isSome = true) :
    4 ≤ S ∧ S ≤ 24 := by
  unfold hashModuleInit at made
  split at made
  · cases made
  · omega

/-- **In a table of `HashModuleInit`, every key has a bucket, and every bucket the same number of
keys.** -/
theorem keyToItem_balanced (α : Type*) (S : Nat) (made : (hashModuleInit α S).isSome = true) :
    (∀ key, ∃ index, keyToItemWithin 32 S key = some index ∧ index < (bitsToNum S).toNat) ∧
      (bitsToNum S).toNat = 2 ^ S ∧
      ∀ index < 2 ^ S,
        Nat.card {key : Word32 // keyToItemWithin 32 S key = some index} = 2 ^ (32 - S) := by
  obtain ⟨low, high⟩ := hashModuleInit_isSome made
  have num : (bitsToNum S).toNat = 2 ^ S := bitsToNum_toNat (by omega)
  have ends : ∀ key, keyToItemWithin 32 S key = some (keyToItem S key).val :=
    keyToItemWithin_eq (by omega)
  refine ⟨fun key => ⟨_, ends key, ?_⟩, num, fun index inside => ?_⟩
  · rw [num]
    exact (keyToItem S key).isLt
  · have sameKeys : ∀ key, keyToItemWithin 32 S key = some index ↔
        keyToItem S key = ⟨index, inside⟩ := by
      intro key
      rw [ends, Option.some_inj, Fin.ext_iff]
    rw [Nat.card_congr (Equiv.subtypeEquivRight sameKeys)]
    exact keyToItem_equal (by omega) ⟨index, inside⟩

/-- The table of URLs has 16 bits. -/
theorem keyToItem_balanced_urls : (hashModuleInit Nat 16).isSome = true ∧ ∀ index < 2 ^ 16,
    Nat.card {key : Word32 // keyToItemWithin 32 16 key = some index} = 2 ^ 16 :=
  ⟨rfl, (keyToItem_balanced Nat 16 rfl).2.2⟩

end SpiderFrame.Hash
