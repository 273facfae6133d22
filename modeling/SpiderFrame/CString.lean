import Mathlib.Data.List.TakeWhile

/-!
# C strings

A C string is its bytes up to the terminating NUL, so no byte of it is zero. A URL
that can stand in a record of `url.txt` is a C string that `%s` reads back whole: it
is not empty and has no white space.
-/

namespace SpiderFrame

abbrev Byte := BitVec 8

/-- `isspace` in the C locale: space, and `\t` to `\r`. -/
def isSpace (b : Byte) : Bool := b == 32#8 || (9#8 ≤ b && b ≤ 13#8)

/-- The bytes before the terminating NUL. -/
@[ext] structure CString where
  bytes : List Byte
  noNul : 0#8 ∉ bytes
  deriving DecidableEq

namespace CString

def empty : CString := ⟨[], by simp⟩

/-- The string that a buffer with these bytes and a NUL after them holds. -/
def ofBytes (bs : List Byte) : CString :=
  ⟨bs.takeWhile (· != 0#8), fun h => by simpa using List.mem_takeWhile_imp h⟩

theorem ofBytes_bytes (s : CString) : ofBytes s.bytes = s := by
  apply CString.ext
  apply List.takeWhile_eq_self_iff.2
  intro b hb
  have : b ≠ 0#8 := fun e => s.noNul (e ▸ hb)
  simpa using this

end CString

/-- A URL as a field of a record. -/
@[ext] structure Url where
  str : CString
  nonempty : str.bytes ≠ []
  noSpace : ∀ b ∈ str.bytes, isSpace b = false
  deriving DecidableEq

/-! ## One letter -/

theorem letter_byte : ∀ n, n < 26 →
    BitVec.ofNat 8 (97 + n) ≠ 0#8 ∧ isSpace (BitVec.ofNat 8 (97 + n)) = false := by
  decide

/-- The string of one letter: `a` for 0. -/
def CString.letter (n : Nat) : CString where
  bytes := [BitVec.ofNat 8 (97 + n % 26)]
  noNul := by
    have notNul := (letter_byte (n % 26) (Nat.mod_lt n (by omega))).1
    simpa using notNul.symm

/-- The URL of one letter. -/
def Url.letter (n : Nat) : Url where
  str := .letter n
  nonempty := by simp [CString.letter]
  noSpace := by
    intro b hb
    rw [List.mem_singleton.1 hb]
    exact (letter_byte (n % 26) (Nat.mod_lt n (by omega))).2

end SpiderFrame
