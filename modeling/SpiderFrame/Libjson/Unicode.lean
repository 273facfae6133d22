import SpiderFrame.Libjson.Dialect
import SpiderFrame.Libjson.Unbounded

/-!
# Characters as numbers

`decode_unicode_char` puts the UTF-8 of a code unit, or of a pair of surrogates, in place of the four
digits at the end of the buffer.
-/

namespace SpiderFrame.Libjson
open SpiderFrame.Base.Json (hexDigit utf8)

theorem hex_lt : ∀ b : Byte, hexDigit b = true → hex b < 16 := by decide +kernel

theorem unit_lt {a b c d : Byte} (h : Hex4 a b c d) : unit a b c d < 65536 := by
  have ha := hex_lt a h.1
  have hb := hex_lt b h.2.1
  have hc := hex_lt c h.2.2.1
  have hd := hex_lt d h.2.2.2
  unfold unit
  omega

/-- Four bits behind a number. -/
theorem or_four (x : Nat) {y : Nat} (lt : y < 16) : x <<< 4 ||| y = 16 * x + y := by
  rw [← Nat.shiftLeft_add_eq_or_of_lt (show y < 2 ^ 4 from lt), Nat.shiftLeft_eq, Nat.mul_comm]

theorem unit_bits {a b c d : Byte} (h : Hex4 a b c d) :
    hex a <<< 12 ||| hex b <<< 8 ||| hex c <<< 4 ||| hex d = unit a b c d := by
  have first : hex a <<< 12 ||| hex b <<< 8 = (16 * hex a + hex b) <<< 8 := by
    rw [← or_four _ (hex_lt b h.2.1), Nat.shiftLeft_or_distrib, ← Nat.shiftLeft_add]
  have second : (16 * hex a + hex b) <<< 8 ||| hex c <<< 4 =
      (16 * (16 * hex a + hex b) + hex c) <<< 4 := by
    rw [← or_four _ (hex_lt c h.2.2.1), Nat.shiftLeft_or_distrib, ← Nat.shiftLeft_add]
  rw [first, second, or_four _ (hex_lt d h.2.2.2), unit]
  omega

theorem mask_six (n : Nat) : n &&& 0x3f = n % 64 := Nat.and_two_pow_sub_one_eq_mod n 6

theorem mask_ten (n : Nat) : n &&& 0x3ff = n % 1024 := Nat.and_two_pow_sub_one_eq_mod n 10

/-- The upper bits of a code unit. -/
theorem top_bits {n : Nat} (lt : n < 65536) : n &&& 0xfc00 = 1024 * (n / 1024) := by
  have low : n % 1024 &&& 0xfc00 = 0 := by
    rw [← mask_ten, Nat.and_assoc]
    exact Nat.and_zero n
  have high : (n / 1024) <<< 10 &&& 63 <<< 10 = (n / 1024) <<< 10 := by
    rw [← Nat.shiftLeft_and_distrib]
    rw [mask_six, Nat.mod_eq_of_lt (by omega)]
  have parts : (n / 1024) <<< 10 ||| n % 1024 = n := by
    rw [← Nat.shiftLeft_add_eq_or_of_lt (Nat.mod_lt n (by decide) : n % 1024 < 2 ^ 10),
      Nat.shiftLeft_eq, Nat.mul_comm]
    exact Nat.div_add_mod n 1024
  calc n &&& 0xfc00 = ((n / 1024) <<< 10 ||| n % 1024) &&& 0xfc00 := by rw [parts]
    _ = (n / 1024) <<< 10 &&& 63 <<< 10 := by
      rw [Nat.and_or_distrib_right, low, Nat.or_zero]
      rfl
    _ = 1024 * (n / 1024) := by rw [high, Nat.shiftLeft_eq, Nat.mul_comm]

theorem isLow_iff {n : Nat} (lt : n < 65536) : n &&& 0xfc00 = 0xdc00 ↔ LowSurrogate n := by
  rw [top_bits lt]
  unfold LowSurrogate
  omega

theorem isHigh_iff {n : Nat} (lt : n < 65536) : n &&& 0xfc00 = 0xd800 ↔ HighSurrogate n := by
  rw [top_bits lt]
  unfold HighSurrogate
  omega

theorem lead_two : ∀ m < 32, m ||| 0xc0 = 192 + m := by decide

theorem lead_three : ∀ m < 16, m ||| 0xe0 = 224 + m := by decide

theorem lead_four : ∀ m < 8, m ||| 0xf0 = 240 + m := by decide

theorem follow : ∀ m < 64, m ||| 0x80 = 128 + m := by decide

theorem follow_mod (n : Nat) : n % 64 ||| 0x80 = 128 + n % 64 := follow _ (Nat.mod_lt _ (by omega))

section

variable {κ σ : Type} {p : Parser κ σ} {buf : Bytes} {a b c d : Byte}

/-- The digits at the end of the buffer. -/
theorem last_four (digits : p.buffer = buf ++ [a, b, c, d]) :
    p.buffer.take (p.buffer.length - 4) = buf ∧ p.buffer.drop (p.buffer.length - 4) = [a, b, c, d] := by
  have length : p.buffer.length - 4 = buf.length := by
    rw [digits, List.length_append]
    exact Nat.add_sub_cancel _ 4
  rw [length, digits]
  exact ⟨List.take_left' rfl, List.drop_left' rfl⟩

/-- The number that `decode_unicode_char` reads. -/
theorem decode_units (digits : p.buffer = buf ++ [a, b, c, d]) (h : Hex4 a b c d) :
    decodeUnicodeChar p =
      (if p.unicodeMulti = 0 ∧ unit a b c d < 0x80 then
        .ok { p with buffer := buf ++ [char (unit a b c d)] }
      else if p.unicodeMulti ≠ 0 then
        if ¬ LowSurrogate (unit a b c d) then .error .unicodeMissingLowSurrogate
        else
          let u := 0x10000 + (p.unicodeMulti % 1024) * 1024 + unit a b c d % 1024
          .ok { p with
            buffer := buf ++ [char (u >>> 18 ||| 0xf0), char (128 + u >>> 12 % 64),
              char (128 + u >>> 6 % 64), char (128 + u % 64)]
            unicodeMulti := 0 }
      else if LowSurrogate (unit a b c d) then .error .unicodeUnexpectedLowSurrogate
      else if HighSurrogate (unit a b c d) then
        .ok { p with buffer := buf, unicodeMulti := unit a b c d }
      else .ok { p with buffer := buf ++ utf8 (unit a b c d) }) := by
  obtain ⟨kept, last⟩ := last_four digits
  have lt := unit_lt h
  unfold decodeUnicodeChar
  dsimp only
  rw [kept, last]
  simp only [List.getD_cons_zero, List.getD_cons_succ, unit_bits h]
  generalize unit a b c d = n at lt
  simp only [ne_eq, isLow_iff lt, isHigh_iff lt, mask_ten, mask_six, follow_mod, Nat.shiftLeft_eq,
    Nat.shiftRight_zero]
  by_cases multi : p.unicodeMulti = 0
  · by_cases ascii : n < 0x80
    · rw [if_pos ⟨multi, ascii⟩, if_pos ⟨multi, ascii⟩]
    · have notAscii : ¬ (p.unicodeMulti = 0 ∧ n < 0x80) := fun both => ascii both.2
      rw [if_neg notAscii, if_neg notAscii]
      congr 3
      unfold utf8
      rw [if_neg ascii]
      split
      · rename_i two
        rw [Nat.shiftRight_eq_div_pow, lead_two _ (by omega)]
        rfl
      · rw [Nat.shiftRight_eq_div_pow, Nat.shiftRight_eq_div_pow, lead_three _ (by omega)]
        rfl
  · have notSingle : ¬ (p.unicodeMulti = 0 ∧ n < 0x80) := fun both => multi both.1
    rw [if_neg notSingle, if_neg notSingle, if_pos multi, if_pos multi]

/-- The bytes for a pair of surrogates. -/
theorem pair_bytes {n m : Nat} (high : HighSurrogate n) (low : LowSurrogate m) :
    let u := 0x10000 + (n % 1024) * 1024 + m % 1024
    [char (u >>> 18 ||| 0xf0), char (128 + u >>> 12 % 64), char (128 + u >>> 6 % 64),
      char (128 + u % 64)] = utf8Pair n m := by
  obtain ⟨ge, lt⟩ := high
  obtain ⟨ge', lt'⟩ := low
  have units : n % 1024 = n - 0xd800 ∧ m % 1024 = m - 0xdc00 := by omega
  dsimp only
  rw [units.1, units.2, Nat.shiftRight_eq_div_pow, Nat.shiftRight_eq_div_pow,
    Nat.shiftRight_eq_div_pow, lead_four _ (by omega)]
  rfl

theorem HighSurrogate.not_low {n : Nat} (high : HighSurrogate n) : ¬ LowSurrogate n := by
  unfold HighSurrogate at high
  unfold LowSurrogate
  omega

/-- A character of its own. -/
theorem decode_single (digits : p.buffer = buf ++ [a, b, c, d]) (h : Hex4 a b c d)
    (first : p.unicodeMulti = 0) (notHigh : ¬ HighSurrogate (unit a b c d))
    (notLow : ¬ LowSurrogate (unit a b c d)) :
    decodeUnicodeChar p = .ok { p with buffer := buf ++ utf8 (unit a b c d) } := by
  rw [decode_units digits h]
  by_cases ascii : unit a b c d < 0x80
  · rw [if_pos ⟨first, ascii⟩, utf8, if_pos ascii]
    rfl
  · have single : ¬ (p.unicodeMulti = 0 ∧ unit a b c d < 0x80) := fun both => ascii both.2
    have none_ : ¬ p.unicodeMulti ≠ 0 := fun other => other first
    rw [if_neg single, if_neg none_, if_neg notLow, if_neg notHigh]

/-- The first of a pair: its digits go. -/
theorem decode_high (digits : p.buffer = buf ++ [a, b, c, d]) (h : Hex4 a b c d)
    (first : p.unicodeMulti = 0) (high : HighSurrogate (unit a b c d)) :
    decodeUnicodeChar p = .ok { p with buffer := buf, unicodeMulti := unit a b c d } := by
  have single : ¬ (p.unicodeMulti = 0 ∧ unit a b c d < 0x80) := fun both => by
    have ge := high.1
    omega
  have none_ : ¬ p.unicodeMulti ≠ 0 := fun other => other first
  rw [decode_units digits h, if_neg single, if_neg none_, if_neg high.not_low, if_pos high]

/-- The second of a pair. -/
theorem decode_low (digits : p.buffer = buf ++ [a, b, c, d]) (h : Hex4 a b c d)
    (high : HighSurrogate p.unicodeMulti) (low : LowSurrogate (unit a b c d)) :
    decodeUnicodeChar p = .ok { p with
      buffer := buf ++ utf8Pair p.unicodeMulti (unit a b c d), unicodeMulti := 0 } := by
  have second : p.unicodeMulti ≠ 0 := by
    have ge := high.1
    omega
  have single : ¬ (p.unicodeMulti = 0 ∧ unit a b c d < 0x80) := fun both => second both.1
  rw [decode_units digits h, if_neg single, if_pos second, if_neg (not_not_intro low),
    ← pair_bytes high low]

/-- A second one without the first. -/
theorem decode_lone_low (digits : p.buffer = buf ++ [a, b, c, d]) (h : Hex4 a b c d)
    (first : p.unicodeMulti = 0) (low : LowSurrogate (unit a b c d)) :
    decodeUnicodeChar p = .error .unicodeUnexpectedLowSurrogate := by
  have single : ¬ (p.unicodeMulti = 0 ∧ unit a b c d < 0x80) := fun both => by
    have ge := low.1
    omega
  have none_ : ¬ p.unicodeMulti ≠ 0 := fun other => other first
  rw [decode_units digits h, if_neg single, if_neg none_, if_pos low]

/-- A first one without the second. -/
theorem decode_lone_high (digits : p.buffer = buf ++ [a, b, c, d]) (h : Hex4 a b c d)
    (second : p.unicodeMulti ≠ 0) (notLow : ¬ LowSurrogate (unit a b c d)) :
    decodeUnicodeChar p = .error .unicodeMissingLowSurrogate := by
  have single : ¬ (p.unicodeMulti = 0 ∧ unit a b c d < 0x80) := fun both => second both.1
  rw [decode_units digits h, if_neg single, if_pos second, if_pos notLow]

end

end SpiderFrame.Libjson
