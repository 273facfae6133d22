import SpiderFrame.Hash.Key

/-!
# The CRC of a name (`sf_crc`)

`sf_crc` takes a byte at a time with a table of 256 words. `sfCrc_crc32`: it is the CRC-32 that is defined bit
by bit, also for bytes from 0x80 on, which `char` makes negative. A step is linear and loses nothing, so
strings that differ in four bytes in a row, or fewer, never have the same key (`sfCrc_eq_iff`).
-/

namespace SpiderFrame.Hash

/-! ## Bit by bit -/

/-- One bit is shifted out. -/
def crcBit (x : Word32) : Word32 := if x.getLsbD 0 then x >>> 1 ^^^ 0xedb88320#32 else x >>> 1

def crcBits : Nat → Word32 → Word32
  | 0, x => x
  | n + 1, x => crcBits n (crcBit x)

/-- The CRC-32 of a text, the lowest bit of each byte first. -/
def crc32 (s : List Byte) : Word32 :=
  s.foldl (fun crc c => crcBits 8 (crc ^^^ c.setWidth 32)) 0xffffffff#32 ^^^ 0xffffffff#32

theorem crcBit_xor (x y : Word32) : crcBit (x ^^^ y) = crcBit x ^^^ crcBit y := by
  refine BitVec.eq_of_getLsbD_eq fun i _ => ?_
  unfold crcBit
  rw [BitVec.getLsbD_xor, BitVec.ushiftRight_xor_distrib]
  cases x.getLsbD 0 <;> cases y.getLsbD 0 <;>
    simp [Bool.xor_left_comm, Bool.xor_comm]

theorem crcBits_xor (n : Nat) (x y : Word32) : crcBits n (x ^^^ y) = crcBits n x ^^^ crcBits n y := by
  induction n generalizing x y with
  | zero => rfl
  | succ n ih => rw [crcBits, crcBit_xor, ih, crcBits, crcBits]

theorem crcBits_add (m n : Nat) (x : Word32) : crcBits (m + n) x = crcBits n (crcBits m x) := by
  induction m generalizing x with
  | zero => rw [Nat.zero_add, crcBits]
  | succ m ih => rw [Nat.succ_add, crcBits, ih, crcBits]

/-- Zeros are only shifted out. -/
theorem crcBits_zeros {n : Nat} {x : Word32} (zeros : ∀ i < n, x.getLsbD i = false) :
    crcBits n x = x >>> n := by
  induction n generalizing x with
  | zero => rw [crcBits, BitVec.ushiftRight_zero]
  | succ n ih =>
    have first : crcBit x = x >>> 1 := by
      rw [crcBit, zeros 0 (Nat.succ_pos n)]
      rfl
    have more : ∀ i < n, (x >>> 1).getLsbD i = false := fun i below => by
      rw [BitVec.getLsbD_ushiftRight]
      exact zeros _ (by omega)
    rw [crcBits, first, ih more, ← BitVec.shiftRight_add, Nat.add_comm]

/-- The table has what eight bits come to. -/
theorem table_bits : ∀ i : Fin 256,
    ngxCrc32Table256.getD i.val 0#32 = crcBits 8 (BitVec.ofNat 32 i.val) := by
  decide +kernel

theorem low_bit (i : Nat) : (0xff#32).getLsbD i = decide (i < 8) := by
  have ones : 0xff#32 = (BitVec.allOnes 8).setWidth 32 := rfl
  rw [ones, BitVec.getLsbD_setWidth, BitVec.getLsbD_allOnes]
  by_cases below : i < 8
  · simp [below, Nat.lt_trans below (by decide : 8 < 32)]
  · simp [below]

/-- **One byte.** -/
theorem crcStep_bits (crc : Word32) (c : Byte) : crcStep crc c = crcBits 8 (crc ^^^ c.setWidth 32) := by
  let x := crc ^^^ c.setWidth 32
  have low : (crc ^^^ c.signExtend 32) &&& 0xff#32 = x &&& 0xff#32 := by
    refine BitVec.eq_of_getLsbD_eq fun i below => ?_
    simp only [x, BitVec.getLsbD_and, BitVec.getLsbD_xor, low_bit, BitVec.getLsbD_signExtend,
      BitVec.getLsbD_setWidth]
    by_cases inside : i < 8 <;> simp [inside, below]
  have parts : x = (x &&& 0xff#32) ^^^ (x &&& ~~~0xff#32) := by
    refine BitVec.eq_of_getLsbD_eq fun i below => ?_
    simp only [BitVec.getLsbD_and, BitVec.getLsbD_xor, BitVec.getLsbD_not, low_bit]
    by_cases inside : i < 8 <;> simp [inside, below]
  have high : crcBits 8 (x &&& ~~~0xff#32) = crc >>> 8 := by
    have zeros : ∀ i < 8, (x &&& ~~~0xff#32).getLsbD i = false := fun i below => by
      simp only [BitVec.getLsbD_and, BitVec.getLsbD_not, low_bit, below]
      simp
    rw [crcBits_zeros zeros]
    refine BitVec.eq_of_getLsbD_eq fun i below => ?_
    simp only [x, BitVec.getLsbD_ushiftRight, BitVec.getLsbD_and, BitVec.getLsbD_xor, BitVec.getLsbD_not,
      low_bit, BitVec.getLsbD_setWidth]
    by_cases inside : 8 + i < 32
    · simp [inside]
    · simp [inside, BitVec.getLsbD_of_ge crc (8 + i) (by omega)]
  have entry : ngxCrc32Table256.getD (x &&& 0xff#32).toNat 0#32 = crcBits 8 (x &&& 0xff#32) := by
    have below : (x &&& 0xff#32).toNat < 256 := by
      rw [BitVec.toNat_and]
      exact Nat.lt_of_le_of_lt Nat.and_le_right (by decide)
    have found := table_bits ⟨(x &&& 0xff#32).toNat, below⟩
    rwa [BitVec.ofNat_toNat, BitVec.setWidth_eq] at found
  have whole : crcBits 8 x = crcBits 8 (x &&& 0xff#32) ^^^ crcBits 8 (x &&& ~~~0xff#32) :=
    (congrArg (crcBits 8) parts).trans (crcBits_xor _ _ _)
  change _ = crcBits 8 x
  rw [crcStep, low, entry, whole, high]

/-- **`sf_crc` is the CRC-32.** -/
theorem sfCrc_crc32 (p : CString) : sfCrc p = crc32 p.bytes := by
  have same : crcStep = fun crc c => crcBits 8 (crc ^^^ c.setWidth 32) :=
    funext fun crc => funext fun c => crcStep_bits crc c
  rw [sfCrc, crc32, same]

/-! ## Nothing is lost -/

theorem crcBit_zero {x : Word32} (h : crcBit x = 0#32) : x = 0#32 := by
  unfold crcBit at h
  split at h
  · -- the highest bit of the polynomial stays
    have top := congrArg (·.getLsbD 31) h
    simp at top
  · rename_i even
    refine BitVec.eq_of_getLsbD_eq fun i below => ?_
    cases i with
    | zero => simpa using even
    | succ i =>
      have bit := congrArg (·.getLsbD i) h
      simpa [Nat.add_comm] using bit

theorem crcBits_inj {n : Nat} {x y : Word32} (h : crcBits n x = crcBits n y) : x = y := by
  induction n generalizing x y with
  | zero => exact h
  | succ n ih =>
    have bit := ih (x := crcBit x) (y := crcBit y) h
    have zero : crcBit (x ^^^ y) = 0#32 := by rw [crcBit_xor, bit, BitVec.xor_self]
    exact BitVec.xor_eq_zero_iff.1 (crcBit_zero zero)

theorem crcStep_inj {s s' : Word32} {c : Byte} (h : crcStep s c = crcStep s' c) : s = s' := by
  rw [crcStep_bits, crcStep_bits] at h
  exact (BitVec.xor_left_inj _).1 (crcBits_inj h)

theorem steps_inj {ys : List Byte} {s s' : Word32} (h : ys.foldl crcStep s = ys.foldl crcStep s') : s = s' := by
  induction ys generalizing s s' with
  | nil => exact h
  | cons c ys ih => exact crcStep_inj (ih h)

/-! ## Four bytes in a row -/

/-- Bytes as one number, the first lowest. -/
def packed : List Byte → Word32
  | [] => 0#32
  | c :: d => c.setWidth 32 ^^^ packed d <<< 8

theorem packed_high {d : List Byte} {i : Nat} (above : 8 * d.length ≤ i) : (packed d).getLsbD i = false := by
  induction d generalizing i with
  | nil => exact BitVec.getLsbD_zero
  | cons c d ih =>
    rw [List.length_cons] at above
    have rest := @ih (i - 8) (by omega)
    simp [packed, BitVec.getLsbD_xor, BitVec.getLsbD_of_ge c i (by omega), rest]

theorem packed_low {c : Byte} {d : List Byte} {i : Nat} (below : i < 8) :
    (packed (c :: d)).getLsbD i = c.getLsbD i := by
  simp [packed, below, Nat.lt_trans below (by decide : 8 < 32)]

theorem packed_behind {c : Byte} {d : List Byte} {i : Nat} (below : i + 8 < 32) :
    (packed (c :: d)).getLsbD (i + 8) = (packed d).getLsbD i := by
  have behind : ¬ i + 8 < 8 := by omega
  simp only [packed, BitVec.getLsbD_xor, BitVec.getLsbD_setWidth, BitVec.getLsbD_shiftLeft,
    BitVec.getLsbD_of_ge c (i + 8) (Nat.le_add_left 8 i), below, behind, Nat.add_sub_cancel, decide_true,
    decide_false, Bool.and_false, Bool.false_xor, Bool.true_and, Bool.not_false]

theorem packed_inj {d d' : List Byte} (length : d.length = d'.length) (few : d.length ≤ 4)
    (h : packed d = packed d') : d = d' := by
  induction d generalizing d' with
  | nil => exact (List.length_eq_zero_iff.1 length.symm).symm
  | cons c d ih =>
    obtain ⟨c', d', rfl⟩ := List.exists_cons_of_length_eq_add_one length.symm
    simp only [List.length_cons] at length few
    have first : c = c' := BitVec.eq_of_getLsbD_eq fun i below => by
      rw [← packed_low (d := d) below, h, packed_low below]
    have rest : packed d = packed d' := by
      refine BitVec.eq_of_getLsbD_eq fun i _ => ?_
      by_cases below : i + 8 < 32
      · rw [← packed_behind (c := c) below, h, packed_behind below]
      · rw [packed_high (by omega), packed_high (by omega)]
    rw [first, ih (by omega) (by omega) rest]

/-- Up to four bytes come to one step of so many bits. -/
theorem steps_packed {d : List Byte} {s : Word32} (few : d.length ≤ 4) :
    d.foldl crcStep s = crcBits (8 * d.length) (s ^^^ packed d) := by
  induction d generalizing s with
  | nil => rw [packed, BitVec.xor_zero]; rfl
  | cons c d ih =>
    rw [List.length_cons] at few
    have behind : crcBits 8 (packed d <<< 8) = packed d := by
      rw [crcBits_zeros fun i below => by simp [below]]
      refine BitVec.eq_of_getLsbD_eq fun i _ => ?_
      have above : ¬ 8 + i < 8 := by omega
      rw [BitVec.getLsbD_ushiftRight, BitVec.getLsbD_shiftLeft, Nat.add_sub_cancel_left]
      by_cases inside : 8 + i < 32
      · simp only [inside, above, decide_true, decide_false, Bool.true_and, Bool.not_false]
      · simp only [packed_high (show 8 * d.length ≤ i by omega), Bool.and_false]
    have one : crcBits 8 (s ^^^ packed (c :: d)) = crcBits 8 (s ^^^ c.setWidth 32) ^^^ packed d := by
      rw [packed, ← BitVec.xor_assoc, crcBits_xor, behind]
    rw [List.foldl_cons, ih (by omega), crcStep_bits, List.length_cons, Nat.mul_succ, Nat.add_comm,
      crcBits_add, one]

/-- **Strings that differ in four bytes in a row, or fewer, have different keys.** -/
theorem sfCrc_eq_iff {p p' : CString} {front d d' behind : List Byte} (h : p.bytes = front ++ (d ++ behind))
    (h' : p'.bytes = front ++ (d' ++ behind)) (length : d.length = d'.length) (few : d.length ≤ 4) :
    sfCrc p = sfCrc p' ↔ p = p' := by
  refine ⟨fun same => ?_, congrArg sfCrc⟩
  have steps := (BitVec.xor_left_inj _).1 same
  rw [h, h', List.foldl_append, List.foldl_append, List.foldl_append, List.foldl_append] at steps
  have inner := steps_inj steps
  have few' : d'.length ≤ 4 := length ▸ few
  rw [steps_packed few, steps_packed few', ← length] at inner
  have bytes := packed_inj length few ((BitVec.xor_right_inj _).1 (crcBits_inj inner))
  exact CString.ext (h.trans (bytes ▸ h'.symm))

theorem sfCrc_eq_iff_letter :
    sfCrc (CString.ofBytes [97#8, 98#8]) = sfCrc (CString.ofBytes [97#8, 99#8]) ↔
      CString.ofBytes [97#8, 98#8] = CString.ofBytes [97#8, 99#8] :=
  @sfCrc_eq_iff _ _ [97#8] [98#8] [99#8] [] rfl rfl rfl (by decide)

end SpiderFrame.Hash
