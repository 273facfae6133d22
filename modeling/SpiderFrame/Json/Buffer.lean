import Mathlib.Algebra.Group.Nat.Defs
import Mathlib.Data.List.Induction
import SpiderFrame.Base.Memory
import SpiderFrame.Json.Printer

/-!
# The array of `json_buf` (`sf_json.c`)

`json_buf` is an array of `JSON_MAX_BUF_LEN + 1` bytes, which begins with the length of the text. The
callback counts the text alone, in 32 bits, so it takes up to eight bytes too many, and chunks whose
length makes the sum wrap. `json_buf_bounded_iff` says for which calls all that is written is in the
array.
-/

namespace SpiderFrame.Json
open SpiderFrame.Base

/-- `JSON_MAX_BUF_LEN+1`. -/
def jsonBufSize : Nat := jsonMaxBufLen + 1

/-- `sizeof(size_t)` on a machine of 64 bits. -/
def textOffset : Nat := 8

/-- `BUF_LEN` and the memory, by the distance from `json_buf`. A length that is stored has passed the
test of the callback, so the `int` is not negative. -/
structure JsonBuf where
  length : Nat
  mem : Nat → Byte

/-- `s` and `length`, which is a `uint32_t`: the bytes from `s` on. -/
structure Chunk where
  data : List Byte
  size_lt : data.length < 2 ^ 32

/-- `BUF_CLEAR(json_buf)`. -/
def JsonBuf.cleared (mem : Nat → Byte) : JsonBuf := ⟨0, store mem textOffset [0#8]⟩

/-- The text of the buffer. -/
def JsonBuf.contents (b : JsonBuf) : List Byte := load b.mem textOffset b.length

/-- `BUF_LEN(buf) + length`, as an `unsigned int`. -/
def newLength (n : Nat) (chunk : Chunk) : Nat := (n + chunk.data.length) % 2 ^ 32

/-- The four bytes of an `int`. -/
def intBytes (n : Nat) : List Byte :=
  [BitVec.ofNat 8 n, BitVec.ofNat 8 (n / 2 ^ 8), BitVec.ofNat 8 (n / 2 ^ 16),
    BitVec.ofNat 8 (n / 2 ^ 24)]

/-- What `strncpy` of so many bytes writes: zeroes from the first NUL on. -/
def strncpyBytes (data : List Byte) : List Byte :=
  let text := data.takeWhile (· != 0#8)
  text ++ List.replicate (data.length - text.length) 0#8

/-- The stores of the callback: the text at `BUF_TAIL`, the length, and the NUL at the new
`BUF_TAIL`. -/
def callbackStores (b : JsonBuf) (chunk : Chunk) : List (Nat × List Byte) :=
  [(textOffset + b.length, strncpyBytes chunk.data), (0, intBytes (newLength b.length chunk)),
    (textOffset + newLength b.length chunk, [0#8])]

/-- `sf_json_print_buf_callback(buf, s, length)`: the buffer and the returned value. -/
def sfJsonPrintBufCallback (b : JsonBuf) (chunk : Chunk) : JsonBuf × Int :=
  if jsonMaxBufLen < newLength b.length chunk then (b, -1)
  else (⟨newLength b.length chunk, storeAll b.mem (callbackStores b chunk)⟩, 0)

/-- The buffer after some calls. -/
def callAll (b : JsonBuf) (chunks : List Chunk) : JsonBuf :=
  chunks.foldl (fun b chunk => (sfJsonPrintBufCallback b chunk).1) b

/-- The bytes taken by some calls, as the callback counts them. -/
def takenLength (chunks : List Chunk) : Nat :=
  chunks.foldl (fun n chunk => if jsonMaxBufLen < newLength n chunk then n else newLength n chunk) 0

/-- What the call for a chunk writes is in the array. -/
def InArray (mem : Nat → Byte) (front : List Chunk) (chunk : Chunk) : Prop :=
  let b := callAll (.cleared mem) front
  (sfJsonPrintBufCallback b chunk).2 = 0 → Below jsonBufSize (callbackStores b chunk)

/-- A chunk that the callback takes leaves eight bytes of its limit, and does not wrap. -/
def LeavesRoom (front : List Chunk) (chunk : Chunk) : Prop :=
  newLength (takenLength front) chunk ≤ jsonMaxBufLen →
    takenLength front + chunk.data.length + 8 ≤ jsonMaxBufLen

section

variable {b : JsonBuf} {chunk : Chunk}

@[simp] theorem strncpyBytes_length (data : List Byte) :
    (strncpyBytes data).length = data.length := by
  have le : (data.takeWhile (· != 0#8)).length ≤ data.length :=
    (List.takeWhile_prefix _).length_le
  simp only [strncpyBytes, List.length_append, List.length_replicate]
  omega

theorem strncpyBytes_text {data : List Byte} (noNul : 0#8 ∉ data) : strncpyBytes data = data := by
  have all : data.takeWhile (· != 0#8) = data := by
    rw [List.takeWhile_eq_self_iff]
    intro b hb
    simpa using ne_of_mem_of_not_mem hb noNul
  simp [strncpyBytes, all]

theorem callback_taken_iff :
    (sfJsonPrintBufCallback b chunk).2 = 0 ↔ newLength b.length chunk ≤ jsonMaxBufLen := by
  unfold sfJsonPrintBufCallback
  by_cases full : jsonMaxBufLen < newLength b.length chunk
  · rw [if_pos full]
    exact iff_of_false (by simp) (Nat.not_le.2 full)
  · rw [if_neg full]
    exact iff_of_true rfl (Nat.not_lt.1 full)

theorem callback_length : (sfJsonPrintBufCallback b chunk).1.length =
    if jsonMaxBufLen < newLength b.length chunk then b.length else newLength b.length chunk := by
  unfold sfJsonPrintBufCallback
  by_cases full : jsonMaxBufLen < newLength b.length chunk
  · rw [if_pos full, if_pos full]
  · rw [if_neg full, if_neg full]

theorem callAll_length (mem : Nat → Byte) (chunks : List Chunk) :
    (callAll (.cleared mem) chunks).length = takenLength chunks := by
  induction chunks using List.reverseRecOn with
  | nil => rfl
  | append_singleton chunks chunk ih =>
    simp only [callAll, takenLength, List.foldl_append, List.foldl_cons, List.foldl_nil]
    rw [callback_length]
    simp only [callAll, takenLength] at ih
    rw [ih]

/-- What is counted has passed the test. -/
theorem takenLength_le (chunks : List Chunk) : takenLength chunks ≤ jsonMaxBufLen := by
  induction chunks using List.reverseRecOn with
  | nil => exact Nat.zero_le _
  | append_singleton chunks chunk ih =>
    simp only [takenLength, List.foldl_append, List.foldl_cons, List.foldl_nil] at ih ⊢
    split
    · exact ih
    · rename_i fits
      exact Nat.not_lt.1 fits

/-- The stores of a call that is taken are in the array when the NUL behind the whole chunk is. -/
theorem below_callbackStores (small : b.length ≤ jsonMaxBufLen)
    (taken : newLength b.length chunk ≤ jsonMaxBufLen) :
    Below jsonBufSize (callbackStores b chunk) ↔
      b.length + chunk.data.length + 8 ≤ jsonMaxBufLen := by
  have size := chunk.size_lt
  simp only [newLength, jsonMaxBufLen] at small taken ⊢
  simp only [Below, callbackStores, List.forall_mem_cons, strncpyBytes_length, intBytes,
    List.length_cons, List.length_nil, List.not_mem_nil, false_imp_iff, implies_true, and_true,
    newLength, textOffset, jsonBufSize, jsonMaxBufLen]
  constructor
  · rintro ⟨text, -, nul⟩
    have last := nul 0 Nat.zero_lt_one
    by_contra long
    have inside := text (chunk.data.length - 1) (by omega)
    omega
  · intro room
    refine ⟨fun i hi => by omega, fun i hi => by omega, fun i hi => by omega⟩

theorem inArray_iff (mem : Nat → Byte) (front : List Chunk) (chunk : Chunk) :
    InArray mem front chunk ↔ LeavesRoom front chunk := by
  rw [InArray, LeavesRoom, callback_taken_iff, callAll_length]
  apply imp_congr_right
  intro taken
  have small := takenLength_le front
  rw [← callAll_length mem front] at small taken ⊢
  exact below_callbackStores small taken

end

/-- **All that the calls write is in the array if and only if each chunk that is taken leaves room for
the length in front of the text.** -/
theorem json_buf_bounded_iff (mem : Nat → Byte) (chunks : List Chunk) :
    (∀ front chunk back, chunks = front ++ chunk :: back → InArray mem front chunk) ↔
      ∀ front chunk back, chunks = front ++ chunk :: back → LeavesRoom front chunk :=
  forall₄_congr fun front chunk _ _ => inArray_iff mem front chunk

/-- 131073 bytes pass the test, and the NUL is behind the array. -/
theorem json_buf_overruns :
    ¬ ∀ (mem : Nat → Byte) (front : List Chunk) (chunk : Chunk), InArray mem front chunk := by
  intro claim
  have size : (List.replicate 131073 120#8).length = 131073 := List.length_replicate
  have room := (inArray_iff _ _ _).1
    (claim (fun _ => 0#8) [] ⟨List.replicate 131073 120#8, by rw [size]; decide⟩)
  simp only [LeavesRoom, newLength, size] at room
  exact absurd (room (by decide)) (by decide)

/-! ## The text -/

/-- **A chunk of letters, the length of which does not wrap, is appended to the text or refused.** -/
theorem callback_contents {b : JsonBuf} {chunk : Chunk} (noNul : 0#8 ∉ chunk.data)
    (sum : b.length + chunk.data.length < 2 ^ 32) :
    (sfJsonPrintBufCallback b chunk).1.contents = printBufCallback b.contents chunk.data := by
  have length : newLength b.length chunk = b.length + chunk.data.length := Nat.mod_eq_of_lt sum
  have contents : b.contents.length = b.length := load_length _ _ _
  unfold sfJsonPrintBufCallback printBufCallback
  rw [length, fits, contents]
  by_cases full : jsonMaxBufLen < b.length + chunk.data.length
  · rw [if_pos full, if_neg (by simpa using full)]
  · rw [if_neg full, if_pos (by simpa using full)]
    simp only [JsonBuf.contents, storeAll, callbackStores, strncpyBytes_text noNul, length,
      List.foldl_cons, List.foldl_nil]
    rw [load_store_outside _ (.inl (by omega)), load_store_outside _ (.inr ?_), load_store_append]
    simp [intBytes, textOffset]

end SpiderFrame.Json
