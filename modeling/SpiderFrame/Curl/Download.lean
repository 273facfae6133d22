import Mathlib.Algebra.Group.Nat.Defs
import Mathlib.Data.List.Induction
import SpiderFrame.Base.Memory
import SpiderFrame.CString

/-!
# The download buffers (`writer_hdr` and `writer_html` in `sf_curl.c`)

A buffer begins with the length of its contents, which are behind it. A writer appends a chunk while
the contents stay below the limit, and puts a NUL one byte too far behind them. `download_kept_iff`
says for which chunks the contents end with a NUL all the same, inside the buffer.
-/

namespace SpiderFrame.Curl
open SpiderFrame.Base

/-- The two writers, by what they are for. -/
inductive Part where
  | hdr
  | html
  deriving DecidableEq

/-- `SF_MAX_HDR_SIZE` and `SF_MAX_HTML_SIZE`, the sizes of the buffers. The first is a `double` in
the source; it and the limit below are whole numbers. -/
def Part.size : Part → Nat
  | .hdr => 524288
  | .html => 5242880

/-- `SF_MAX_HTML_SIZE-sizeof(int)-1`. -/
def Part.limit (p : Part) : Nat := p.size - 4 - 1

/-- `sizeof(size_t)`. -/
def offset : Nat := 8

/-- A buffer: the `size_t` at its beginning, and the memory by the distance from there. The memory
goes on behind the buffer. -/
structure Buffer where
  length : Nat
  mem : Nat → Byte

/-- What curl passes to a writer. It is in the memory, and no object takes half of the addresses. -/
structure Chunk where
  data : List Byte
  size_lt : data.length < 2 ^ 63

/-- `sf_curl_url` sets the length to zero before its attempts. -/
def Buffer.cleared (mem : Nat → Byte) : Buffer := ⟨0, mem⟩

def Buffer.contents (b : Buffer) : List Byte := load b.mem offset b.length

/-- The stores of a writer: the `memcpy`, and the NUL at `*length+1` when the length is the
new one. -/
def writes (b : Buffer) (data : List Byte) : List (Nat × List Byte) :=
  [(offset + b.length, data), (offset + (b.length + data.length + 1), [0#8])]

/-- The buffer and the returned value. The sum of the lengths is one of `size_t`. -/
def writer (p : Part) (b : Buffer) (chunk : Chunk) : Buffer × Nat :=
  if p.limit < (b.length + chunk.data.length) % 2 ^ 64 then (b, 0)
  else
    (⟨(b.length + chunk.data.length) % 2 ^ 64, storeAll b.mem (writes b chunk.data)⟩,
      chunk.data.length)

def writerHdr (b : Buffer) (chunk : Chunk) : Buffer × Nat := writer .hdr b chunk

def writerHtml (b : Buffer) (chunk : Chunk) : Buffer × Nat := writer .html b chunk

/-- The buffer after some chunks. -/
def writeAll (p : Part) (b : Buffer) (chunks : List Chunk) : Buffer :=
  chunks.foldl (fun b chunk => (writer p b chunk).1) b

/-! ## What the writers take -/

/-- The bytes taken so far, and where the chunks that were taken have ended. -/
structure Taken where
  bytes : List Byte
  ends : List Nat

def Taken.Fits (p : Part) (t : Taken) (chunk : Chunk) : Prop :=
  t.bytes.length + chunk.data.length ≤ p.limit

instance (p : Part) (t : Taken) (chunk : Chunk) : Decidable (t.Fits p chunk) :=
  inferInstanceAs (Decidable (_ ≤ _))

def Taken.add (t : Taken) (chunk : Chunk) : Taken :=
  ⟨t.bytes ++ chunk.data, t.ends ++ [t.bytes.length + chunk.data.length]⟩

def Taken.next (p : Part) (t : Taken) (chunk : Chunk) : Taken :=
  if t.Fits p chunk then t.add chunk else t

def taken (p : Part) (chunks : List Chunk) : Taken := chunks.foldl (Taken.next p) ⟨[], []⟩

theorem taken_snoc (p : Part) (chunks : List Chunk) (chunk : Chunk) :
    taken p (chunks ++ [chunk]) = (taken p chunks).next p chunk := by
  simp [taken]

/-- The buffer has the bytes that were taken, and behind them what was in the memory, but for a NUL
one byte behind the end of each chunk. -/
structure Tracks (p : Part) (mem : Nat → Byte) (b : Buffer) (t : Taken) : Prop where
  length : b.length = t.bytes.length
  contents : b.contents = t.bytes
  limit : t.bytes.length ≤ p.limit
  behind : ∀ i, t.bytes.length ≤ i →
    b.mem (offset + i) = if i ∈ t.ends.map (· + 1) then 0 else mem (offset + i)

section Writer

variable {p : Part} {mem : Nat → Byte} {b : Buffer} {t : Taken} {chunk : Chunk}

theorem tracks_cleared (p : Part) (mem : Nat → Byte) :
    Tracks p mem (.cleared mem) ⟨[], []⟩ where
  length := rfl
  contents := rfl
  limit := Nat.zero_le _
  behind i _ := by simp [Buffer.cleared]

/-- The sum of `size_t` is the sum: the contents are below the limit, and the chunk is in the
memory. -/
theorem Tracks.sum (h : Tracks p mem b t) (chunk : Chunk) :
    (b.length + chunk.data.length) % 2 ^ 64 = t.bytes.length + chunk.data.length := by
  have low := h.limit
  have size := chunk.size_lt
  have limit : p.limit < 2 ^ 63 := by cases p <;> decide
  rw [h.length]
  omega

theorem Tracks.writer_rejects (h : Tracks p mem b t) (full : ¬ t.Fits p chunk) :
    writer p b chunk = (b, 0) := by
  rw [writer, if_pos]
  rw [h.sum]
  exact Nat.lt_of_not_le full

theorem Tracks.writer_takes (h : Tracks p mem b t) (fits : t.Fits p chunk) :
    writer p b chunk = (⟨b.length + chunk.data.length, storeAll b.mem (writes b chunk.data)⟩,
      chunk.data.length) := by
  have sum := h.sum chunk
  rw [writer, if_neg (by rw [sum]; exact Nat.not_lt.2 fits), sum, h.length]

/-- What stands in the memory behind a chunk. -/
theorem mem_writes (b : Buffer) (data : List Byte) {i : Nat} (behind : b.length + data.length ≤ i) :
    storeAll b.mem (writes b data) (offset + i) =
      if i = b.length + data.length + 1 then 0 else b.mem (offset + i) := by
  simp only [storeAll, writes, List.foldl_cons, List.foldl_nil]
  split
  case isTrue here =>
    subst here
    exact store_inside _ (l := [0#8]) (offset + (b.length + data.length + 1)) Nat.zero_lt_one
  case isFalse elsewhere =>
    rw [store_outside _ (by simp only [List.length_singleton]; omega), store_outside _ (by omega)]

/-- **A chunk that is taken.** -/
theorem Tracks.take (h : Tracks p mem b t) (fits : t.Fits p chunk) :
    Tracks p mem (writer p b chunk).1 (t.add chunk) := by
  have length := h.length
  rw [h.writer_takes fits]
  constructor
  · simp [Taken.add, length]
  · have text : load (storeAll b.mem (writes b chunk.data)) offset
        (b.length + chunk.data.length) = load b.mem offset b.length ++ chunk.data := by
      simp only [storeAll, writes, List.foldl_cons, List.foldl_nil]
      rw [load_store_outside _ (.inl (by omega)), load_store_append]
    rw [Buffer.contents, text, Taken.add, ← h.contents, Buffer.contents]
  · rw [Taken.add, List.length_append]
    exact fits
  · intro i behind
    simp only [Taken.add, List.length_append] at behind
    change storeAll b.mem (writes b chunk.data) (offset + i) = _
    rw [mem_writes b chunk.data (by omega), h.behind i (by omega)]
    simp only [Taken.add, List.map_append, List.map_cons, List.map_nil, List.mem_append,
      List.mem_singleton, length]
    by_cases here : i = t.bytes.length + chunk.data.length + 1
    · rw [if_pos here, if_pos (.inr here)]
    · simp only [here, if_false, or_false]

theorem Tracks.next (h : Tracks p mem b t) (chunk : Chunk) :
    Tracks p mem (writer p b chunk).1 (t.next p chunk) := by
  unfold Taken.next
  split
  case isTrue fits => exact h.take fits
  case isFalse full =>
    rw [h.writer_rejects full]
    exact h

/-- **After any chunks the buffer has the bytes that were taken.** -/
theorem tracks_writeAll (p : Part) (mem : Nat → Byte) (chunks : List Chunk) :
    Tracks p mem (writeAll p (.cleared mem) chunks) (taken p chunks) := by
  induction chunks using List.reverseRecOn with
  | nil => exact tracks_cleared p mem
  | append_singleton chunks chunk ih =>
    rw [taken_snoc, writeAll, List.foldl_append]
    exact ih.next chunk

/-! ## What the buffer is read as -/

/-- A chunk is taken or not, and one that is not changes nothing. Behind a chunk that is taken the
contents are the bytes taken so far, a NUL follows them, and every store was in the buffer. -/
def WrittenWell (p : Part) (mem : Nat → Byte) (front : List Chunk) (chunk : Chunk) : Prop :=
  let b := writeAll p (.cleared mem) front
  let after := (writer p b chunk).1
  if (taken p front).Fits p chunk then
    after.contents = (taken p (front ++ [chunk])).bytes ∧
      after.mem (offset + after.length) = 0 ∧ Below p.size (writes b chunk.data)
  else after = b

/-- Ten bytes of the buffer are not in the contents, and the byte behind them is a NUL already: it
was one before, or an earlier chunk has ended one byte before. -/
def EndsWell (p : Part) (mem : Nat → Byte) (front : List Chunk) (chunk : Chunk) : Prop :=
  let total := (taken p front).bytes.length + chunk.data.length
  (taken p front).Fits p chunk → total + 10 ≤ p.size ∧
    (mem (offset + total) = 0 ∨ total ∈ (taken p front).ends.map (· + 1))

/-- The stores of a taken chunk are in the buffer when the one of the NUL is. -/
theorem below_writes (p : Part) (b : Buffer) (data : List Byte) :
    Below p.size (writes b data) ↔ b.length + data.length + 10 ≤ p.size := by
  simp only [Below, writes, List.forall_mem_cons, List.length_singleton, offset]
  constructor
  · rintro ⟨-, nul, -⟩
    have last := nul 0 Nat.zero_lt_one
    omega
  · intro room
    refine ⟨fun i hi => by omega, fun i hi => by omega, ?_⟩
    intro w hw
    cases hw

theorem writtenWell_iff (p : Part) (mem : Nat → Byte) (front : List Chunk) (chunk : Chunk) :
    WrittenWell p mem front chunk ↔ EndsWell p mem front chunk := by
  have before := tracks_writeAll p mem front
  unfold WrittenWell EndsWell
  by_cases fits : (taken p front).Fits p chunk
  · have after := before.take fits
    have length := after.length
    have nul := after.behind _ le_rfl
    simp only [Taken.add, List.length_append] at length nul
    have contents : (writer p (writeAll p (.cleared mem) front) chunk).1.contents =
        (taken p (front ++ [chunk])).bytes := by
      rw [after.contents, taken_snoc, Taken.next, if_pos fits]
    simp only [fits, if_true, contents, true_and, forall_const, below_writes, before.length, length,
      nul]
    rw [and_comm]
    apply and_congr_right
    intro _
    -- the NUL of this chunk is one byte farther
    have earlier (n : Nat) (ends : List Nat) :
        n ∈ (ends ++ [n]).map (· + 1) ↔ n ∈ ends.map (· + 1) := by
      rw [List.map_append, List.mem_append, or_iff_left (by simp)]
    simp only [earlier]
    split
    case isTrue earlier => exact iff_of_true rfl (.inr earlier)
    case isFalse never => exact (or_iff_left never).symm
  · simp only [fits, if_false, before.writer_rejects fits, false_imp_iff]

/-- **Every chunk is written well exactly when each one that is taken leaves ten bytes of the buffer and
ends in front of a NUL.** -/
theorem download_kept_iff (p : Part) (mem : Nat → Byte) (chunks : List Chunk) :
    (∀ front chunk back, chunks = front ++ chunk :: back → WrittenWell p mem front chunk) ↔
      ∀ front chunk back, chunks = front ++ chunk :: back → EndsWell p mem front chunk :=
  forall₄_congr fun front chunk _ _ => writtenWell_iff p mem front chunk

/-- One byte. -/
def byteChunk (b : Byte) : Chunk := ⟨[b], show 1 < 2 ^ 63 by decide⟩

/-- Behind the page `abc`, whose first byte `BUF_CLEAR` has cleared, the page `x` is followed by
a `b`. -/
theorem download_unterminated :
    ¬ ∀ (p : Part) (mem : Nat → Byte) (front : List Chunk) (chunk : Chunk),
      WrittenWell p mem front chunk := by
  intro claim
  have page := claim .html (store (fun _ => 0) offset [0#8, 98#8, 99#8]) [] (byteChunk 120#8)
  exact absurd page.2.1 (by decide)

end Writer

end SpiderFrame.Curl
