import SpiderFrame.Md5.Body

/-!
# MD5 in pieces (`ngx_md5_update`, `ngx_md5_final`)

A text is given in pieces; what is no block yet waits in the buffer. Behind each piece the words are those of
the blocks so far, and the buffer begins with the rest (`After`). `md5_digest`: for every text, in any pieces,
the digest is that of RFC 1321.
-/

namespace SpiderFrame.Md5
open SpiderFrame.Base

/-! ## The code -/

/-- `ngx_md5_t`. -/
structure Ctx where
  bytes : BitVec 64
  regs : Regs
  buffer : List Byte

/-- Bytes are written to `buffer[i]` and on. More than there is place for make the buffer longer. -/
def write (buffer : List Byte) (i : Nat) (data : List Byte) : List Byte :=
  buffer.take i ++ (data ++ buffer.drop (i + data.length))

def initRegs : Regs := ⟨0x67452301#32, 0xefcdab89#32, 0x98badcfe#32, 0x10325476#32⟩

/-- `ngx_md5_init(ctx)`. What is in the buffer stays there. -/
def ngxMd5Init (buffer : List Byte) : Ctx := ⟨0, initRegs, buffer⟩

/-- The end of `ngx_md5_update`: nothing waits in the buffer. -/
def updateBlocks (ctx : Ctx) (data : List Byte) : Ctx :=
  if 64 ≤ data.length then
    let (regs, data) := ngxMd5Body ctx.regs data (data.length / 64 * 64)
    { ctx with regs := regs, buffer := write ctx.buffer 0 data }
  else { ctx with buffer := write ctx.buffer 0 data }

/-- `ngx_md5_update(ctx, data, size)`. -/
def ngxMd5Update (ctx : Ctx) (data : List Byte) : Ctx :=
  let used := (ctx.bytes &&& 0x3f#64).toNat
  let ctx := { ctx with bytes := ctx.bytes + BitVec.ofNat 64 data.length }
  if used = 0 then updateBlocks ctx data
  else
    let free := 64 - used
    if data.length < free then { ctx with buffer := write ctx.buffer used data }
    else
      let buffer := write ctx.buffer used (data.take free)
      let regs := (ngxMd5Body ctx.regs buffer 64).1
      updateBlocks { ctx with regs := regs, buffer := buffer } (data.drop free)

def zeros (n : Nat) : List Byte := List.replicate n 0#8

/-- The bytes of a number, the lowest first. -/
def bytes64 (v : BitVec 64) : List Byte :=
  [v.setWidth 8, (v >>> 8).setWidth 8, (v >>> 16).setWidth 8, (v >>> 24).setWidth 8,
    (v >>> 32).setWidth 8, (v >>> 40).setWidth 8, (v >>> 48).setWidth 8, (v >>> 56).setWidth 8]

def bytes32 (v : BitVec 32) : List Byte :=
  [v.setWidth 8, (v >>> 8).setWidth 8, (v >>> 16).setWidth 8, (v >>> 24).setWidth 8]

/-- `result` of `ngx_md5_final`. -/
def Regs.result (r : Regs) : List Byte := bytes32 r.a ++ bytes32 r.b ++ bytes32 r.c ++ bytes32 r.d

/-- `ngx_memzero(ctx, sizeof(*ctx))`. -/
def Ctx.memzero (ctx : Ctx) : Ctx := ⟨0, ⟨0, 0, 0, 0⟩, zeros ctx.buffer.length⟩

/-- The end of `ngx_md5_final`: the length, and the last block. -/
def finalBlock (ctx : Ctx) : List Byte × Ctx :=
  let bytes := ctx.bytes <<< 3
  let buffer := write ctx.buffer 56 (bytes64 bytes)
  let regs := (ngxMd5Body ctx.regs buffer 64).1
  (regs.result, Ctx.memzero ⟨bytes, regs, buffer⟩)

/-- `ngx_md5_final(result, ctx)`: the result, and the context. -/
def ngxMd5Final (ctx : Ctx) : List Byte × Ctx :=
  let used := (ctx.bytes &&& 0x3f#64).toNat
  let buffer := write ctx.buffer used [0x80#8]
  let used := used + 1
  let free := 64 - used
  if free < 8 then
    -- no place for the length: it gets a block of its own
    let buffer := write buffer used (zeros free)
    let regs := (ngxMd5Body ctx.regs buffer 64).1
    finalBlock { ctx with regs := regs, buffer := write buffer 0 (zeros (64 - 8)) }
  else finalBlock { ctx with buffer := write buffer used (zeros (free - 8)) }

/-! ## RFC 1321 -/

/-- The text, a bit that is one, as many zeros as make its length 56 modulo 64, and the length in bits, modulo
2^64. -/
def pad (msg : List Byte) : List Byte :=
  msg ++ ([0x80#8] ++ (zeros ((119 - msg.length % 64) % 64) ++ bytes64 (BitVec.ofNat 64 (8 * msg.length))))

/-- The digest of a text. -/
def md5 (msg : List Byte) : List Byte := (Blocks.hash 64 compress initRegs (pad msg)).result

example : md5 [] = [0xd4#8, 0x1d#8, 0x8c#8, 0xd9#8, 0x8f#8, 0x00#8, 0xb2#8, 0x04#8, 0xe9#8, 0x80#8, 0x09#8,
    0x98#8, 0xec#8, 0xf8#8, 0x42#8, 0x7e#8] := by
  decide +kernel

/-! ## The buffer -/

section

variable {buffer data more : List Byte} {i : Nat}

theorem write_length (fits : i + data.length ≤ buffer.length) :
    (write buffer i data).length = buffer.length := by
  unfold write
  simp only [List.length_append, List.length_take, List.length_drop]
  omega

theorem write_take (fits : i ≤ buffer.length) :
    (write buffer i data).take (i + data.length) = buffer.take i ++ data := by
  have front : (buffer.take i ++ data).length = i + data.length := by
    rw [List.length_append, List.length_take, Nat.min_eq_left fits]
  rw [write, ← List.append_assoc, ← front, List.take_left]

theorem write_whole (fits : i + data.length = buffer.length) : write buffer i data = buffer.take i ++ data := by
  rw [write, fits, List.drop_length, List.append_nil]

theorem write_write (fits : i ≤ buffer.length) :
    write (write buffer i data) (i + data.length) more = write buffer i (data ++ more) := by
  have front : (buffer.take i ++ data).length = i + data.length := by
    rw [List.length_append, List.length_take, Nat.min_eq_left fits]
  have behind : (write buffer i data).drop (i + data.length + more.length) =
      buffer.drop (i + (data ++ more).length) := by
    rw [← List.drop_drop, write, ← List.append_assoc, ← front, List.drop_left, front, List.drop_drop,
      List.length_append, Nat.add_assoc]
  rw [write, write_take fits, behind, write, List.append_assoc, List.append_assoc]

end

/-! ## What the words and the buffer hold -/

theorem used_eq (m : Nat) : (BitVec.ofNat 64 m &&& 0x3f#64).toNat = m % 64 := by
  rw [BitVec.toNat_and, BitVec.toNat_ofNat]
  change m % 2 ^ 64 &&& (2 ^ 6 - 1) = m % 64
  rw [Nat.and_two_pow_sub_one_eq_mod]
  omega

theorem block_eq : ngxMd5Block = compress := funext fun r => funext fun p => body_compress r p

/-- The words are those of the blocks of the text, and the rest of it is in the buffer. -/
structure Holds (r : Regs) (buffer msg : List Byte) : Prop where
  regs : r = Blocks.hash 64 compress initRegs msg
  size : buffer.length = 64
  rest : buffer.take (msg.length % 64) = Blocks.rest 64 msg

section

variable {r : Regs} {buffer msg data : List Byte}

theorem used_lt (msg : List Byte) : msg.length % 64 < 64 := Nat.mod_lt _ (by decide)

theorem rest_more : (Blocks.rest 64 msg ++ data).length = msg.length % 64 + data.length := by
  rw [List.length_append, Blocks.rest_length]

theorem Holds.short (h : Holds r buffer msg) (data : List Byte) (fits : msg.length % 64 + data.length < 64) :
    Holds r (write buffer (msg.length % 64) data) (msg ++ data) := by
  have more : (Blocks.rest 64 msg ++ data).length < 64 := rest_more.trans_lt fits
  have length : (msg ++ data).length % 64 = msg.length % 64 + data.length := by
    rw [List.length_append]
    omega
  refine ⟨?_, ?_, ?_⟩
  · rw [h.regs, Blocks.hash_append (by decide), Blocks.hash_short more]
  · rw [write_length (by rw [h.size]; omega), h.size]
  · rw [length, write_take (by rw [h.size]; omega), h.rest, Blocks.rest_append (by decide),
      Blocks.rest_short more]

theorem Holds.full (h : Holds r buffer msg) (fits : msg.length % 64 + data.length = 64) :
    Holds (ngxMd5Body r (write buffer (msg.length % 64) data) 64).1
      (write buffer (msg.length % 64) data) (msg ++ data) := by
  have length : (msg ++ data).length % 64 = 0 := by
    rw [List.length_append]
    omega
  have whole : write buffer (msg.length % 64) data = Blocks.rest 64 msg ++ data := by
    rw [write_whole (by rw [h.size, fits]), h.rest]
  have one : (ngxMd5Body r (Blocks.rest 64 msg ++ data) 64).1 = compress r (Blocks.rest 64 msg ++ data) := by
    have all : (Blocks.rest 64 msg ++ data).length = 64 := rest_more.trans fits
    change ngxMd5Block r (List.take 64 _) = _
    rw [List.take_of_length_le (Nat.le_of_eq all), body_compress]
  refine ⟨?_, ?_, ?_⟩
  · rw [whole, one, h.regs, Blocks.hash_append (by decide),
      Blocks.hash_block (by decide) (rest_more.trans fits)]
  · rw [whole, rest_more, fits]
  · rw [length, Blocks.rest_whole length]
    rfl

theorem Holds.blocks (h : Holds r buffer msg) (aligned : msg.length % 64 = 0) {k : Nat}
    (whole : data.length = k * 64) : Holds (Blocks.absorb 64 ngxMd5Block k r data) buffer (msg ++ data) := by
  have length : (msg ++ data).length % 64 = 0 := by
    rw [List.length_append]
    omega
  refine ⟨?_, h.size, ?_⟩
  · rw [Blocks.hash_append (by decide), Blocks.rest_whole aligned, List.nil_append, ← h.regs, block_eq]
    rw [Blocks.hash, whole, Nat.mul_div_cancel _ (by decide)]
  · rw [length, Blocks.rest_whole length]
    rfl

end

section

variable {ctx : Ctx} {msg data : List Byte}

theorem updateBlocks_holds (ctx : Ctx) (data : List Byte) (h : Holds ctx.regs ctx.buffer msg)
    (aligned : msg.length % 64 = 0) :
    Holds (updateBlocks ctx data).regs (updateBlocks ctx data).buffer (msg ++ data) := by
  unfold updateBlocks
  split
  · let n := data.length / 64
    have enough : n * 64 ≤ data.length := Nat.div_mul_le_self _ _
    have front : (data.take (n * 64)).length = n * 64 := by
      rw [List.length_take, Nat.min_eq_left enough]
    have blocks := h.blocks aligned front
    have same : Blocks.absorb 64 ngxMd5Block n ctx.regs (data.take (n * 64)) =
        Blocks.absorb 64 ngxMd5Block n ctx.regs data := by
      conv_rhs => rw [← List.take_append_drop (n * 64) data]
      exact (Blocks.absorb_append (Nat.le_of_eq front.symm)).symm
    have still : (msg ++ data.take (n * 64)).length % 64 = 0 := by
      rw [List.length_append, front]
      omega
    have left : (data.drop (n * 64)).length < 64 := by
      rw [List.length_drop]
      omega
    have last := blocks.short (data.drop (n * 64)) (by rw [still]; omega)
    rw [still, same, List.append_assoc, List.take_append_drop] at last
    have count : n * 64 / 64 = n := Nat.mul_div_cancel _ (by decide)
    unfold ngxMd5Body
    dsimp only
    rw [show data.length / 64 * 64 / 64 = n from count]
    exact last
  · have last := h.short data (by omega)
    rw [aligned] at last
    exact last

theorem updateBlocks_bytes : (updateBlocks ctx data).bytes = ctx.bytes := by
  unfold updateBlocks
  split <;> rfl

/-- The text that was given so far. -/
structure After (ctx : Ctx) (msg : List Byte) : Prop where
  bytes : ctx.bytes = BitVec.ofNat 64 msg.length
  holds : Holds ctx.regs ctx.buffer msg

/-- **One piece.** -/
theorem After.update (h : After ctx msg) (data : List Byte) : After (ngxMd5Update ctx data) (msg ++ data) := by
  have used : (ctx.bytes &&& 0x3f#64).toNat = msg.length % 64 := by rw [h.bytes, used_eq]
  have bytes : ctx.bytes + BitVec.ofNat 64 data.length = BitVec.ofNat 64 (msg ++ data).length := by
    rw [h.bytes, List.length_append, BitVec.ofNat_add]
  unfold ngxMd5Update
  rw [used]
  dsimp only
  split
  · rename_i aligned
    exact ⟨updateBlocks_bytes.trans bytes, updateBlocks_holds _ data h.holds aligned⟩
  · split
    · rename_i small
      exact ⟨bytes, h.holds.short data (by omega)⟩
    · have front : msg.length % 64 + (data.take (64 - msg.length % 64)).length = 64 := by
        have below := used_lt msg
        rw [List.length_take]
        omega
      have aligned : (msg ++ data.take (64 - msg.length % 64)).length % 64 = 0 := by
        rw [List.length_append]
        omega
      have last := updateBlocks_holds ⟨ctx.bytes + BitVec.ofNat 64 data.length, _, _⟩
        (data.drop (64 - msg.length % 64)) (h.holds.full front) aligned
      rw [List.append_assoc, List.take_append_drop] at last
      exact ⟨updateBlocks_bytes.trans bytes, last⟩

/-- **All pieces.** -/
theorem After.updates (h : After ctx msg) (pieces : List (List Byte)) :
    After (pieces.foldl ngxMd5Update ctx) (msg ++ pieces.flatten) := by
  induction pieces generalizing ctx msg with
  | nil =>
    rw [List.flatten_nil, List.append_nil]
    exact h
  | cons data pieces ih =>
    rw [List.flatten_cons, ← List.append_assoc]
    exact ih (h.update data)

theorem init_after {buffer : List Byte} (size : buffer.length = 64) : After (ngxMd5Init buffer) [] :=
  ⟨rfl, rfl, size, rfl⟩

end

/-! ## The digest -/

section

variable {ctx : Ctx} {msg : List Byte}

theorem shift_eq (m : Nat) : BitVec.ofNat 64 m <<< 3 = BitVec.ofNat 64 (8 * m) := by
  apply BitVec.eq_of_toNat_eq
  rw [BitVec.toNat_shiftLeft, BitVec.toNat_ofNat, BitVec.toNat_ofNat, Nat.shiftLeft_eq]
  omega

theorem zeros_length (n : Nat) : (zeros n).length = n := List.length_replicate

theorem zeros_add (m n : Nat) : zeros m ++ zeros n = zeros (m + n) := List.replicate_append_replicate

/-- The last block of a text. -/
theorem Holds.result {ctx : Ctx} {r : Regs} {buffer front : List Byte} (h : Holds r buffer front)
    (regs : ctx.regs = r) (data msg : List Byte) (fits : front.length % 64 + data.length = 64)
    (text : front ++ data = pad msg)
    (last : write ctx.buffer 56 (bytes64 (ctx.bytes <<< 3)) = write buffer (front.length % 64) data) :
    (finalBlock ctx).1 = md5 msg ∧ (finalBlock ctx).2.buffer.length = 64 := by
  subst regs
  have full := h.full fits
  unfold finalBlock Ctx.memzero
  dsimp only
  rw [last, zeros_length]
  refine ⟨?_, full.size⟩
  rw [full.regs, text]
  rfl

/-- **What `ngx_md5_final` stores.** -/
theorem After.final (h : After ctx msg) :
    (ngxMd5Final ctx).1 = md5 msg ∧ (ngxMd5Final ctx).2.buffer.length = 64 := by
  have used : (ctx.bytes &&& 0x3f#64).toNat = msg.length % 64 := by rw [h.bytes, used_eq]
  have length : ctx.bytes <<< 3 = BitVec.ofNat 64 (8 * msg.length) := by rw [h.bytes, shift_eq]
  have below := used_lt msg
  have size := h.holds.size
  let last := bytes64 (BitVec.ofNat 64 (8 * msg.length))
  have eight : last.length = 8 := rfl
  unfold ngxMd5Final
  rw [used]
  dsimp only
  split
  · -- two blocks: the first has the bit, the second the length
    rename_i few
    let first := [0x80#8] ++ zeros (64 - (msg.length % 64 + 1))
    have fits : msg.length % 64 + first.length = 64 := by
      rw [List.length_append, zeros_length, List.length_singleton]
      omega
    have full := h.holds.full fits
    have aligned : (msg ++ first).length % 64 = 0 := by
      rw [List.length_append]
      omega
    have marked : write (write ctx.buffer (msg.length % 64) [0x80#8]) (msg.length % 64 + 1)
        (zeros (64 - (msg.length % 64 + 1))) = write ctx.buffer (msg.length % 64) first :=
      write_write (by omega)
    rw [marked]
    refine Holds.result full ?_ (zeros (64 - 8) ++ last) msg ?_ ?_ ?_
    · rfl
    · rw [aligned, List.length_append, zeros_length, eight]
    · have count : 64 - (msg.length % 64 + 1) + (64 - 8) = (119 - msg.length % 64) % 64 := by omega
      rw [pad, ← count, ← zeros_add]
      simp only [first, last, List.append_assoc]
    · dsimp only
      rw [aligned, length]
      exact write_write (Nat.zero_le _)
  · -- one block
    rename_i room
    let first := [0x80#8] ++ zeros (64 - (msg.length % 64 + 1) - 8)
    have marked : write (write ctx.buffer (msg.length % 64) [0x80#8]) (msg.length % 64 + 1)
        (zeros (64 - (msg.length % 64 + 1) - 8)) = write ctx.buffer (msg.length % 64) first :=
      write_write (by omega)
    have place : msg.length % 64 + first.length = 56 := by
      rw [List.length_append, zeros_length, List.length_singleton]
      omega
    have ended : write (write ctx.buffer (msg.length % 64) first) (msg.length % 64 + first.length) last =
        write ctx.buffer (msg.length % 64) (first ++ last) := write_write (by omega)
    rw [place] at ended
    rw [marked]
    refine Holds.result h.holds ?_ (first ++ last) msg ?_ ?_ ?_
    · rfl
    · rw [List.length_append, eight, ← Nat.add_assoc, place]
    · have count : 64 - (msg.length % 64 + 1) - 8 = (119 - msg.length % 64) % 64 := by omega
      rw [pad, ← count, List.append_assoc]
    · dsimp only
      rw [length]
      exact ended

/-- **The digest of a text that is given in any pieces is that of RFC 1321**, and no byte is written behind the
buffer, neither by `ngx_md5_update` nor by `ngx_md5_final`. -/
theorem md5_digest {buffer : List Byte} (size : buffer.length = 64) (pieces : List (List Byte)) :
    (pieces.foldl ngxMd5Update (ngxMd5Init buffer)).buffer.length = 64 ∧
      (ngxMd5Final (pieces.foldl ngxMd5Update (ngxMd5Init buffer))).1 = md5 pieces.flatten ∧
      (ngxMd5Final (pieces.foldl ngxMd5Update (ngxMd5Init buffer))).2.buffer.length = 64 :=
  have after := (init_after size).updates pieces
  ⟨after.holds.size, after.final⟩

theorem md5_digest_letters :
    ([[97#8, 98#8], zeros 70, [99#8]].foldl ngxMd5Update (ngxMd5Init (zeros 64))).buffer.length = 64 ∧
      (ngxMd5Final ([[97#8, 98#8], zeros 70, [99#8]].foldl ngxMd5Update (ngxMd5Init (zeros 64)))).1 =
        md5 [[97#8, 98#8], zeros 70, [99#8]].flatten ∧
      (ngxMd5Final ([[97#8, 98#8], zeros 70, [99#8]].foldl ngxMd5Update
        (ngxMd5Init (zeros 64)))).2.buffer.length = 64 :=
  md5_digest (zeros_length 64) [[97#8, 98#8], zeros 70, [99#8]]

end

end SpiderFrame.Md5
