import SpiderFrame.Base.Blocks
import SpiderFrame.CString

/-!
# The rounds of MD5 (`ngx_md5_body`)

The body runs 64 lines of `STEP` over the four words for each block, written out with the registers in turn and
with cheaper forms of F and G. RFC 1321 says it with one operation that moves the registers on. `body_compress`:
for every block and all words, both come to the same.
-/

namespace SpiderFrame.Md5
open SpiderFrame.Base

/-! ## The code -/

/-- `a`, `b`, `c` and `d` of `ngx_md5_t`. -/
structure Regs where
  a : BitVec 32
  b : BitVec 32
  c : BitVec 32
  d : BitVec 32
  deriving DecidableEq

inductive Reg
  | a | b | c | d
  deriving DecidableEq

inductive Fn
  | F | G | H | I
  deriving DecidableEq

/-- `F(x, y, z)`, `G(x, y, z)`, `H(x, y, z)` and `I(x, y, z)`. -/
def Fn.apply : Fn → BitVec 32 → BitVec 32 → BitVec 32 → BitVec 32
  | .F, x, y, z => z ^^^ (x &&& (y ^^^ z))
  | .G, x, y, z => y ^^^ (z &&& (x ^^^ y))
  | .H, x, y, z => x ^^^ y ^^^ z
  | .I, x, y, z => y ^^^ (x ||| ~~~z)

/-- What one operation takes: its function, the number of its word, its constant and its shift. -/
structure Op where
  f : Fn
  n : Nat
  t : BitVec 32
  s : Nat
  deriving DecidableEq

/-- A line with `STEP`. It names the registers in the order a, b, c, d, from `first` on and round. -/
structure Row extends Op where
  first : Reg

/-- `SET(n)` and `GET(n)`: four bytes, the lowest first. -/
def word (p : List Byte) (n : Nat) : BitVec 32 :=
  (p.getD (n * 4) 0).setWidth 32 ||| (p.getD (n * 4 + 1) 0).setWidth 32 <<< 8 |||
    (p.getD (n * 4 + 2) 0).setWidth 32 <<< 16 ||| (p.getD (n * 4 + 3) 0).setWidth 32 <<< 24

namespace Reg

def next : Reg → Reg
  | a => b
  | b => c
  | c => d
  | d => a

def before : Reg → Reg
  | a => d
  | b => a
  | c => b
  | d => c

end Reg

namespace Regs

def get (r : Regs) : Reg → BitVec 32
  | .a => r.a
  | .b => r.b
  | .c => r.c
  | .d => r.d

def set (r : Regs) (v : BitVec 32) : Reg → Regs
  | .a => { r with a := v }
  | .b => { r with b := v }
  | .c => { r with c := v }
  | .d => { r with d := v }

def add (r s : Regs) : Regs := ⟨r.a + s.a, r.b + s.b, r.c + s.c, r.d + s.d⟩

end Regs

/-- `STEP(f, a, b, c, d, x, t, s)`. -/
def step (p : List Byte) (r : Regs) (row : Row) : Regs :=
  let b := r.get row.first.next
  let a := r.get row.first +
    (row.f.apply b (r.get row.first.next.next) (r.get row.first.next.next.next) + word p row.n + row.t)
  let a := a <<< row.s ||| (a &&& 0xffffffff#32) >>> (32 - row.s)
  r.set (a + b) row.first

/-- The lines with `STEP`. -/
def rows : List Row := [
  -- round 1
  ⟨⟨.F, 0, 0xd76aa478#32, 7⟩, .a⟩, ⟨⟨.F, 1, 0xe8c7b756#32, 12⟩, .d⟩,
  ⟨⟨.F, 2, 0x242070db#32, 17⟩, .c⟩, ⟨⟨.F, 3, 0xc1bdceee#32, 22⟩, .b⟩,
  ⟨⟨.F, 4, 0xf57c0faf#32, 7⟩, .a⟩, ⟨⟨.F, 5, 0x4787c62a#32, 12⟩, .d⟩,
  ⟨⟨.F, 6, 0xa8304613#32, 17⟩, .c⟩, ⟨⟨.F, 7, 0xfd469501#32, 22⟩, .b⟩,
  ⟨⟨.F, 8, 0x698098d8#32, 7⟩, .a⟩, ⟨⟨.F, 9, 0x8b44f7af#32, 12⟩, .d⟩,
  ⟨⟨.F, 10, 0xffff5bb1#32, 17⟩, .c⟩, ⟨⟨.F, 11, 0x895cd7be#32, 22⟩, .b⟩,
  ⟨⟨.F, 12, 0x6b901122#32, 7⟩, .a⟩, ⟨⟨.F, 13, 0xfd987193#32, 12⟩, .d⟩,
  ⟨⟨.F, 14, 0xa679438e#32, 17⟩, .c⟩, ⟨⟨.F, 15, 0x49b40821#32, 22⟩, .b⟩,
  -- round 2
  ⟨⟨.G, 1, 0xf61e2562#32, 5⟩, .a⟩, ⟨⟨.G, 6, 0xc040b340#32, 9⟩, .d⟩,
  ⟨⟨.G, 11, 0x265e5a51#32, 14⟩, .c⟩, ⟨⟨.G, 0, 0xe9b6c7aa#32, 20⟩, .b⟩,
  ⟨⟨.G, 5, 0xd62f105d#32, 5⟩, .a⟩, ⟨⟨.G, 10, 0x02441453#32, 9⟩, .d⟩,
  ⟨⟨.G, 15, 0xd8a1e681#32, 14⟩, .c⟩, ⟨⟨.G, 4, 0xe7d3fbc8#32, 20⟩, .b⟩,
  ⟨⟨.G, 9, 0x21e1cde6#32, 5⟩, .a⟩, ⟨⟨.G, 14, 0xc33707d6#32, 9⟩, .d⟩,
  ⟨⟨.G, 3, 0xf4d50d87#32, 14⟩, .c⟩, ⟨⟨.G, 8, 0x455a14ed#32, 20⟩, .b⟩,
  ⟨⟨.G, 13, 0xa9e3e905#32, 5⟩, .a⟩, ⟨⟨.G, 2, 0xfcefa3f8#32, 9⟩, .d⟩,
  ⟨⟨.G, 7, 0x676f02d9#32, 14⟩, .c⟩, ⟨⟨.G, 12, 0x8d2a4c8a#32, 20⟩, .b⟩,
  -- round 3
  ⟨⟨.H, 5, 0xfffa3942#32, 4⟩, .a⟩, ⟨⟨.H, 8, 0x8771f681#32, 11⟩, .d⟩,
  ⟨⟨.H, 11, 0x6d9d6122#32, 16⟩, .c⟩, ⟨⟨.H, 14, 0xfde5380c#32, 23⟩, .b⟩,
  ⟨⟨.H, 1, 0xa4beea44#32, 4⟩, .a⟩, ⟨⟨.H, 4, 0x4bdecfa9#32, 11⟩, .d⟩,
  ⟨⟨.H, 7, 0xf6bb4b60#32, 16⟩, .c⟩, ⟨⟨.H, 10, 0xbebfbc70#32, 23⟩, .b⟩,
  ⟨⟨.H, 13, 0x289b7ec6#32, 4⟩, .a⟩, ⟨⟨.H, 0, 0xeaa127fa#32, 11⟩, .d⟩,
  ⟨⟨.H, 3, 0xd4ef3085#32, 16⟩, .c⟩, ⟨⟨.H, 6, 0x04881d05#32, 23⟩, .b⟩,
  ⟨⟨.H, 9, 0xd9d4d039#32, 4⟩, .a⟩, ⟨⟨.H, 12, 0xe6db99e5#32, 11⟩, .d⟩,
  ⟨⟨.H, 15, 0x1fa27cf8#32, 16⟩, .c⟩, ⟨⟨.H, 2, 0xc4ac5665#32, 23⟩, .b⟩,
  -- round 4
  ⟨⟨.I, 0, 0xf4292244#32, 6⟩, .a⟩, ⟨⟨.I, 7, 0x432aff97#32, 10⟩, .d⟩,
  ⟨⟨.I, 14, 0xab9423a7#32, 15⟩, .c⟩, ⟨⟨.I, 5, 0xfc93a039#32, 21⟩, .b⟩,
  ⟨⟨.I, 12, 0x655b59c3#32, 6⟩, .a⟩, ⟨⟨.I, 3, 0x8f0ccc92#32, 10⟩, .d⟩,
  ⟨⟨.I, 10, 0xffeff47d#32, 15⟩, .c⟩, ⟨⟨.I, 1, 0x85845dd1#32, 21⟩, .b⟩,
  ⟨⟨.I, 8, 0x6fa87e4f#32, 6⟩, .a⟩, ⟨⟨.I, 15, 0xfe2ce6e0#32, 10⟩, .d⟩,
  ⟨⟨.I, 6, 0xa3014314#32, 15⟩, .c⟩, ⟨⟨.I, 13, 0x4e0811a1#32, 21⟩, .b⟩,
  ⟨⟨.I, 4, 0xf7537e82#32, 6⟩, .a⟩, ⟨⟨.I, 11, 0xbd3af235#32, 10⟩, .d⟩,
  ⟨⟨.I, 2, 0x2ad7d2bb#32, 15⟩, .c⟩, ⟨⟨.I, 9, 0xeb86d391#32, 21⟩, .b⟩]

/-- What `ngx_md5_body` does with one block of 64 bytes. -/
def ngxMd5Block (r : Regs) (p : List Byte) : Regs := (rows.foldl (step p) r).add r

/-- `ngx_md5_body(ctx, data, size)`, for a size that is a multiple of 64 and not 0: it returns the words, and
what is behind the blocks. -/
def ngxMd5Body (r : Regs) (data : List Byte) (size : Nat) : Regs × List Byte :=
  (Blocks.absorb 64 ngxMd5Block (size / 64) r data, data.drop size)

/-! ## RFC 1321 -/

/-- The functions as in the RFC. -/
def Fn.rfc : Fn → BitVec 32 → BitVec 32 → BitVec 32 → BitVec 32
  | .F, x, y, z => (x &&& y) ||| (~~~x &&& z)
  | .G, x, y, z => (x &&& z) ||| (y &&& ~~~z)
  | .H, x, y, z => x ^^^ y ^^^ z
  | .I, x, y, z => y ^^^ (x ||| ~~~z)

/-- The integer parts of 4294967296 times abs(sin(i)), for i from 1 to 64. -/
def sines : List (BitVec 32) := [
  0xd76aa478#32, 0xe8c7b756#32, 0x242070db#32, 0xc1bdceee#32, 0xf57c0faf#32, 0x4787c62a#32,
  0xa8304613#32, 0xfd469501#32, 0x698098d8#32, 0x8b44f7af#32, 0xffff5bb1#32, 0x895cd7be#32,
  0x6b901122#32, 0xfd987193#32, 0xa679438e#32, 0x49b40821#32, 0xf61e2562#32, 0xc040b340#32,
  0x265e5a51#32, 0xe9b6c7aa#32, 0xd62f105d#32, 0x02441453#32, 0xd8a1e681#32, 0xe7d3fbc8#32,
  0x21e1cde6#32, 0xc33707d6#32, 0xf4d50d87#32, 0x455a14ed#32, 0xa9e3e905#32, 0xfcefa3f8#32,
  0x676f02d9#32, 0x8d2a4c8a#32, 0xfffa3942#32, 0x8771f681#32, 0x6d9d6122#32, 0xfde5380c#32,
  0xa4beea44#32, 0x4bdecfa9#32, 0xf6bb4b60#32, 0xbebfbc70#32, 0x289b7ec6#32, 0xeaa127fa#32,
  0xd4ef3085#32, 0x04881d05#32, 0xd9d4d039#32, 0xe6db99e5#32, 0x1fa27cf8#32, 0xc4ac5665#32,
  0xf4292244#32, 0x432aff97#32, 0xab9423a7#32, 0xfc93a039#32, 0x655b59c3#32, 0x8f0ccc92#32,
  0xffeff47d#32, 0x85845dd1#32, 0x6fa87e4f#32, 0xfe2ce6e0#32, 0xa3014314#32, 0x4e0811a1#32,
  0xf7537e82#32, 0xbd3af235#32, 0x2ad7d2bb#32, 0xeb86d391#32]

/-- Operation `i` of the 64: the word and the shift follow from the round. -/
def rfcOp (i : Nat) : Op :=
  let t := sines.getD i 0
  match i / 16 with
  | 0 => ⟨.F, i, t, [7, 12, 17, 22].getD (i % 4) 0⟩
  | 1 => ⟨.G, (5 * i + 1) % 16, t, [5, 9, 14, 20].getD (i % 4) 0⟩
  | 2 => ⟨.H, (3 * i + 5) % 16, t, [4, 11, 16, 23].getD (i % 4) 0⟩
  | _ => ⟨.I, 7 * i % 16, t, [6, 10, 15, 21].getD (i % 4) 0⟩

/-- One operation. The registers move on by one. -/
def operation (p : List Byte) (r : Regs) (op : Op) : Regs :=
  ⟨r.d, r.b + (r.a + op.f.rfc r.b r.c r.d + word p op.n + op.t).rotateLeft op.s, r.b, r.c⟩

/-- One block of 64 bytes. -/
def compress (r : Regs) (p : List Byte) : Regs :=
  (((List.range 64).map rfcOp).foldl (operation p) r).add r

/-! ## The code does what the RFC says -/

theorem Fn.apply_eq (f : Fn) (x y z : BitVec 32) : f.apply x y z = f.rfc x y z := by
  cases f with
  | F =>
    refine BitVec.eq_of_getLsbD_eq fun i below => ?_
    simp only [apply, rfc, BitVec.getLsbD_xor, BitVec.getLsbD_and, BitVec.getLsbD_or, BitVec.getLsbD_not]
    cases x.getLsbD i <;> cases y.getLsbD i <;> cases z.getLsbD i <;> simp [below]
  | G =>
    refine BitVec.eq_of_getLsbD_eq fun i below => ?_
    simp only [apply, rfc, BitVec.getLsbD_xor, BitVec.getLsbD_and, BitVec.getLsbD_or, BitVec.getLsbD_not]
    cases x.getLsbD i <;> cases y.getLsbD i <;> cases z.getLsbD i <;> simp [below]
  | H => rfl
  | I => rfl

theorem rotate_eq {s : Nat} (small : s < 32) (a : BitVec 32) :
    a <<< s ||| (a &&& 0xffffffff#32) >>> (32 - s) = a.rotateLeft s := by
  have all : a &&& 0xffffffff#32 = a := BitVec.and_allOnes
  rw [all, BitVec.rotateLeft, Nat.mod_eq_of_lt small]
  rfl

/-- The registers from this one on. -/
def Regs.view (r : Regs) (q : Reg) : Regs :=
  ⟨r.get q, r.get q.next, r.get q.next.next, r.get q.next.next.next⟩

/-- The lines take the registers in turn, backwards, down to `a` again. -/
def InTurn : Reg → List Row → Prop
  | q, [] => q = .a
  | q, row :: rows => row.first = q ∧ row.s < 32 ∧ InTurn q.before rows

theorem step_view {p : List Byte} {r : Regs} {row : Row} (small : row.s < 32) :
    (step p r row).view row.first.before = operation p (r.view row.first) row.toOp := by
  obtain ⟨⟨f, n, t, s⟩, first⟩ := row
  unfold step operation
  dsimp only
  rw [rotate_eq small, Fn.apply_eq, ← BitVec.add_assoc, ← BitVec.add_assoc,
    BitVec.add_comm (BitVec.rotateLeft _ _)]
  cases first <;> rfl

theorem steps_view {p : List Byte} : ∀ {q : Reg} {rows : List Row} {r : Regs}, InTurn q rows →
    rows.foldl (step p) r = (rows.map Row.toOp).foldl (operation p) (r.view q)
  | _, [], r, h => by
    subst h
    rfl
  | q, row :: rows, r, h => by
    obtain ⟨rfl, small, more⟩ := h
    rw [List.foldl_cons, List.map_cons, List.foldl_cons, steps_view more, step_view small]

theorem rows_inTurn : InTurn .a rows := by simp [InTurn, rows, Reg.before]

theorem rows_rfc : rows.map Row.toOp = (List.range 64).map rfcOp := rfl

/-- **One block.** -/
theorem body_compress (r : Regs) (p : List Byte) : ngxMd5Block r p = compress r p := by
  rw [ngxMd5Block, steps_view rows_inTurn, rows_rfc]
  rfl

end SpiderFrame.Md5
