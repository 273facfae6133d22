import SpiderFrame.Base.Heap
import SpiderFrame.Base.Memory
import SpiderFrame.CString

/-!
# The pools of memory (`ngx_palloc.c`)

A pool is a chain of blocks from `memalign`, in the first of which it lies itself, and a list of large
allocations from `malloc`. A small request takes memory behind `d.last` of the first block that has
enough, from `current` on. Structures have the sizes of a machine of 64 bits, and differences of
pointers are taken in `size_t`. The chain is a list, and `current` a position in it.
-/

namespace SpiderFrame.Pool
open SpiderFrame.Base

/-- `sizeof(ngx_pool_t)`, `sizeof(ngx_pool_data_t)`, `sizeof(ngx_pool_large_t)` and
`sizeof(ngx_pool_cleanup_t)`. -/
def sizeofPool : Nat := 88
def sizeofPoolData : Nat := 32
def sizeofPoolLarge : Nat := 16
def sizeofPoolCleanup : Nat := 24

/-- `NGX_MAX_ALLOC_FROM_POOL`: `ngx_pagesize - 1`. -/
def ngxMaxAllocFromPool : Nat := 4095

/-- `NGX_POOL_ALIGNMENT`, which is `NGX_ALIGNMENT` too. -/
def ngxPoolAlignment : Nat := 16

/-- `ngx_align_ptr(p, NGX_ALIGNMENT)`. -/
def ngxAlignPtr (p : Nat) : Nat := (p + 15) / 16 * 16

/-- `a - b` in `size_t`. -/
def sizeSub (a b : Nat) : Nat := (a + 2 ^ 64 - b) % 2 ^ 64

/-- `ngx_pool_data_t` of the block at `addr`. -/
structure Block where
  addr : Nat
  last : Nat
  stop : Nat
  failed : Nat

/-- `ngx_pool_large_t` at `node`. -/
structure Large where
  node : Nat
  alloc : Option Nat

/-- The handlers of `ngx_palloc.c` with their `ngx_pool_cleanup_file_t`, and any other. -/
inductive Handler where
  | cleanupFile (fd : Int)
  | deleteFile (fd : Int) (name : List (BitVec 8))
  | other (id : Nat)
  deriving DecidableEq

/-- `ngx_pool_cleanup_t` at `node`. -/
structure Cleanup where
  node : Nat
  handler : Option Handler
  data : Option Nat

/-- `ngx_pool_t`, which lies at the start of its first block. -/
structure NgxPool where
  first : Block
  rest : List Block
  max : Nat
  acc : Nat
  current : Nat
  large : List Large
  cleanup : List Cleanup

/-- The blocks from the pool itself on. -/
def NgxPool.chain (p : NgxPool) : List Block := p.first :: p.rest

def NgxPool.setChain (p : NgxPool) : List Block → NgxPool
  | [] => p
  | b :: bs => { p with first := b, rest := bs }

/-- What a request returns, and what it makes of the pool and of the heap. -/
structure Got where
  ptr : Option Nat
  pool : NgxPool
  heap : Heap

/-- `ngx_create_pool(size, log)`. -/
def ngxCreatePool (h : Heap) (size : Nat) : Option NgxPool × Heap :=
  match h.alloc ngxPoolAlignment size with
  | (none, h) => (none, h)
  | (some p, h) =>
    let max := sizeSub size sizeofPool
    (some
      { first := ⟨p, p + sizeofPool, p + size, 0⟩
        rest := []
        max := if max < ngxMaxAllocFromPool then max else ngxMaxAllocFromPool
        acc := 0
        current := 0
        large := []
        cleanup := [] }, h)

/-! ## Small requests -/

/-- The `do` loop of `ngx_palloc` and `ngx_pnalloc`: what a block offers is at `place(p->d.last)`. -/
def firstFit (place : Nat → Nat) (size : Nat) : List Block → Option (Nat × List Block)
  | [] => none
  | b :: bs =>
    let m := place b.last
    if size ≤ sizeSub b.stop m then some (m, { b with last := m + size } :: bs)
    else (firstFit place size bs).map fun r => (r.1, b :: r.2)

/-- The `for` loop of `ngx_palloc_block` from the position `i` on: `current`, and the blocks. -/
def markFailed (i current : Nat) : List Block → Nat × List Block
  | [] => (current, [])
  | [b] => (current, [b])
  | b :: b' :: bs =>
    let r := markFailed (i + 1) (if b.failed > 4 then i + 1 else current) (b' :: bs)
    (r.1, { b with failed := (b.failed + 1) % 2 ^ 32 } :: r.2)

/-- `psize` in `ngx_palloc_block`. -/
def NgxPool.psize (p : NgxPool) : Nat := sizeSub p.first.stop p.first.addr

/-- `ngx_palloc_block(pool, size)`. -/
def ngxPallocBlock (p : NgxPool) (h : Heap) (size : Nat) : Got :=
  match h.alloc ngxPoolAlignment p.psize with
  | (none, h) => ⟨none, p, h⟩
  | (some a, h) =>
    let m := ngxAlignPtr (a + sizeofPoolData)
    let new : Block := ⟨a, m + size, a + p.psize, 0⟩
    let marked := markFailed p.current p.current (p.chain.drop p.current)
    ⟨some m, { p.setChain (p.chain.take p.current ++ (marked.2 ++ [new])) with current := marked.1 },
      h⟩

/-- What `ngx_palloc` and `ngx_pnalloc` do for a size up to `max`. -/
def pallocSmall (place : Nat → Nat) (p : NgxPool) (h : Heap) (size : Nat) : Got :=
  match firstFit place size (p.chain.drop p.current) with
  | some (m, bs) => ⟨some m, p.setChain (p.chain.take p.current ++ bs), h⟩
  | none => ngxPallocBlock p h size

/-! ## Large requests -/

/-- The `for` loop of `ngx_palloc_large`, which puts `a` into an entry without an allocation. -/
def reuseEntry (a : Nat) (n : Nat) : List Large → Option (List Large)
  | [] => none
  | l :: ls =>
    if l.alloc = none then some ({ l with alloc := some a } :: ls)
    else if n > 3 then none
    else (reuseEntry a (n + 1) ls).map (l :: ·)

/-- The new entry of `ngx_palloc_large` and `ngx_pmemalign` for the allocation `a`: `got` is what
`ngx_palloc(pool, sizeof(ngx_pool_large_t))` gave. -/
def enterLarge (a : Nat) (got : Got) : Option Got :=
  match got.ptr with
  | some node =>
    some { got with
      ptr := some a
      pool := { got.pool with large := ⟨node, some a⟩ :: got.pool.large } }
  | none => (got.heap.free a).map fun h => { got with heap := h }

/-- `ngx_palloc_large(pool, size)`, where `palloc` is `ngx_palloc`. -/
def ngxPallocLarge (palloc : NgxPool → Heap → Nat → Option Got) (p : NgxPool) (h : Heap)
    (size : Nat) : Option Got :=
  match h.alloc ngxPoolAlignment size with
  | (none, h) => some ⟨none, p, h⟩
  | (some a, h) =>
    match reuseEntry a 0 p.large with
    | some large => some ⟨some a, { p with large := large }, h⟩
    | none => (palloc p h sizeofPoolLarge).bind (enterLarge a)

/-- `pool->acc += size`. -/
def NgxPool.account (p : NgxPool) (size : Nat) : NgxPool :=
  { p with acc := (p.acc + size) % 2 ^ 64 }

/-- The common body of `ngx_palloc` and `ngx_pnalloc`. -/
def request (place : Nat → Nat) (palloc : NgxPool → Heap → Nat → Option Got) (p : NgxPool) (h : Heap)
    (size : Nat) : Option Got :=
  if size ≤ p.max then some (pallocSmall place (p.account size) h size)
  else ngxPallocLarge palloc (p.account size) h size

/-- `ngx_palloc(pool, size)`; `none` is a recursion that has not ended within the fuel. -/
def ngxPalloc : Nat → NgxPool → Heap → Nat → Option Got
  | 0, _, _, _ => none
  | fuel + 1, p, h, size => request ngxAlignPtr (ngxPalloc fuel) p h size

/-- `ngx_pnalloc(pool, size)`. -/
def ngxPnalloc (fuel : Nat) (p : NgxPool) (h : Heap) (size : Nat) : Option Got :=
  request id (ngxPalloc fuel) p h size

/-- `ngx_pmemalign(pool, size, alignment)`. -/
def ngxPmemalign (fuel : Nat) (p : NgxPool) (h : Heap) (size alignment : Nat) : Option Got :=
  match h.alloc alignment size with
  | (none, h) => some ⟨none, p, h⟩
  | (some a, h) => (ngxPalloc fuel p h sizeofPoolLarge).bind (enterLarge a)

/-! ## Requests that fill what they get -/

/-- `mem` with these bytes at the pointer, if there is one. -/
def fill (mem : Nat → Byte) (ptr : Option Nat) (bytes : List Byte) : Nat → Byte :=
  match ptr with
  | some m => store mem m bytes
  | none => mem

/-- `ngx_pcalloc(pool, size)`, with the memory after it. -/
def ngxPcalloc (fuel : Nat) (p : NgxPool) (h : Heap) (mem : Nat → Byte) (size : Nat) :
    Option (Got × (Nat → Byte)) :=
  (ngxPalloc fuel p h size).map fun got => (got, fill mem got.ptr (List.replicate size 0#8))

/-- `ngx_pstrdup(pool, s)`. -/
def ngxPstrdup (fuel : Nat) (p : NgxPool) (h : Heap) (mem : Nat → Byte) (s : CString) :
    Option (Got × (Nat → Byte)) :=
  (ngxPnalloc fuel p h (s.bytes.length + 1)).map fun got => (got, fill mem got.ptr (s.bytes ++ [0#8]))

/-- The `for` loop of `ngx_pstrndup` from the position `len` on. -/
def copyLen (n len : Nat) : List Byte → Nat
  | [] => len
  | _ :: bs => if len < n then copyLen n (len + 1) bs else len

/-- `ngx_pstrndup(pool, s, n)`. -/
def ngxPstrndup (fuel : Nat) (p : NgxPool) (h : Heap) (mem : Nat → Byte) (s : CString) (n : Nat) :
    Option (Got × (Nat → Byte)) :=
  let len := copyLen n 0 s.bytes
  (ngxPnalloc fuel p h (len + 1)).map fun got =>
    (got, fill mem got.ptr (s.bytes.take len ++ [0#8]))

/-! ## Giving memory back -/

/-- The entries after the loop of `ngx_pfree`, if there is one with this pointer. -/
def clearEntry (ptr : Option Nat) : List Large → Option (List Large)
  | [] => none
  | l :: ls =>
    if l.alloc = ptr then some ({ l with alloc := none } :: ls)
    else (clearEntry ptr ls).map (l :: ·)

/-- `ngx_free(p)`. -/
def ngxFree (h : Heap) : Option Nat → Option Heap
  | some a => h.free a
  | none => some h

/-- `ngx_pfree(pool, p)`: whether it is `NGX_OK`. -/
def ngxPfree (p : NgxPool) (h : Heap) (ptr : Option Nat) : Option (Bool × NgxPool × Heap) :=
  match clearEntry ptr p.large with
  | some large => (ngxFree h ptr).map fun h => (true, { p with large := large }, h)
  | none => some (false, p, h)

/-- `ngx_reset_pool(pool)`. -/
def ngxResetPool (p : NgxPool) (h : Heap) : Option (NgxPool × Heap) :=
  (h.freeAll (p.large.filterMap Large.alloc)).map fun h =>
    ({ p.setChain (p.chain.map fun b => { b with last := b.addr + sizeofPool }) with large := [] }, h)

/-- `ngx_destroy_pool(pool)`: the handlers that ran, and the heap. -/
def ngxDestroyPool (p : NgxPool) (h : Heap) : Option (List Handler × Heap) :=
  (h.freeAll (p.large.filterMap Large.alloc)).bind fun h =>
    (h.freeAll (p.chain.map Block.addr)).map fun h => (p.cleanup.filterMap Cleanup.handler, h)

/-! ## Cleanup handlers -/

/-- `ngx_pool_cleanup_add(p, size)`. -/
def ngxPoolCleanupAdd (fuel : Nat) (p : NgxPool) (h : Heap) (size : Nat) : Option Got :=
  (ngxPalloc fuel p h sizeofPoolCleanup).bind fun got =>
    match got.ptr with
    | none => some got
    | some node =>
      if size = 0 then
        some { got with pool := { got.pool with cleanup := ⟨node, none, none⟩ :: got.pool.cleanup } }
      else
        (ngxPalloc fuel got.pool got.heap size).map fun got' =>
          match got'.ptr with
          | none => got'
          | some data =>
            { got' with
              ptr := some node
              pool :=
                { got'.pool with cleanup := ⟨node, none, some data⟩ :: got'.pool.cleanup } }

/-- `c->handler = handler`, which the caller of `ngx_pool_cleanup_add` does. -/
def setHandler (p : NgxPool) (node : Nat) (handler : Option Handler) : NgxPool :=
  { p with cleanup := p.cleanup.map fun c => if c.node = node then { c with handler := handler } else c }

/-- The loop of `ngx_pool_run_cleanup_file` over the handlers. -/
def runCleanupLoop (fd : Int) : List Cleanup → List Cleanup × List Handler
  | [] => ([], [])
  | c :: cs =>
    if c.handler = some (.cleanupFile fd) then ({ c with handler := none } :: cs, [.cleanupFile fd])
    else (c :: (runCleanupLoop fd cs).1, (runCleanupLoop fd cs).2)

/-- `ngx_pool_run_cleanup_file(p, fd)`: the pool, and the handlers that ran. -/
def ngxPoolRunCleanupFile (p : NgxPool) (fd : Int) : NgxPool × List Handler :=
  ({ p with cleanup := (runCleanupLoop fd p.cleanup).1 }, (runCleanupLoop fd p.cleanup).2)

end SpiderFrame.Pool
