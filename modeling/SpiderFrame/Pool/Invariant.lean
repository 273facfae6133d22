import Mathlib.Data.List.Perm.Basic
import SpiderFrame.Pool.Palloc

/-!
# What a pool has given out

Beside a pool goes what its users hold of it: the small regions, which lie in its blocks, and the large
ones. `InUse.Ok` says that the blocks are an arena with the structures of the pool and the small regions
in it, and that the large regions are those of the list. The size of the pool has to be a multiple of
16: in another the space behind an aligned pointer may be negative, which is a large `size_t`.
-/

namespace SpiderFrame.Pool
open SpiderFrame.Base

/-- `NGX_MIN_POOL_SIZE`. -/
def ngxMinPoolSize : Nat := 128

/-- A pool, and what its users hold. -/
structure InUse where
  pool : NgxPool
  small : List Region
  big : List Region

def Block.span (b : Block) : Span := ⟨b.addr, b.last, b.stop⟩

/-- `ngx_pool_t` in the first block, and `ngx_pool_data_t` in the others. -/
def headers : List Nat → List Region
  | [] => []
  | a :: as => ⟨a, sizeofPool⟩ :: as.map fun a => ⟨a, sizeofPoolData⟩

/-- What the pool itself uses of its blocks. -/
def NgxPool.structures (p : NgxPool) : List Region :=
  headers (p.chain.map Block.addr) ++
    (p.large.map (fun l => ⟨l.node, sizeofPoolLarge⟩) ++
      p.cleanup.map fun c => ⟨c.node, sizeofPoolCleanup⟩)

/-- The memory of the system that the pool holds. -/
def InUse.held (u : InUse) : List Region :=
  u.pool.chain.map (fun b => b.span.whole) ++ u.big

/-- A block of a pool of this size. -/
structure Block.Sized (size : Nat) (b : Block) : Prop where
  aligned : 16 ∣ b.addr
  stop : b.stop = b.addr + size
  below : b.stop ≤ 2 ^ 63
  header : b.addr + sizeofPoolData ≤ b.last
  room : b.last ≤ b.stop

/-- The invariant of a pool that was created with this size. -/
structure InUse.Ok (size : Nat) (u : InUse) : Prop where
  made : 16 ∣ size ∧ ngxMinPoolSize ≤ size
  blocks : ∀ b ∈ u.pool.chain, b.Sized size
  max : u.pool.max = min (size - sizeofPool) ngxMaxAllocFromPool
  arena : Arena (u.pool.chain.map Block.span) (u.pool.structures ++ u.small)
  large : (u.pool.large.filterMap Large.alloc).Perm (u.big.map Region.start)

/-- A small request fits into a new block, and the structures of the pool are small requests. -/
theorem InUse.Ok.max_bounds {size : Nat} {u : InUse} (ok : u.Ok size) :
    u.pool.max + sizeofPool ≤ size ∧ sizeofPoolCleanup ≤ u.pool.max := by
  have least := ok.made.2
  have max := ok.max
  unfold ngxMinPoolSize at least
  unfold sizeofPool ngxMaxAllocFromPool at max
  unfold sizeofPool sizeofPoolCleanup
  omega

/-! ## Arithmetic of pointers -/

theorem le_ngxAlignPtr (p : Nat) : p ≤ ngxAlignPtr p := by
  unfold ngxAlignPtr
  omega

theorem ngxAlignPtr_dvd (p : Nat) : 16 ∣ ngxAlignPtr p := Nat.dvd_mul_left 16 _

theorem ngxAlignPtr_le {p q : Nat} (le : p ≤ q) (aligned : 16 ∣ q) : ngxAlignPtr p ≤ q := by
  unfold ngxAlignPtr
  omega

theorem sizeSub_eq {a b : Nat} (le : b ≤ a) (below : a ≤ 2 ^ 63) : sizeSub a b = a - b := by
  unfold sizeSub
  omega

/-- What a block offers lies between `d.last` and its end, if the end is aligned. -/
def Places (place : Nat → Nat) : Prop :=
  ∀ p q, p ≤ q → 16 ∣ q → p ≤ place p ∧ place p ≤ q

theorem places_align : Places ngxAlignPtr := fun p _ le aligned =>
  ⟨le_ngxAlignPtr p, ngxAlignPtr_le le aligned⟩

theorem places_id : Places id := fun _ _ le _ => ⟨Nat.le_refl _, le⟩

section Chains

variable {p : NgxPool} {size : Nat} {place : Nat → Nat}

@[simp] theorem setChain_chain {bs : List Block} (some_ : bs ≠ []) : (p.setChain bs).chain = bs := by
  cases bs with
  | nil => exact absurd rfl some_
  | cons b bs => rfl

@[simp] theorem setChain_large (bs : List Block) : (p.setChain bs).large = p.large := by
  cases bs <;> rfl

@[simp] theorem setChain_cleanup (bs : List Block) : (p.setChain bs).cleanup = p.cleanup := by
  cases bs <;> rfl

@[simp] theorem setChain_max (bs : List Block) : (p.setChain bs).max = p.max := by
  cases bs <;> rfl

theorem headers_snoc {as : List Nat} (some_ : as ≠ []) (a : Nat) :
    headers (as ++ [a]) = headers as ++ [⟨a, sizeofPoolData⟩] := by
  cases as with
  | nil => exact absurd rfl some_
  | cons b as => simp [headers]

theorem map_addr_span (bs : List Block) :
    bs.map Block.addr = (bs.map Block.span).map Span.start := by
  rw [List.map_map]
  rfl

/-- The blocks as memory: where they are, and how much of each is taken. -/
theorem markFailed_span (i current : Nat) (bs : List Block) :
    (markFailed i current bs).2.map Block.span = bs.map Block.span := by
  induction bs generalizing i current with
  | nil => rfl
  | cons b bs ih =>
    cases bs with
    | nil => rfl
    | cons b' bs =>
      rw [markFailed, List.map_cons, List.map_cons, ih]
      rfl

theorem Block.Sized.of_span {b b' : Block} (h : b.Sized size) (same : b'.span = b.span) :
    b'.Sized size := by
  obtain ⟨addr, last, stop⟩ := Span.mk.inj same
  obtain ⟨aligned, stops, below, header, room⟩ := h
  exact ⟨by rwa [addr], by rw [stop, addr, stops], by rwa [stop], by rwa [addr, last],
    by rwa [last, stop]⟩

theorem forall_sized_of_span {bs bs' : List Block} (h : ∀ b ∈ bs, b.Sized size)
    (same : bs'.map Block.span = bs.map Block.span) : ∀ b ∈ bs', b.Sized size := by
  intro b' member
  have there : b'.span ∈ bs.map Block.span := same ▸ List.mem_map_of_mem member
  obtain ⟨b, old, span⟩ := List.mem_map.1 there
  exact (h b old).of_span span.symm

/-- **The block that is found has the memory behind what it offers.** -/
theorem firstFit_spec (places : Places place) {n : Nat} (multiple : 16 ∣ size) {bs bs' : List Block}
    {m : Nat} (sized : ∀ b ∈ bs, b.Sized size) (found : firstFit place n bs = some (m, bs')) :
    ∃ pre b post, bs = pre ++ b :: post ∧ bs' = pre ++ { b with last := m + n } :: post ∧
      b.last ≤ m ∧ m + n ≤ b.stop ∧ m = place b.last := by
  induction bs generalizing bs' with
  | nil => cases found
  | cons b bs ih =>
    rw [List.forall_mem_cons] at sized
    rw [firstFit] at found
    split at found
    · rename_i enough
      cases found
      have stopAligned : 16 ∣ b.stop := by
        rw [sized.1.stop]
        exact Nat.dvd_add sized.1.aligned multiple
      obtain ⟨above, below⟩ := places b.last b.stop sized.1.room stopAligned
      rw [sizeSub_eq below sized.1.below] at enough
      exact ⟨[], b, bs, rfl, rfl, above, by omega, rfl⟩
    · obtain ⟨⟨m', bs₁⟩, later, same⟩ := Option.map_eq_some_iff.1 found
      simp only [Prod.mk.injEq] at same
      obtain ⟨rfl, rfl⟩ := same
      obtain ⟨pre, b', post, rfl, rfl, rest⟩ := ih sized.2 later
      exact ⟨b :: pre, b', post, rfl, rfl, rest⟩

end Chains

end SpiderFrame.Pool
