import SpiderFrame.Pool.Pools

/-!
# The size of a pool

`(size_t) (p->d.end - m)` is a huge number when the aligned pointer is behind the end of the block. That
cannot be if the size is a multiple of the alignment; of a pool of any other size `ngx_palloc` gives out
memory behind its block, once the block is full.
-/

namespace SpiderFrame.Pool
open SpiderFrame.Base

/-- What the users hold of small regions is in the blocks of their pools. -/
def Pools.Inside (s : Pools) : Prop :=
  ∀ e ∈ s.pools, ∀ r ∈ e.2.small, ∃ b ∈ e.2.pool.chain, r.Within ⟨b.addr, e.1⟩

section Multiple

variable {others : List Region} {s s' : Pools}

theorem Pools.Inv.inside (inv : s.Inv others) : s.Inside := by
  intro e member r small
  have ok := inv.ok e member
  obtain ⟨sp, inSpans, here⟩ := ok.arena.within (List.mem_append_right _ small)
  obtain ⟨b, inChain, rfl⟩ := List.mem_map.1 inSpans
  have stop := (ok.blocks b inChain).stop
  refine ⟨b, inChain, here.1, ?_⟩
  have last := here.2
  unfold Block.span Span.whole Region.stop at last
  unfold Region.stop
  dsimp only at last ⊢
  omega

/-- Calls with a pool that come back are correct, but for a pool that is emptied. -/
theorem calls_correct {cs : List Call} (keeps : ∀ c ∈ cs, ¬ c.empties) (inv : s.Inv others)
    (run : exec step s (cs.map (.call 0)) = some s') : s'.Inv others := by
  induction cs generalizing s with
  | nil =>
    cases run
    exact inv
  | cons c cs ih =>
    obtain ⟨m, taken, rest⟩ := exec_cons run
    obtain ⟨e, here, -⟩ := Option.bind_eq_some_iff.1 taken
    obtain ⟨m', possible, inv'⟩ := inv.next (a := .call 0 c)
      ⟨e, here, fun empties => absurd empties (keeps c List.mem_cons_self)⟩
    obtain rfl : m' = m := Option.some_inj.1 (possible.symm.trans taken)
    exact ih (fun c member => keeps c (List.mem_cons_of_mem _ member)) inv' rest

end Multiple

section Other

variable (size : Nat) (mem : Nat → Byte)

/-- A pool at 16 with one block, taken up to `last`. -/
def single (last acc : Nat) : NgxPool :=
  ⟨⟨16, last, 16 + size, 0⟩, [], min (size - sizeofPool) ngxMaxAllocFromPool, acc, 0, [], []⟩

/-- The state with this pool alone. -/
def alone (last acc : Nat) (small : List Region) : Pools :=
  ⟨⟨[⟨16, size⟩], []⟩, mem, [(size, ⟨single size last acc, small, []⟩)], []⟩

variable {size mem} {last acc : Nat} {small : List Region}

theorem alone_request {place : Nat → Nat} {n : Nat}
    (fits : n ≤ min (size - sizeofPool) ngxMaxAllocFromPool)
    (offered : n ≤ sizeSub (16 + size) (place last)) (h : Heap)
    (palloc : NgxPool → Heap → Nat → Option Got) :
    request place palloc (single size last acc) h n =
      some ⟨some (place last), single size (place last + n) ((acc + n) % 2 ^ 64), h⟩ := by
  have fits' : n ≤ (single size last acc).max := fits
  have found : firstFit place n (((single size last acc).account n).chain.drop 0) =
      some (place last, [⟨16, place last + n, 16 + size, 0⟩]) := by
    rw [List.drop_zero]
    unfold NgxPool.chain NgxPool.account single
    rw [firstFit]
    exact if_pos offered
  rw [request, if_pos fits']
  unfold pallocSmall
  rw [show ((single size last acc).account n).current = 0 from rfl, found]
  rfl

/-- A request that the block seems to have the memory for. -/
theorem alone_call (place : Nat → Nat) {n : Nat} {c : Call}
    (calls : ∀ u h mem, c.turn u h mem =
      (request place (ngxPalloc 1) u.pool h n).map fun got => granted u n got mem)
    (fits : n ≤ min (size - sizeofPool) ngxMaxAllocFromPool)
    (offered : n ≤ sizeSub (16 + size) (place last)) :
    step (alone size mem last acc small) (.call 0 c) =
      some (alone size mem (place last + n) ((acc + n) % 2 ^ 64) (⟨place last, n⟩ :: small)) := by
  unfold step alone
  dsimp only
  rw [List.getElem?_cons_zero, Option.bind_some, calls, alone_request fits offered]
  unfold granted InUse.grant
  dsimp only [Option.map_some]
  rw [if_pos (show n ≤ (single size last acc).max from fits)]
  rfl

theorem single_created (least : ngxMinPoolSize ≤ size) (below : size ≤ 2 ^ 62) :
    step (Pools.init ⟨[], [some 16]⟩ mem) (.create size) =
      some (alone size mem (16 + sizeofPool) 0 []) := by
  have pos : 128 ≤ size := least
  have block : Heap.block 16 size = ⟨16, size⟩ := by
    rw [Heap.block, Nat.max_eq_left (by omega)]
  have allows : Heap.Allows ⟨[], [some 16]⟩ ngxPoolAlignment size 16 := by
    refine ⟨by omega, Nat.dvd_refl 16, ?_, List.forall_mem_nil _⟩
    rw [block, Region.stop]
    dsimp only
    omega
  have taken : Heap.alloc ⟨[], [some 16]⟩ ngxPoolAlignment size =
      (some 16, ⟨[⟨16, size⟩], []⟩) := by
    unfold Heap.alloc
    dsimp only
    rw [if_pos allows, block]
  have sub : sizeSub size sizeofPool = size - sizeofPool :=
    sizeSub_eq (by unfold sizeofPool; omega) (by omega)
  have made : ngxCreatePool ⟨[], [some 16]⟩ size =
      (some (single size (16 + sizeofPool) 0), ⟨[⟨16, size⟩], []⟩) := by
    unfold ngxCreatePool
    rw [taken, sub]
    unfold single
    have max : (if size - sizeofPool < ngxMaxAllocFromPool then size - sizeofPool
        else ngxMaxAllocFromPool) = min (size - sizeofPool) ngxMaxAllocFromPool := by
      split <;> omega
    rw [← max]
  rw [step]
  unfold Pools.init
  rw [made]
  rfl

/-- One byte after the other fills the block. -/
theorem single_filled (mem : Nat → Byte) (least : ngxMinPoolSize ≤ size) (below : size ≤ 2 ^ 62)
    (k : Nat) (room : 16 + sizeofPool + k ≤ 16 + size) :
    ∃ acc small, exec step (alone size mem (16 + sizeofPool) 0 [])
      ((List.replicate k (Call.pnalloc 1)).map (.call 0)) =
        some (alone size mem (16 + sizeofPool + k) acc small) := by
  suffices filled : ∀ j last acc small, last + j ≤ 16 + size →
      ∃ acc' small', exec step (alone size mem last acc small)
        ((List.replicate j (Call.pnalloc 1)).map (.call 0)) =
          some (alone size mem (last + j) acc' small') from filled k _ _ _ room
  intro j
  induction j with
  | zero => exact fun last acc small _ => ⟨acc, small, rfl⟩
  | succ j ih =>
    intro last acc small room
    have pos : 128 ≤ size := least
    have fits : 1 ≤ min (size - sizeofPool) ngxMaxAllocFromPool := by
      unfold sizeofPool ngxMaxAllocFromPool
      omega
    have offered : 1 ≤ sizeSub (16 + size) (id last) := by
      rw [id, sizeSub_eq (by omega) (by omega)]
      omega
    have stepped : step (alone size mem last acc small) (.call 0 (.pnalloc 1)) =
        some (alone size mem (last + 1) ((acc + 1) % 2 ^ 64) (⟨last, 1⟩ :: small)) :=
      alone_call id (fun _ _ _ => rfl) fits offered
    obtain ⟨acc', small', run⟩ := ih (last + 1) ((acc + 1) % 2 ^ 64) (⟨last, 1⟩ :: small)
      (by omega)
    refine ⟨acc', small', ?_⟩
    rw [List.replicate_succ, List.map_cons, exec, stepped, Option.bind_some, run]
    congr 2
    omega

end Other

/-- **The small regions stay in the blocks of a pool in every run of calls with it if and only if its
size is a multiple of the alignment.** -/
theorem inside_iff_multiple (size : Nat) (least : ngxMinPoolSize ≤ size) (below : size ≤ 2 ^ 62) :
    (∀ (h : Heap) (mem : Nat → Byte) (cs : List Call) (s : Pools), h.Ok → (∀ c ∈ cs, ¬ c.empties) →
      exec step (Pools.init h mem) (.create size :: cs.map (.call 0)) = some s → s.Inside) ↔
      16 ∣ size := by
  constructor
  · intro inside
    by_contra other
    have pos : 128 ≤ size := least
    obtain ⟨acc, small, filled⟩ := single_filled (fun _ => 0#8) least below
      (size - sizeofPool) (by unfold sizeofPool; omega)
    have full : 16 + sizeofPool + (size - sizeofPool) = 16 + size := by
      unfold sizeofPool
      omega
    rw [full] at filled
    have behind : 16 + size < ngxAlignPtr (16 + size) ∧ ngxAlignPtr (16 + size) < 32 + size := by
      unfold ngxAlignPtr
      omega
    have last : step (alone size (fun _ => 0#8) (16 + size) acc small) (.call 0 (.palloc 1)) = _ :=
      alone_call ngxAlignPtr (fun _ _ _ => rfl)
        (by unfold sizeofPool ngxMaxAllocFromPool; omega) (by unfold sizeSub; omega)
    have run : exec step (Pools.init ⟨[], [some 16]⟩ fun _ => 0#8) (.create size ::
        (List.replicate (size - sizeofPool) (Call.pnalloc 1) ++ [Call.palloc 1]).map (.call 0)) =
        some (alone size (fun _ => 0#8) (ngxAlignPtr (16 + size) + 1) ((acc + 1) % 2 ^ 64)
          (⟨ngxAlignPtr (16 + size), 1⟩ :: small)) := by
      rw [exec, single_created least below, Option.bind_some, List.map_append, exec_append, filled,
        Option.bind_some, List.map_singleton, exec, last]
      rfl
    have keeps : ∀ c ∈ List.replicate (size - sizeofPool) (Call.pnalloc 1) ++ [Call.palloc 1],
        ¬ c.empties := by
      intro c member
      rcases List.mem_append.1 member with filling | last
      · rw [List.eq_of_mem_replicate filling]
        decide
      · rw [List.mem_singleton.1 last]
        decide
    obtain ⟨b, inChain, within⟩ := inside _ _ _ _ ⟨.nil, List.forall_mem_nil _⟩ keeps run _
      List.mem_cons_self _ List.mem_cons_self
    rw [List.mem_singleton.1 inChain] at within
    have stop : ngxAlignPtr (16 + size) + 1 ≤ 16 + size := within.2
    omega
  · intro multiple h mem cs s ok keeps run
    obtain ⟨m, made, rest⟩ := exec_cons run
    obtain ⟨m', possible, inv⟩ := (Pools.init_inv ok mem).next (a := .create size) ⟨multiple, least⟩
    obtain rfl : m' = m := Option.some_inj.1 (possible.symm.trans made)
    exact (calls_correct keeps inv rest).inside

/-- A pool of 144 bytes that grows, with a large region that is given back. -/
theorem inside_iff_multiple_sample :
    let cs : List Call := [.pnalloc 7, .palloc 56, .pcalloc 200, .pstrdup (.letter 0), .palloc 50,
      .pfree (some 768), .palloc 50, .cleanupAdd 9 none]
    ∃ s ∈ exec step samplePools (.create 144 :: cs.map (.call 0)), s.Inside ∧
      ∃ e ∈ s.pools, e.2.small.length = 6 := by
  intro cs
  have sample : ∃ s ∈ exec step samplePools (.create 144 :: cs.map (.call 0)),
      ∃ e ∈ s.pools, e.2.small.length = 6 := by decide +kernel
  obtain ⟨s, run, small⟩ := sample
  refine ⟨s, run, (inside_iff_multiple 144 (by decide) (by decide)).2 (by decide) _ _ cs s
    sampleHeap_ok ?_ run, small⟩
  decide

end SpiderFrame.Pool
