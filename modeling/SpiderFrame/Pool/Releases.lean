import SpiderFrame.Pool.Requests

/-!
# Pools are created, emptied and destroyed

The other operations of `ngx_palloc.c` keep the invariant as well. None of them frees memory that is not
in use: `free` never comes back without a heap.
-/

namespace SpiderFrame.Pool
open SpiderFrame.Base

/-- What the users hold after `ngx_pfree(pool, ptr)`. -/
def InUse.giveBack (u : InUse) (pool : NgxPool) (ptr : Option Nat) : InUse :=
  { u with pool := pool, big := u.big.eraseP fun r => some r.start = ptr }

/-- What the users hold after `ngx_pool_cleanup_add(pool, n)`: the data of the new handler. -/
def InUse.addData (u : InUse) (n : Nat) (pool : NgxPool) (ptr : Option Nat) : InUse :=
  u.grant n pool (ptr.bind fun _ => pool.cleanup.head?.bind Cleanup.data)

section Free

variable {size : Nat} {others : List Region} {u : InUse} {h : Heap} {p : NgxPool}
  {small big : List Region} {ptr : Option Nat}

theorem clearEntry_none {ls : List Large} (missing : clearEntry ptr ls = none) :
    ∀ l ∈ ls, l.alloc ≠ ptr := by
  induction ls with
  | nil => exact List.forall_mem_nil _
  | cons l ls ih =>
    rw [clearEntry] at missing
    split at missing
    · cases missing
    · rename_i other
      exact List.forall_mem_cons.2 ⟨other, ih (Option.map_eq_none_iff.1 missing)⟩

theorem clearEntry_some {ls ls' : List Large} (found : clearEntry ptr ls = some ls') :
    ls'.map Large.node = ls.map Large.node ∧
      (ls.filterMap Large.alloc).Perm (ptr.toList ++ ls'.filterMap Large.alloc) := by
  induction ls generalizing ls' with
  | nil => cases found
  | cons l ls ih =>
    rw [clearEntry] at found
    split at found
    · rename_i same
      cases found
      refine ⟨rfl, ?_⟩
      cases ptr with
      | none =>
        rw [List.filterMap_cons_none same, List.filterMap_cons_none rfl]
        exact List.Perm.refl _
      | some a =>
        rw [List.filterMap_cons_some same]
        exact List.Perm.refl _
    · obtain ⟨ls₁, later, rfl⟩ := Option.map_eq_some_iff.1 found
      obtain ⟨nodes, allocs⟩ := ih later
      refine ⟨by rw [List.map_cons, List.map_cons, nodes], ?_⟩
      cases entry : l.alloc with
      | none => rwa [List.filterMap_cons_none entry, List.filterMap_cons_none entry]
      | some b =>
        rw [List.filterMap_cons_some entry, List.filterMap_cons_some entry]
        exact (allocs.cons b).trans List.perm_middle.symm

/-- **`ngx_pfree` of any pointer at all.** -/
theorem Kept.pfree (k : Kept size others u h) (ptr : Option Nat) :
    ∃ ok pool h', ngxPfree u.pool h ptr = some (ok, pool, h') ∧
      Kept size others (u.giveBack pool ptr) h' ∧
      (ok = false → (∀ r ∈ u.big, some r.start ≠ ptr) ∧ pool = u.pool ∧ h' = h) ∧
      (∀ a, ok = true → ptr = some a →
        ∃ r ∈ u.big, r.start = a ∧ h.live.Perm (r :: h'.live)) := by
  obtain ⟨p, small, big⟩ := u
  unfold ngxPfree InUse.giveBack
  cases found : clearEntry ptr p.large with
  | none =>
    have absent : ∀ r ∈ big, ¬ some r.start = ptr := by
      intro r member same
      have there : r.start ∈ p.large.filterMap Large.alloc :=
        k.ok.large.symm.subset (List.mem_map_of_mem member)
      obtain ⟨l, entry, alloc⟩ := List.mem_filterMap.1 there
      exact clearEntry_none found l entry (alloc.trans same)
    have stays : big.eraseP (fun r => some r.start = ptr) = big :=
      List.eraseP_of_forall_not fun r member => by simpa using absent r member
    refine ⟨false, p, h, rfl, ?_, fun _ => ⟨absent, rfl, rfl⟩, fun a wrong => nomatch wrong⟩
    rw [stays]
    exact k
  | some ls =>
    obtain ⟨nodes, allocs⟩ := clearEntry_some found
    have arena : Arena (p.chain.map Block.span)
        (NgxPool.structures { p with large := ls } ++ small) := by
      rw [structures_of_nodes nodes]
      exact k.ok.arena
    cases ptr with
    | none =>
      have stays : big.eraseP (fun r => some r.start = none) = big :=
        List.eraseP_of_forall_not fun r _ => by simp
      refine ⟨true, { p with large := ls }, h, rfl, ?_, (fun wrong => nomatch wrong),
        fun a _ some_ => nomatch some_⟩
      rw [stays]
      exact ⟨⟨k.ok.made, k.ok.blocks, k.ok.max, arena, allocs.symm.trans k.ok.large⟩, k.heap,
        k.live⟩
    | some a =>
      have there : a ∈ big.map Region.start :=
        k.ok.large.subset (allocs.symm.subset (List.mem_append_left _ List.mem_cons_self))
      obtain ⟨r, member, start⟩ := List.mem_map.1 there
      obtain ⟨r', before, after, -, here, split, erased⟩ :=
        List.exists_of_eraseP (p := fun r => some r.start = some a) member (by simpa using start)
      have starts : r'.start = a := by simpa using here
      have taken : big.Perm (r' :: (before ++ after)) := split ▸ List.perm_middle
      have live : h.live.Perm
          (r' :: (InUse.held ⟨{ p with large := ls }, small, before ++ after⟩ ++ others)) := by
        refine k.live.trans ?_
        unfold InUse.held
        have moved := (taken.append_left (p.chain.map fun b => b.span.whole)).trans List.perm_middle
        exact moved.append_right others
      obtain ⟨h', freed, ok, live'⟩ := k.heap.free live
      rw [starts] at freed
      refine ⟨true, { p with large := ls }, h', ?_, ?_, (fun wrong => nomatch wrong), ?_⟩
      · exact congrArg (Option.map _) freed
      · rw [erased]
        refine ⟨⟨k.ok.made, k.ok.blocks, k.ok.max, arena, ?_⟩, ok, live'⟩
        have both := (allocs.symm.trans k.ok.large).trans (taken.map Region.start)
        rw [List.map_cons, starts] at both
        exact (List.perm_cons a).1 both
      · rintro _ - same
        cases same
        exact ⟨r', taken.symm.subset List.mem_cons_self, starts,
          live.trans (live'.symm.cons r')⟩

end Free

/-! ## Cleanup handlers -/

section Handlers

variable {size : Nat} {others : List Region} {u : InUse} {h : Heap} {p : NgxPool}
  {small big : List Region}

/-- **A handler** takes a small region of its size. -/
theorem Kept.addCleanup {node : Nat} {data : Option Nat} {held : List Region}
    (k : Kept size others ⟨p, held, big⟩ h)
    (taken : held.Perm (⟨node, sizeofPoolCleanup⟩ :: small)) :
    Kept size others ⟨{ p with cleanup := ⟨node, none, data⟩ :: p.cleanup }, small, big⟩ h := by
  refine ⟨⟨k.ok.made, k.ok.blocks, k.ok.max, ?_, k.ok.large⟩, k.heap, k.live⟩
  refine k.ok.arena.perm ?_
  unfold NgxPool.structures
  simp only [NgxPool.chain, List.map_cons, List.append_assoc, List.cons_append]
  refine List.Perm.append_left _ (List.Perm.append_left _ ?_)
  exact List.perm_middle.symm.trans (taken.symm.append_left _)

/-- Small regions that the users give up. -/
theorem Kept.forget {r : Region} (k : Kept size others ⟨p, r :: small, big⟩ h) :
    Kept size others ⟨p, small, big⟩ h := by
  refine ⟨⟨k.ok.made, k.ok.blocks, k.ok.max, ?_, k.ok.large⟩, k.heap, k.live⟩
  exact k.ok.arena.sublist ((List.sublist_cons_self r small).append_left _)

/-- Handlers at the same places. -/
theorem Kept.handlers (k : Kept size others ⟨p, small, big⟩ h) {cs : List Cleanup}
    (nodes : cs.map Cleanup.node = p.cleanup.map Cleanup.node) :
    Kept size others ⟨{ p with cleanup := cs }, small, big⟩ h := by
  have regions : cs.map (fun c => (⟨c.node, sizeofPoolCleanup⟩ : Region)) =
      p.cleanup.map fun c => ⟨c.node, sizeofPoolCleanup⟩ := by
    have mapped := congrArg (List.map fun node => (⟨node, sizeofPoolCleanup⟩ : Region)) nodes
    rwa [List.map_map, List.map_map] at mapped
  have structures : NgxPool.structures { p with cleanup := cs } = p.structures := by
    unfold NgxPool.structures
    rw [regions]
    rfl
  refine ⟨⟨k.ok.made, k.ok.blocks, k.ok.max, ?_, k.ok.large⟩, k.heap, k.live⟩
  rw [structures]
  exact k.ok.arena

/-- **A new handler.** -/
theorem Kept.cleanupAdd (k : Kept size others u h) (fuel n : Nat) :
    ∃ got, ngxPoolCleanupAdd (fuel + 2) u.pool h n = some got ∧
      Kept size others (u.addData n got.pool got.ptr) got.heap := by
  unfold ngxPoolCleanupAdd ngxPalloc InUse.addData
  obtain ⟨got, returned, kept, -⟩ := k.request places_align fuel sizeofPoolCleanup
  rw [returned, Option.bind_some]
  have fits : sizeofPoolCleanup ≤ u.pool.max := k.ok.max_bounds.2
  cases node : got.ptr with
  | none =>
    refine ⟨got, rfl, ?_⟩
    rw [node] at kept ⊢
    exact kept
  | some a =>
    rw [node] at kept
    unfold InUse.grant at kept
    dsimp only at kept ⊢
    rw [if_pos fits] at kept
    by_cases zero : n = 0
    · rw [if_pos zero]
      exact ⟨_, rfl, kept.addCleanup (List.Perm.refl _)⟩
    · rw [if_neg zero]
      obtain ⟨got', returned', kept', -⟩ := kept.request places_align fuel n
      dsimp only at returned'
      rw [returned', Option.map_some]
      refine ⟨_, rfl, ?_⟩
      have same : got.pool.max = u.pool.max := kept.ok.max.trans k.ok.max.symm
      unfold InUse.grant at kept' ⊢
      dsimp only at kept'
      rw [same] at kept'
      cases data : got'.ptr with
      | none =>
        rw [data] at kept'
        dsimp only
        rw [data]
        exact kept'.forget
      | some d =>
        rw [data] at kept'
        dsimp only [List.head?_cons, Option.bind_some] at kept' ⊢
        by_cases fits' : n ≤ u.pool.max
        · rw [if_pos fits'] at kept' ⊢
          exact kept'.addCleanup (List.Perm.swap _ _ _)
        · rw [if_neg fits'] at kept' ⊢
          exact kept'.addCleanup (List.Perm.refl _)

theorem Kept.setHandler (k : Kept size others u h) (node : Nat) (handler : Option Handler) :
    Kept size others { u with pool := Pool.setHandler u.pool node handler } h := by
  refine k.handlers ?_
  rw [List.map_map]
  refine List.map_congr_left fun c _ => ?_
  dsimp only [Function.comp_apply]
  split <;> rfl

theorem runCleanupLoop_nodes (fd : Int) (cs : List Cleanup) :
    (runCleanupLoop fd cs).1.map Cleanup.node = cs.map Cleanup.node := by
  induction cs with
  | nil => rfl
  | cons c cs ih =>
    rw [runCleanupLoop]
    split
    · rfl
    · rw [List.map_cons, List.map_cons, ih]

theorem Kept.runCleanup (k : Kept size others u h) (fd : Int) :
    Kept size others { u with pool := (ngxPoolRunCleanupFile u.pool fd).1 } h :=
  k.handlers (runCleanupLoop_nodes fd u.pool.cleanup)

end Handlers

/-! ## Everything at once -/

section All

variable {size : Nat} {others : List Region} {u : InUse} {h : Heap} {p : NgxPool}
  {small big : List Region}

/-- The large allocations go back in the order of the list. -/
theorem Kept.freeLarge (k : Kept size others ⟨p, small, big⟩ h) :
    ∃ h', h.freeAll (p.large.filterMap Large.alloc) = some h' ∧ h'.Ok ∧
      h'.live.Perm (p.chain.map (fun b => b.span.whole) ++ others) := by
  obtain ⟨rs, starts, perm⟩ : ∃ rs : List Region, p.large.filterMap Large.alloc = rs.map Region.start ∧
      rs.Perm big := by
    have comp : Relation.Comp (fun as rs => as = List.map Region.start rs) List.Perm
        (p.large.filterMap Large.alloc) big := by
      rw [List.eq_map_comp_perm]
      exact k.ok.large
    exact comp
  have live : h.live.Perm (rs ++ (p.chain.map (fun b => b.span.whole) ++ others)) := by
    refine k.live.trans ?_
    unfold InUse.held
    rw [← List.append_assoc]
    exact (List.perm_append_comm.trans (perm.symm.append_right _)).append_right others
  obtain ⟨h', freed, ok, live'⟩ := k.heap.freeAll live
  exact ⟨h', starts ▸ freed, ok, live'⟩

/-- **A pool without handlers is emptied.** -/
theorem Kept.reset (k : Kept size others u h) (noHandler : u.pool.cleanup = []) :
    ∃ pool h', ngxResetPool u.pool h = some (pool, h') ∧ Kept size others ⟨pool, [], []⟩ h' := by
  obtain ⟨p, small, big⟩ := u
  obtain ⟨h', freed, ok, live⟩ := k.freeLarge
  unfold ngxResetPool
  rw [freed]
  refine ⟨_, h', rfl, ?_⟩
  have max := k.ok.max_bounds
  have sized := k.ok.blocks
  have arena := k.ok.arena
  dsimp only at noHandler max sized arena
  have some_ : p.chain.map (fun b => { b with last := b.addr + sizeofPool }) ≠ [] := by
    simp [NgxPool.chain]
  have chain : ∀ q : NgxPool,
      q = { p.setChain (p.chain.map fun b => { b with last := b.addr + sizeofPool }) with
        large := [] } → q.chain = p.chain.map fun b => { b with last := b.addr + sizeofPool } := by
    rintro q rfl
    exact setChain_chain some_
  have structures : NgxPool.structures
      { p.setChain (p.chain.map fun b => { b with last := b.addr + sizeofPool }) with large := [] } =
      headers (p.chain.map Block.addr) := by
    unfold NgxPool.structures
    rw [chain _ rfl, List.map_map]
    simp only [List.map_nil, setChain_cleanup, noHandler, List.append_nil]
    rfl
  refine ⟨⟨k.ok.made, ?_, ?_, ?_, List.Perm.refl _⟩, ok, ?_⟩
  · intro b member
    rw [chain _ rfl] at member
    obtain ⟨c, old, rfl⟩ := List.mem_map.1 member
    obtain ⟨aligned, stop, below, header, room⟩ := sized c old
    refine ⟨aligned, stop, below, ?_, ?_⟩
    · exact Nat.add_le_add_left (by decide) _
    · rw [stop]
      exact Nat.add_le_add_left (by omega) _
  · dsimp only
    rw [setChain_max]
    exact k.ok.max
  · rw [structures, List.append_nil, chain _ rfl]
    refine arena.remark ?_ ?_ ?_ ?_
    · rw [List.map_map, List.map_map, List.map_map]
      rfl
    · intro s member
      obtain ⟨b, inChain, rfl⟩ := List.mem_map.1 member
      obtain ⟨c, old, rfl⟩ := List.mem_map.1 inChain
      have stop := (sized c old).stop
      unfold Block.span
      dsimp only
      omega
    · unfold NgxPool.structures
      rw [List.append_assoc]
      exact List.sublist_append_left _ _
    · intro r member
      have here : ∃ b ∈ p.chain, r.start = b.addr ∧ r.size ≤ sizeofPool := by
        unfold NgxPool.chain headers at member
        rw [List.map_cons] at member
        rcases List.mem_cons.1 member with rfl | inRest
        · exact ⟨p.first, by simp [NgxPool.chain], rfl, Nat.le_refl _⟩
        · obtain ⟨a, inAddrs, rfl⟩ := List.mem_map.1 inRest
          obtain ⟨b, inBlocks, rfl⟩ := List.mem_map.1 inAddrs
          refine ⟨b, by simp [NgxPool.chain, inBlocks], rfl, ?_⟩
          exact Nat.le_of_ble_eq_true rfl
      obtain ⟨b, inChain, start, le⟩ := here
      refine ⟨_, List.mem_map_of_mem (List.mem_map_of_mem inChain), ?_⟩
      unfold Block.span Region.stop
      dsimp only
      omega
  · unfold InUse.held
    rw [chain _ rfl, List.map_map, List.append_nil]
    exact live

/-- **A pool is destroyed**: all it held goes back, and its handlers run in the order of the list. -/
theorem Kept.destroy (k : Kept size others u h) :
    ∃ h', ngxDestroyPool u.pool h = some (u.pool.cleanup.filterMap Cleanup.handler, h') ∧ h'.Ok ∧
      h'.live.Perm others := by
  obtain ⟨p, small, big⟩ := u
  obtain ⟨h₁, freed, ok, live⟩ := k.freeLarge
  obtain ⟨h', freedBlocks, ok', live'⟩ := ok.freeAll live
  rw [List.map_map] at freedBlocks
  refine ⟨h', ?_, ok', live'⟩
  unfold ngxDestroyPool
  rw [freed, Option.bind_some]
  exact congrArg (Option.map _) freedBlocks

/-- **A pool is created.** -/
theorem created {live : List Region} {h' : Heap} {answer : Option NgxPool} (ok : h.Ok)
    (multiple : 16 ∣ size) (enough : ngxMinPoolSize ≤ size)
    (same : h.live.Perm live) (taken : ngxCreatePool h size = (answer, h')) :
    (answer = none ∧ h'.Ok ∧ h'.live.Perm live) ∨
      ∃ p, answer = some p ∧ p.cleanup = [] ∧ Kept size live ⟨p, [], []⟩ h' := by
  unfold ngxCreatePool at taken
  cases call : h.alloc ngxPoolAlignment size with
  | mk ptr h₁ =>
    rw [call] at taken
    have ok₁ := ok.alloc call
    rcases Heap.alloc_cases call with ⟨rfl, live₁⟩ | ⟨a, rfl, allows, live₁⟩
    · cases taken
      exact .inl ⟨rfl, ok₁, live₁ ▸ same⟩
    · cases taken
      have below : a + size ≤ 2 ^ 63 := by
        have stop := allows.2.2.1
        unfold Heap.block Region.stop at stop
        dsimp only at stop
        omega
      have least : 128 ≤ size := enough
      have sub : sizeSub size sizeofPool = size - 88 := sizeSub_eq (by unfold sizeofPool; omega)
        (by omega)
      refine .inr ⟨_, rfl, rfl, ⟨⟨multiple, enough⟩, ?_, ?_, ?_, List.Perm.refl _⟩, ok₁, ?_⟩
      · intro b member
        rw [List.mem_singleton.1 member]
        refine ⟨allows.2.1, rfl, below, Nat.add_le_add_left (by decide) a, ?_⟩
        unfold sizeofPool
        dsimp only
        omega
      · rw [sub]
        unfold sizeofPool ngxMaxAllocFromPool
        dsimp only
        split <;> omega
      · refine Arena.grow Arena.nil _ [⟨a, sizeofPool⟩] ⟨Nat.le_add_right _ _, ?_⟩
          (List.forall_mem_nil _) ?_ (List.pairwise_singleton _ _)
        · unfold Block.span sizeofPool
          dsimp only
          omega
        · intro r member
          rw [List.mem_singleton.1 member]
          exact ⟨Nat.le_refl _, Nat.le_refl _⟩
      · have whole : (Block.span ⟨a, a + sizeofPool, a + size, 0⟩).whole = Heap.block a size := by
          simp only [Block.span, Span.whole, Heap.block, Region.mk.injEq, true_and]
          omega
        rw [live₁, ← whole]
        exact same.cons _

end All

end SpiderFrame.Pool
