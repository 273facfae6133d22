import SpiderFrame.Pool.Invariant

/-!
# Requests keep the invariant

`Kept` puts a pool into the heap, beside memory that is not the pool's (`others`). A request moves one
region from the free memory to what the users hold: from the space of a block or from a new block for a
small one, and from the heap for a large one, with an entry in the list of the pool.
-/

namespace SpiderFrame.Pool
open SpiderFrame.Base

/-- The pool is in order, and the heap holds what the pool holds, and `others`. -/
structure Kept (size : Nat) (others : List Region) (u : InUse) (h : Heap) : Prop where
  ok : u.Ok size
  heap : h.Ok
  live : h.live.Perm (u.held ++ others)

/-- What the users hold after a request for `n` bytes that returned `ptr`. -/
def InUse.grant (u : InUse) (n : Nat) (pool : NgxPool) (ptr : Option Nat) : InUse :=
  match ptr with
  | none => { u with pool := pool }
  | some m =>
    if n ≤ u.pool.max then { u with pool := pool, small := ⟨m, n⟩ :: u.small }
    else { u with pool := pool, big := Heap.block m n :: u.big }

/-- What the users hold after `ngx_pmemalign(pool, n, _)`. -/
def InUse.grantLarge (u : InUse) (n : Nat) (pool : NgxPool) (ptr : Option Nat) : InUse :=
  { u with pool := pool, big := ptr.toList.map (fun a => Heap.block a n) ++ u.big }

section Small

variable {size n : Nat} {others : List Region} {u : InUse} {h : Heap} {place : Nat → Nat}
  {p : NgxPool} {small big : List Region}

theorem Kept.size_pos (k : Kept size others u h) : 0 < size := by
  exact Nat.lt_of_lt_of_le (by decide) k.ok.made.2

/-- Blocks of the pool are in the heap. -/
theorem Kept.block_live (k : Kept size others u h) {b : Block} (member : b ∈ u.pool.chain) :
    b.span.whole ∈ h.live := by
  refine k.live.symm.subset (List.mem_append_left _ (List.mem_append_left _ ?_))
  exact List.mem_map_of_mem member

/-- A request leaves `acc` in the pool, which nothing reads. -/
theorem Kept.account (k : Kept size others u h) (n : Nat) :
    Kept size others { u with pool := u.pool.account n } h :=
  ⟨⟨k.ok.made, k.ok.blocks, k.ok.max, k.ok.arena, k.ok.large⟩, k.heap, k.live⟩

/-- **Space behind the mark of a block.** -/
theorem Kept.carve (k : Kept size others ⟨p, small, big⟩ h) {pre post : List Block} {b : Block}
    {m : Nat} (chain : p.chain = pre ++ b :: post) (above : b.last ≤ m) (fits : m + n ≤ b.stop) :
    Kept size others
      ⟨p.setChain (pre ++ { b with last := m + n } :: post), ⟨m, n⟩ :: small, big⟩ h := by
  have some_ : pre ++ { b with last := m + n } :: post ≠ [] := by simp
  have sized := k.ok.blocks
  have arena := k.ok.arena
  simp only [chain] at sized arena
  have addrs : (pre ++ { b with last := m + n } :: post).map Block.addr =
      (pre ++ b :: post).map Block.addr := by simp
  have wholes : (pre ++ { b with last := m + n } :: post).map (fun b => b.span.whole) =
      (pre ++ b :: post).map (fun b => b.span.whole) := by simp [Block.span, Span.whole]
  have sizedHere := sized b (by simp)
  refine ⟨⟨k.ok.made, ?_, ?_, ?_, ?_⟩, k.heap, ?_⟩
  · intro c member
    rw [setChain_chain some_, List.mem_append, List.mem_cons] at member
    rcases member with inPre | rfl | inPost
    · exact sized c (by simp [inPre])
    · exact ⟨sizedHere.aligned, sizedHere.stop, sizedHere.below,
        Nat.le_trans sizedHere.header (by dsimp only; omega), fits⟩
    · exact sized c (by simp [inPost])
  · rw [setChain_max]
    exact k.ok.max
  · have raised : Arena (pre.map Block.span ++ { b.span with mark := m + n } :: post.map Block.span)
        (⟨m, n⟩ :: (p.structures ++ small)) := by
      refine Arena.raise (s := b.span) ?_ above fits
      rwa [List.map_append, List.map_cons] at arena
    have carved : ((p.setChain (pre ++ { b with last := m + n } :: post)).structures ++
        ⟨m, n⟩ :: small).Perm (⟨m, n⟩ :: (p.structures ++ small)) := by
      unfold NgxPool.structures
      rw [setChain_chain some_, addrs, setChain_large, setChain_cleanup, ← chain]
      exact List.perm_middle
    have spans : (p.setChain (pre ++ { b with last := m + n } :: post)).chain.map Block.span =
        pre.map Block.span ++ { b.span with mark := m + n } :: post.map Block.span := by
      rw [setChain_chain some_, List.map_append, List.map_cons]
      rfl
    rw [spans]
    exact raised.perm carved
  · rw [setChain_large]
    exact k.ok.large
  · have held : InUse.held ⟨p.setChain (pre ++ { b with last := m + n } :: post), ⟨m, n⟩ :: small,
        big⟩ = InUse.held ⟨p, small, big⟩ := by
      unfold InUse.held
      rw [setChain_chain some_, wholes, ← chain]
    rw [held]
    exact k.live

/-- **A new block**, with its header and a region behind it. -/
theorem Kept.extend (k : Kept size others ⟨p, small, big⟩ h) {bs : List Block}
    (same : bs.map Block.span = p.chain.map Block.span) {a : Nat} {h' : Heap}
    (allows : h.Allows ngxPoolAlignment size a) (live : h'.live = Heap.block a size :: h.live)
    (fits : n ≤ p.max) (current : Nat) :
    Kept size others
      ⟨{ p.setChain (bs ++ [⟨a, a + sizeofPoolData + n, a + size, 0⟩]) with current := current },
        ⟨a + sizeofPoolData, n⟩ :: small, big⟩ h' := by
  have some_ : bs ++ [(⟨a, a + sizeofPoolData + n, a + size, 0⟩ : Block)] ≠ [] := by simp
  have max := k.ok.max_bounds
  have whole : (Block.span ⟨a, a + sizeofPoolData + n, a + size, 0⟩).whole = Heap.block a size := by
    have pos := k.size_pos
    simp only [Block.span, Span.whole, Heap.block, Region.mk.injEq, true_and]
    omega
  have room : a + sizeofPoolData + n ≤ a + size := by
    have roomy := max.1
    dsimp only at roomy
    unfold sizeofPool at roomy
    unfold sizeofPoolData
    omega
  have addrs : bs.map Block.addr = p.chain.map Block.addr := by
    rw [map_addr_span, map_addr_span, same]
  have someAddr : p.chain.map Block.addr ≠ [] := by simp [NgxPool.chain]
  have chain : ∀ q : NgxPool, q = { p.setChain (bs ++ [⟨a, a + sizeofPoolData + n, a + size, 0⟩]) with
      current := current } → q.chain = bs ++ [⟨a, a + sizeofPoolData + n, a + size, 0⟩] := by
    rintro q rfl
    exact setChain_chain some_
  refine ⟨⟨k.ok.made, ?_, ?_, ?_, ?_⟩, k.heap.cons allows live, ?_⟩
  · intro c member
    rw [chain _ rfl, List.mem_append, List.mem_singleton] at member
    rcases member with old | rfl
    · exact forall_sized_of_span k.ok.blocks same c old
    · have below := allows.2.2.1
      rw [← whole] at below
      unfold Block.span Span.whole Region.stop at below
      refine ⟨allows.2.1, rfl, ?_, Nat.le_add_right _ _, room⟩
      dsimp only at below ⊢
      omega
  · have kept : (p.setChain (bs ++ [⟨a, a + sizeofPoolData + n, a + size, 0⟩])).max = p.max :=
      setChain_max _
    dsimp only
    rw [kept]
    exact k.ok.max
  · have grown := k.ok.arena.grow (Block.span ⟨a, a + sizeofPoolData + n, a + size, 0⟩)
      [⟨a, sizeofPoolData⟩, ⟨a + sizeofPoolData, n⟩]
      ⟨by unfold Block.span; dsimp only; omega, room⟩
      (fun s member => by
        obtain ⟨b, old, rfl⟩ := List.mem_map.1 member
        rw [whole]
        exact allows.2.2.2 _ (k.block_live old))
      (by simp [Block.span, Region.stop]) (by simp [Region.Apart, Region.stop])
    have spans : (bs ++ [(⟨a, a + sizeofPoolData + n, a + size, 0⟩ : Block)]).map Block.span =
        p.chain.map Block.span ++ [Block.span ⟨a, a + sizeofPoolData + n, a + size, 0⟩] := by
      rw [List.map_append, same, List.map_singleton]
    rw [chain _ rfl, spans]
    refine grown.perm ?_
    unfold NgxPool.structures
    rw [chain _ rfl, List.map_append, addrs, List.map_singleton, headers_snoc someAddr]
    simp only [setChain_large, setChain_cleanup, List.append_assoc, List.cons_append,
      List.nil_append]
    refine List.perm_middle.trans (List.Perm.cons _ ?_)
    rw [← List.append_assoc, ← List.append_assoc]
    refine List.perm_middle.trans (List.Perm.cons _ ?_)
    rw [List.append_assoc, List.append_assoc]
  · dsimp only
    rw [setChain_large]
    exact k.ok.large
  · have wholes : bs.map (fun b => b.span.whole) = p.chain.map fun b => b.span.whole := by
      have mapped := congrArg (List.map Span.whole) same
      rwa [List.map_map, List.map_map] at mapped
    unfold InUse.held
    rw [chain _ rfl, List.map_append, wholes, List.map_singleton, whole, live]
    refine (List.Perm.cons _ k.live).trans ?_
    unfold InUse.held
    simp only [List.append_assoc, List.cons_append, List.nil_append]
    exact List.perm_middle.symm

/-- The blocks from `current` on, with those before. -/
theorem chain_split (p : NgxPool) : p.chain.take p.current ++ p.chain.drop p.current = p.chain :=
  List.take_append_drop _ _

/-- **A small request**: NULL and the pool as it was, or a region that was free. -/
theorem pallocSmall_cases (places : Places place) (k : Kept size others ⟨p, small, big⟩ h)
    (fits : n ≤ p.max) :
    ((pallocSmall place p h n).ptr = none ∧ (pallocSmall place p h n).pool = p ∧
        (pallocSmall place p h n).heap.live = h.live) ∨
      ∃ m, (pallocSmall place p h n).ptr = some m ∧
        Kept size others ⟨(pallocSmall place p h n).pool, ⟨m, n⟩ :: small, big⟩
          (pallocSmall place p h n).heap ∧
        (16 ∣ m ∨ ∃ q, m = place q) := by
  unfold pallocSmall
  cases found : firstFit place n (p.chain.drop p.current) with
  | some r =>
    obtain ⟨m, bs⟩ := r
    have sized : ∀ b ∈ p.chain.drop p.current, b.Sized size := fun b member =>
      k.ok.blocks b (List.mem_of_mem_drop member)
    obtain ⟨pre, b, post, suffix, rfl, above, enough, at_⟩ :=
      firstFit_spec places k.ok.made.1 sized found
    have chain : p.chain = (p.chain.take p.current ++ pre) ++ b :: post := by
      rw [List.append_assoc, ← suffix, chain_split]
    refine .inr ⟨m, rfl, ?_, .inr ⟨_, at_⟩⟩
    have carved := k.carve chain above enough
    rwa [List.append_assoc] at carved
  | none =>
    dsimp only
    have psize : p.psize = size := by
      have first := k.ok.blocks p.first (by simp [NgxPool.chain])
      rw [NgxPool.psize, sizeSub_eq (by rw [first.stop]; omega) first.below, first.stop]
      omega
    unfold ngxPallocBlock
    rw [psize]
    cases taken : h.alloc ngxPoolAlignment size with
    | mk answer h' =>
      rcases Heap.alloc_cases taken with ⟨rfl, live⟩ | ⟨a, rfl, allows, live⟩
      · exact .inl ⟨rfl, rfl, live⟩
      · have dvd : 16 ∣ a := allows.2.1
        have aligned : ngxAlignPtr (a + sizeofPoolData) = a + sizeofPoolData := by
          unfold ngxAlignPtr sizeofPoolData
          omega
        have same : (p.chain.take p.current ++
            (markFailed p.current p.current (p.chain.drop p.current)).2).map Block.span =
            p.chain.map Block.span := by
          rw [List.map_append, markFailed_span, ← List.map_append, chain_split]
        dsimp only
        rw [aligned, ← List.append_assoc]
        refine .inr ⟨_, rfl, k.extend same allows live fits _, .inl ?_⟩
        unfold sizeofPoolData
        omega

end Small

/-! ## Large requests -/

section Large

variable {size n a : Nat} {others : List Region} {u : InUse} {h : Heap} {p : NgxPool}
  {small big : List Region}

/-- The heap without a region that is not the pool's. -/
theorem Kept.release {r : Region} (k : Kept size (r :: others) u h) :
    ∃ h', h.free r.start = some h' ∧ Kept size others u h' := by
  obtain ⟨h', freed, ok, live⟩ := k.heap.free (k.live.trans List.perm_middle)
  exact ⟨h', freed, k.ok, ok, live⟩

/-- A region of the heap that the pool is yet to take. -/
theorem Kept.set_aside (k : Kept size others u h) {h' : Heap} {alignment : Nat}
    (allows : h.Allows alignment n a) (live : h'.live = Heap.block a n :: h.live) :
    Kept size (Heap.block a n :: others) u h' :=
  ⟨k.ok, k.heap.cons allows live, live ▸ (List.Perm.cons _ k.live).trans List.perm_middle.symm⟩

theorem Kept.live_same (k : Kept size others u h) {h' : Heap} (live : h'.live = h.live) :
    Kept size others u h' :=
  ⟨k.ok, ⟨live ▸ k.heap.apart, live ▸ k.heap.pos⟩, live ▸ k.live⟩

/-- **A new entry**, at a small region of its size. -/
theorem Kept.enter {node : Nat}
    (k : Kept size (Heap.block a n :: others) ⟨p, ⟨node, sizeofPoolLarge⟩ :: small, big⟩ h) :
    Kept size others
      ⟨{ p with large := ⟨node, some a⟩ :: p.large }, small, Heap.block a n :: big⟩ h := by
  refine ⟨⟨k.ok.made, k.ok.blocks, k.ok.max, ?_, k.ok.large.cons a⟩, k.heap, ?_⟩
  · refine k.ok.arena.perm ?_
    unfold NgxPool.structures
    simp only [NgxPool.chain, List.map_cons, List.append_assoc, List.cons_append]
    refine List.Perm.append_left _ ?_
    rw [← List.append_assoc, ← List.append_assoc]
    exact List.perm_middle.symm
  · refine k.live.trans ?_
    unfold InUse.held
    rw [List.append_assoc, List.append_assoc]
    exact List.Perm.append_left _ List.perm_middle

theorem reuseEntry_spec {ls ls' : List Large} {i : Nat} (found : reuseEntry a i ls = some ls') :
    ls'.map Large.node = ls.map Large.node ∧
      (ls'.filterMap Large.alloc).Perm (a :: ls.filterMap Large.alloc) := by
  induction ls generalizing i ls' with
  | nil => cases found
  | cons l ls ih =>
    rw [reuseEntry] at found
    split at found
    · rename_i empty
      cases found
      refine ⟨rfl, ?_⟩
      rw [List.filterMap_cons_none empty]
      exact List.Perm.refl _
    · split at found
      · cases found
      · obtain ⟨ls₁, later, rfl⟩ := Option.map_eq_some_iff.1 found
        obtain ⟨nodes, allocs⟩ := ih later
        refine ⟨by rw [List.map_cons, List.map_cons, nodes], ?_⟩
        cases entry : l.alloc with
        | none => rwa [List.filterMap_cons_none entry, List.filterMap_cons_none entry]
        | some b =>
          rw [List.filterMap_cons_some entry, List.filterMap_cons_some entry]
          exact (allocs.cons b).trans (List.Perm.swap a b _)

/-- Entries at the same places, with other allocations. -/
theorem structures_of_nodes {ls : List Large} (nodes : ls.map Large.node = p.large.map Large.node) :
    NgxPool.structures { p with large := ls } = p.structures := by
  have regions : ls.map (fun l => (⟨l.node, sizeofPoolLarge⟩ : Region)) =
      p.large.map fun l => ⟨l.node, sizeofPoolLarge⟩ := by
    have mapped := congrArg (List.map fun node => (⟨node, sizeofPoolLarge⟩ : Region)) nodes
    rwa [List.map_map, List.map_map] at mapped
  unfold NgxPool.structures
  rw [regions]
  rfl

/-- **An entry that has lost its allocation takes the new one.** -/
theorem Kept.reuse {ls : List Large} {i : Nat}
    (k : Kept size (Heap.block a n :: others) ⟨p, small, big⟩ h)
    (found : reuseEntry a i p.large = some ls) :
    Kept size others ⟨{ p with large := ls }, small, Heap.block a n :: big⟩ h := by
  obtain ⟨nodes, allocs⟩ := reuseEntry_spec found
  refine ⟨⟨k.ok.made, k.ok.blocks, k.ok.max, ?_, ?_⟩, k.heap, ?_⟩
  · rw [structures_of_nodes nodes]
    exact k.ok.arena
  · exact allocs.trans (k.ok.large.cons a)
  · refine k.live.trans ?_
    unfold InUse.held
    rw [List.append_assoc, List.append_assoc]
    exact List.Perm.append_left _ List.perm_middle

/-- **The entry of an allocation**: without memory for it the allocation goes back to the heap. -/
theorem Kept.entered (k : Kept size (Heap.block a n :: others) ⟨p, small, big⟩ h) (fuel : Nat) :
    ∃ got, (ngxPalloc (fuel + 1) p h sizeofPoolLarge).bind (enterLarge a) = some got ∧
      ((got.ptr = none ∧ Kept size others ⟨got.pool, small, big⟩ got.heap) ∨
        (got.ptr = some a ∧
          Kept size others ⟨got.pool, small, Heap.block a n :: big⟩ got.heap)) := by
  have fits : sizeofPoolLarge ≤ p.max := Nat.le_trans (by decide) k.ok.max_bounds.2
  have account := k.account sizeofPoolLarge
  rw [ngxPalloc, request, if_pos fits, Option.bind_some]
  have cases_ := pallocSmall_cases places_align account fits
  generalize pallocSmall ngxAlignPtr (p.account sizeofPoolLarge) h sizeofPoolLarge = got at *
  rcases cases_ with ⟨null, pool, live⟩ | ⟨node, ptr, kept, -⟩
  · obtain ⟨h', freed, back⟩ := (account.live_same live).release
    refine ⟨{ got with heap := h' }, ?_, .inl ⟨null, ?_⟩⟩
    · rw [enterLarge, null]
      exact congrArg (Option.map _) freed
    · rw [pool]
      exact back
  · exact ⟨_, by rw [enterLarge, ptr], .inr ⟨rfl, kept.enter⟩⟩

/-- **A large request.** -/
theorem Kept.large (k : Kept size others ⟨p, small, big⟩ h) (fuel n : Nat) :
    ∃ got, ngxPallocLarge (ngxPalloc (fuel + 1)) p h n = some got ∧
      ((got.ptr = none ∧ Kept size others ⟨got.pool, small, big⟩ got.heap) ∨
        ∃ a, got.ptr = some a ∧ 16 ∣ a ∧
          Kept size others ⟨got.pool, small, Heap.block a n :: big⟩ got.heap) := by
  unfold ngxPallocLarge
  cases taken : h.alloc ngxPoolAlignment n with
  | mk answer h' =>
    rcases Heap.alloc_cases taken with ⟨rfl, live⟩ | ⟨a, rfl, allows, live⟩
    · exact ⟨_, rfl, .inl ⟨rfl, k.live_same live⟩⟩
    · have aside := k.set_aside allows live
      have aligned : 16 ∣ a := allows.2.1
      dsimp only
      cases found : reuseEntry a 0 p.large with
      | some ls =>
        dsimp only
        exact ⟨_, rfl, .inr ⟨a, rfl, aligned, aside.reuse found⟩⟩
      | none =>
        dsimp only
        obtain ⟨got, entered, null | ⟨ptr, kept⟩⟩ := aside.entered fuel
        · exact ⟨got, entered, .inl null⟩
        · exact ⟨got, entered, .inr ⟨a, ptr, aligned, kept⟩⟩

/-- **A request returns, and keeps the invariant.** -/
theorem Kept.request {place : Nat → Nat} (places : Places place) (k : Kept size others u h)
    (fuel n : Nat) :
    ∃ got, request place (ngxPalloc (fuel + 1)) u.pool h n = some got ∧
      Kept size others (u.grant n got.pool got.ptr) got.heap ∧
      ∀ m, got.ptr = some m → 16 ∣ m ∨ ∃ q, m = place q := by
  have account := k.account n
  unfold Pool.request
  by_cases fits : n ≤ u.pool.max
  · rw [if_pos fits]
    refine ⟨_, rfl, ?_⟩
    unfold InUse.grant
    rcases pallocSmall_cases places account fits with ⟨null, pool, live⟩ | ⟨m, ptr, kept, aligned⟩
    · rw [null, pool]
      exact ⟨account.live_same live, fun m some_ => nomatch some_⟩
    · rw [ptr]
      dsimp only
      rw [if_pos fits]
      exact ⟨kept, fun m' same => Option.some_inj.1 same ▸ aligned⟩
  · rw [if_neg fits]
    obtain ⟨got, returned, ⟨null, kept⟩ | ⟨a, ptr, aligned, kept⟩⟩ := account.large fuel n
    · refine ⟨got, returned, ?_⟩
      unfold InUse.grant
      rw [null]
      exact ⟨kept, fun m some_ => nomatch some_⟩
    · refine ⟨got, returned, ?_⟩
      unfold InUse.grant
      rw [ptr]
      dsimp only
      rw [if_neg fits]
      exact ⟨kept, fun m same => Option.some_inj.1 same ▸ .inl aligned⟩

/-- **A request with an alignment of its own.** -/
theorem Kept.pmemalign (k : Kept size others u h) (fuel n alignment : Nat) :
    ∃ got, ngxPmemalign (fuel + 1) u.pool h n alignment = some got ∧
      Kept size others (u.grantLarge n got.pool got.ptr) got.heap ∧
      ∀ m, got.ptr = some m → alignment ∣ m := by
  unfold ngxPmemalign InUse.grantLarge
  cases taken : h.alloc alignment n with
  | mk answer h' =>
    rcases Heap.alloc_cases taken with ⟨rfl, live⟩ | ⟨a, rfl, allows, live⟩
    · exact ⟨_, rfl, k.live_same live, fun m some_ => nomatch some_⟩
    · dsimp only
      obtain ⟨got, entered, ⟨null, kept⟩ | ⟨ptr, kept⟩⟩ := (k.set_aside allows live).entered fuel
      · refine ⟨got, entered, ?_⟩
        rw [null]
        exact ⟨kept, fun m some_ => nomatch some_⟩
      · refine ⟨got, entered, ?_⟩
        rw [ptr]
        exact ⟨kept, fun m same => Option.some_inj.1 same ▸ allows.2.1⟩

end Large

end SpiderFrame.Pool
