import SpiderFrame.Pool.Pools

/-!
# How far a small request searches

`ngx_palloc_block` counts in `d.failed` how often a block was too full for a request, and moves `current`
behind a block that was so six times. So the counters and `current` depend on the number of blocks alone,
and a request looks at seven blocks at most, however long the chain is.
-/

namespace SpiderFrame.Pool
open SpiderFrame.Base

/-- The counters of `n` blocks from `current` on. -/
def falling : Nat → List Nat
  | 0 => []
  | 1 => [0]
  | n + 2 => n :: falling (n + 1)

/-- `k` blocks that are not searched any more, and `n` that are. -/
structure Searched (p : NgxPool) (k n : Nat) : Prop where
  current : p.current = k
  counters : p.chain.map Block.failed = List.replicate k 6 ++ falling n
  some_ : 0 < n
  most : n ≤ 7
  full : 0 < k → n = 7

@[simp] theorem falling_length (n : Nat) : (falling n).length = n := by
  induction n using falling.induct with
  | case1 => rfl
  | case2 => rfl
  | case3 n ih => rw [falling, List.length_cons, ih]

theorem falling_get {n i : Nat} (lt : i < n) : (falling n)[i]? = some (n - 2 - i) := by
  induction n using falling.induct generalizing i with
  | case1 => omega
  | case2 =>
    obtain rfl : i = 0 := by omega
    rfl
  | case3 n ih =>
    rw [falling]
    cases i with
    | zero => rfl
    | succ i =>
      rw [List.getElem?_cons_succ, ih (by omega)]
      congr 1
      omega

/-- **A new block**: the counters of the blocks before it go up, and only the first of seven was too
full often enough. -/
theorem markFailed_falling {n : Nat} {bs : List Block} (counters : bs.map Block.failed = falling n)
    (most : n ≤ 7) (i current : Nat) :
    (markFailed i current bs).1 = (if n = 7 then i + 1 else current) ∧
      (markFailed i current bs).2.map Block.failed ++ [0] =
        if n = 0 then [0] else falling (n + 1) := by
  induction n using falling.induct generalizing bs i current with
  | case1 =>
    obtain rfl : bs = [] := List.map_eq_nil_iff.1 counters
    exact ⟨rfl, rfl⟩
  | case2 =>
    obtain ⟨b, bs', rfl, zero, rest⟩ := List.map_eq_cons_iff.1 counters
    obtain rfl : bs' = [] := List.map_eq_nil_iff.1 rest
    refine ⟨rfl, ?_⟩
    rw [markFailed, List.map_singleton, zero]
    rfl
  | case3 n ih =>
    rw [falling] at counters
    obtain ⟨b, bs', rfl, count, rest⟩ := List.map_eq_cons_iff.1 counters
    cases bs' with
    | nil =>
      have lengths := congrArg List.length rest
      rw [List.map_nil, falling_length] at lengths
      cases lengths
    | cons b' bs =>
      obtain ⟨next, marked⟩ := ih rest (by omega) (i + 1) (if b.failed > 4 then i + 1 else current)
      have lt : n + 1 ≠ 7 := by omega
      rw [if_neg lt] at next
      rw [if_neg (Nat.succ_ne_zero n)] at marked
      have mod : (n + 1) % 2 ^ 32 = n + 1 := Nat.mod_eq_of_lt (by omega)
      refine ⟨?_, ?_⟩
      · rw [markFailed, next, count]
        split <;> split <;> first | rfl | omega
      · rw [markFailed, List.map_cons, List.cons_append, marked, if_neg (Nat.succ_ne_zero _), count,
          mod]
        rfl

theorem firstFit_failed {place : Nat → Nat} {size m : Nat} {bs bs' : List Block}
    (found : firstFit place size bs = some (m, bs')) :
    bs'.map Block.failed = bs.map Block.failed := by
  induction bs generalizing bs' with
  | nil => cases found
  | cons b bs ih =>
    rw [firstFit] at found
    split at found
    · cases found
      rfl
    · obtain ⟨⟨m', bs₁⟩, later, same⟩ := Option.map_eq_some_iff.1 found
      simp only [Prod.mk.injEq] at same
      obtain ⟨rfl, rfl⟩ := same
      rw [List.map_cons, List.map_cons, ih later]

section Calls

variable {p p' : NgxPool} {k n : Nat}

/-- The counters of some blocks. -/
def InSearch (p : NgxPool) : Prop := ∃ k n, Searched p k n

theorem InSearch.of_same (s : InSearch p) (current : p'.current = p.current)
    (counters : p'.chain.map Block.failed = p.chain.map Block.failed) : InSearch p' := by
  obtain ⟨k, n, s⟩ := s
  exact ⟨k, n, current.trans s.current, counters.trans s.counters, s.some_, s.most, s.full⟩

@[simp] theorem setChain_current (bs : List Block) : (p.setChain bs).current = p.current := by
  cases bs <;> rfl

/-- The counters of the blocks that are searched. -/
theorem Searched.tail (s : Searched p k n) :
    (p.chain.take p.current).map Block.failed = List.replicate k 6 ∧
      (p.chain.drop p.current).map Block.failed = falling n := by
  rw [List.map_take, List.map_drop, s.counters, s.current]
  constructor
  · rw [List.take_left' List.length_replicate]
  · rw [List.drop_left' List.length_replicate]

theorem InSearch.pallocBlock (s : InSearch p) (h : Heap) (size : Nat) :
    InSearch (ngxPallocBlock p h size).pool := by
  unfold ngxPallocBlock
  split
  · exact s
  · rename_i a h' _
    obtain ⟨k, n, s⟩ := s
    obtain ⟨before, behind⟩ := s.tail
    obtain ⟨next, marked⟩ := markFailed_falling behind s.most p.current p.current
    have pos := s.some_
    rw [if_neg (by omega)] at marked
    have chain : ∀ bs : List Block, bs ≠ [] →
        NgxPool.chain { p.setChain bs with
          current := (markFailed p.current p.current (p.chain.drop p.current)).1 } = bs :=
      fun bs some_ => setChain_chain some_
    dsimp only
    by_cases seven : n = 7
    · subst seven
      refine ⟨k + 1, 7, ?_, ?_, by omega, by omega, fun _ => rfl⟩
      · dsimp only
        rw [next, if_pos rfl, s.current]
      · rw [chain _ (by simp), List.map_append, List.map_append, before, List.map_singleton, marked,
          List.replicate_succ', List.append_assoc]
        rfl
    · have first : k = 0 := by
        by_contra ne
        exact seven (s.full (Nat.pos_of_ne_zero ne))
      refine ⟨k, n + 1, ?_, ?_, by omega, ?_, fun pos => absurd first (by omega)⟩
      · dsimp only
        rw [next, if_neg seven, s.current]
      · rw [chain _ (by simp), List.map_append, List.map_append, before, List.map_singleton, marked]
      · have most := s.most
        omega

theorem InSearch.pallocSmall (s : InSearch p) (place : Nat → Nat) (h : Heap) (size : Nat) :
    InSearch (pallocSmall place p h size).pool := by
  unfold Pool.pallocSmall
  split
  · rename_i m bs found
    have same := firstFit_failed found
    by_cases none_ : p.chain.take p.current ++ bs = []
    · rw [none_]
      exact s
    · refine s.of_same (setChain_current _) ?_
      dsimp only
      rw [setChain_chain none_, List.map_append, same, ← List.map_append, chain_split]
  · exact s.pallocBlock h size

theorem InSearch.enterLarge {a : Nat} {got got' : Got} (s : InSearch got.pool)
    (entered : enterLarge a got = some got') : InSearch got'.pool := by
  unfold Pool.enterLarge at entered
  split at entered
  · cases entered
    exact s.of_same rfl rfl
  · obtain ⟨h, -, rfl⟩ := Option.map_eq_some_iff.1 entered
    exact s

theorem InSearch.request {palloc : NgxPool → Heap → Nat → Option Got} {place : Nat → Nat} {h : Heap}
    {size : Nat} {got : Got} (s : InSearch p)
    (inner : ∀ p h size got, palloc p h size = some got → InSearch p → InSearch got.pool)
    (returned : request place palloc p h size = some got) : InSearch got.pool := by
  have account : InSearch (p.account size) := s.of_same rfl rfl
  unfold Pool.request at returned
  split at returned
  · cases returned
    exact account.pallocSmall place h size
  · unfold ngxPallocLarge at returned
    split at returned
    · cases returned
      exact account
    · split at returned
      · cases returned
        exact account.of_same rfl rfl
      · obtain ⟨got₁, first, entered⟩ := Option.bind_eq_some_iff.1 returned
        exact (inner _ _ _ _ first account).enterLarge entered

theorem InSearch.palloc {fuel : Nat} {h : Heap} {size : Nat} {got : Got}
    (returned : ngxPalloc fuel p h size = some got) (s : InSearch p) : InSearch got.pool := by
  induction fuel generalizing p h size got with
  | zero => cases returned
  | succ fuel ih => exact s.request (fun p h size got first s => ih first s) returned

theorem InSearch.pnalloc {fuel : Nat} {h : Heap} {size : Nat} {got : Got}
    (returned : ngxPnalloc fuel p h size = some got) (s : InSearch p) : InSearch got.pool :=
  s.request (fun _ _ _ _ first s => s.palloc first) returned

theorem InSearch.cleanupAdd {fuel : Nat} {h : Heap} {size : Nat} {got : Got}
    (returned : ngxPoolCleanupAdd fuel p h size = some got) (s : InSearch p) :
    InSearch got.pool := by
  obtain ⟨got₁, first, rest⟩ := Option.bind_eq_some_iff.1 returned
  have s₁ := s.palloc first
  split at rest
  · cases rest
    exact s₁
  · split at rest
    · cases rest
      exact s₁.of_same rfl rfl
    · obtain ⟨got₂, second, rfl⟩ := Option.map_eq_some_iff.1 rest
      have s₂ := s₁.palloc second
      split
      · exact s₂
      · exact s₂.of_same rfl rfl

theorem grant_pool (u : InUse) (n : Nat) (pool : NgxPool) (ptr : Option Nat) :
    (u.grant n pool ptr).pool = pool := by
  unfold InUse.grant
  split
  · rfl
  · split <;> rfl

theorem InSearch.turn {u : InUse} {h : Heap} {mem : Nat → Byte} {c : Call} {t : Turn}
    (s : InSearch u.pool) (taken : c.turn u h mem = some t) : InSearch t.use.pool := by
  cases c with
  | palloc n =>
    obtain ⟨got, returned, rfl⟩ := Option.map_eq_some_iff.1 taken
    rw [granted, grant_pool]
    exact s.palloc returned
  | pnalloc n =>
    obtain ⟨got, returned, rfl⟩ := Option.map_eq_some_iff.1 taken
    rw [granted, grant_pool]
    exact s.pnalloc returned
  | pmemalign n alignment =>
    obtain ⟨got, returned, rfl⟩ := Option.map_eq_some_iff.1 taken
    unfold ngxPmemalign at returned
    split at returned
    · cases returned
      exact s
    · obtain ⟨got₁, first, entered⟩ := Option.bind_eq_some_iff.1 returned
      exact (s.palloc first).enterLarge entered
  | pcalloc n =>
    obtain ⟨got, filled, rfl⟩ := Option.map_eq_some_iff.1 taken
    obtain ⟨got, returned, rfl⟩ := Option.map_eq_some_iff.1 filled
    rw [granted, grant_pool]
    exact s.palloc returned
  | pstrdup str =>
    obtain ⟨got, filled, rfl⟩ := Option.map_eq_some_iff.1 taken
    obtain ⟨got, returned, rfl⟩ := Option.map_eq_some_iff.1 filled
    rw [granted, grant_pool]
    exact s.pnalloc returned
  | pstrndup str n =>
    obtain ⟨got, filled, rfl⟩ := Option.map_eq_some_iff.1 taken
    obtain ⟨got, returned, rfl⟩ := Option.map_eq_some_iff.1 filled
    rw [granted, grant_pool]
    exact s.pnalloc returned
  | pfree ptr =>
    obtain ⟨⟨ok, pool, h'⟩, returned, rfl⟩ := Option.map_eq_some_iff.1 taken
    unfold ngxPfree at returned
    split at returned
    · obtain ⟨h₁, -, same⟩ := Option.map_eq_some_iff.1 returned
      cases same
      exact s.of_same rfl rfl
    · cases returned
      exact s
  | reset =>
    obtain ⟨⟨pool, h'⟩, returned, rfl⟩ := Option.map_eq_some_iff.1 taken
    obtain ⟨h₁, -, same⟩ := Option.map_eq_some_iff.1 returned
    cases same
    refine s.of_same (setChain_current _) ?_
    have some_ : u.pool.chain.map (fun b => { b with last := b.addr + sizeofPool }) ≠ [] := by
      simp [NgxPool.chain]
    have chain := setChain_chain (p := u.pool) some_
    exact (congrArg (List.map Block.failed) chain).trans (List.map_map ..)
  | cleanupAdd n handler =>
    obtain ⟨got, returned, rfl⟩ := Option.map_eq_some_iff.1 taken
    have s₁ := s.cleanupAdd returned
    have pool : (u.addData n got.pool got.ptr).pool = got.pool := grant_pool _ _ _ _
    dsimp only
    split
    · have s₂ : InSearch (u.addData n got.pool got.ptr).pool := by
        rw [pool]
        exact s₁
      exact s₂.of_same rfl rfl
    · dsimp only
      rw [pool]
      exact s₁
  | runCleanupFile fd =>
    cases taken
    exact s.of_same rfl rfl

end Calls

/-- **An act keeps the counters of all pools.** -/
theorem InSearch.step {s s' : Pools} {a : Act} (inv : ∀ e ∈ s.pools, InSearch e.2.pool)
    (taken : step s a = some s') : ∀ e ∈ s'.pools, InSearch e.2.pool := by
  cases a with
  | create size =>
    rw [Pool.step] at taken
    split at taken
    · cases taken
      exact inv
    · rename_i p h' made
      cases taken
      refine List.forall_mem_cons.2 ⟨⟨0, 1, ?_⟩, inv⟩
      unfold ngxCreatePool at made
      split at made
      · cases made
      · cases made
        exact ⟨rfl, rfl, by omega, by omega, fun pos => absurd pos (by omega)⟩
  | call i c =>
    obtain ⟨e, here, rest⟩ := Option.bind_eq_some_iff.1 taken
    obtain ⟨t, turned, rfl⟩ := Option.map_eq_some_iff.1 rest
    intro e' member
    rcases List.mem_or_eq_of_mem_set member with old | rfl
    · exact inv e' old
    · exact (inv e (List.mem_of_getElem? here)).turn turned
  | destroy i =>
    obtain ⟨e, here, rest⟩ := Option.bind_eq_some_iff.1 taken
    obtain ⟨r, -, rfl⟩ := Option.map_eq_some_iff.1 rest
    exact fun e' member => inv e' (List.mem_of_mem_eraseIdx member)
  | write a b =>
    cases taken
    exact inv
  | note a b =>
    cases taken
    exact inv

/-- What the counters come to. -/
theorem InSearch.counts {p : NgxPool} (search : InSearch p) :
    p.current = p.chain.length - 7 ∧ (p.chain.drop p.current).length ≤ 7 ∧
      ∀ i b, p.chain[i]? = some b → b.failed = min 6 (p.chain.length - 2 - i) := by
  obtain ⟨k, n, s⟩ := search
  have length : p.chain.length = k + n := by
    have lengths := congrArg List.length s.counters
    rwa [List.length_map, List.length_append, List.length_replicate, falling_length] at lengths
  have most := s.most
  have full := s.full
  have pos := s.some_
  refine ⟨?_, ?_, fun i b here => ?_⟩
  · rw [s.current, length]
    omega
  · rw [List.length_drop, length, s.current]
    omega
  · have count : (p.chain.map Block.failed)[i]? = some b.failed := by
      rw [List.getElem?_map, here]
      rfl
    obtain ⟨lt, -⟩ := List.getElem?_eq_some_iff.1 here
    rw [s.counters] at count
    rw [length] at lt ⊢
    by_cases before : i < k
    · rw [List.getElem?_append_left (by rwa [List.length_replicate]),
        List.getElem?_replicate_of_lt before] at count
      rw [← Option.some_inj.1 count]
      omega
    · rw [List.getElem?_append_right (by rw [List.length_replicate]; omega), List.length_replicate,
        falling_get (by omega)] at count
      rw [← Option.some_inj.1 count]
      omega

/-- **In every run the counters and `current` of a pool follow from the number of its blocks**, so a
request looks at seven blocks at most. -/
theorem search_of_seven (h : Heap) (mem : Nat → Byte) (s : Pools)
    (run : Reach step Any (Pools.init h mem) s) (e : Nat × InUse) (member : e ∈ s.pools) :
    e.2.pool.current = e.2.pool.chain.length - 7 ∧
      (e.2.pool.chain.drop e.2.pool.current).length ≤ 7 ∧
      ∀ i b, e.2.pool.chain[i]? = some b → b.failed = min 6 (e.2.pool.chain.length - 2 - i) := by
  have search : ∀ e ∈ s.pools, InSearch e.2.pool :=
    run.invariant (I := fun s => ∀ e ∈ s.pools, InSearch e.2.pool) (List.forall_mem_nil _)
      fun _ _ _ _ inv _ taken => InSearch.step inv taken
  exact (search e member).counts

theorem search_of_seven_sample : ∃ s ∈ exec step samplePools sampleActs, ∃ e ∈ s.pools,
    e.2.pool.chain.length = 10 ∧ e.2.pool.current = 3 ∧
      (e.2.pool.chain.drop e.2.pool.current).length ≤ 7 := by
  have sample : ∃ s ∈ exec step samplePools sampleActs, ∃ e ∈ s.pools,
      e.2.pool.chain.length = 10 := by decide +kernel
  obtain ⟨s, run, e, member, length⟩ := sample
  obtain ⟨current, seven, -⟩ := search_of_seven sampleHeap _ s (exec_reach run) e member
  exact ⟨s, run, e, member, length, by rw [current, length], seven⟩

end SpiderFrame.Pool
