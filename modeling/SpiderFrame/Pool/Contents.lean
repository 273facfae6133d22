import Mathlib.Data.List.Flatten
import SpiderFrame.Pool.Pools

/-!
# What the users write stays

The regions of the users are apart, so what one of them holds changes by his own writing only:
`ngx_pcalloc`, `ngx_pstrdup` and `ngx_pstrndup` write into what they have just got, and the pools write
into their structures, which are apart from the regions too.
-/

namespace SpiderFrame.Pool
open SpiderFrame.Base

/-- What a call writes at the pointer that it returns. -/
def Call.fills : Call → Option (List Byte)
  | .pcalloc n => some (List.replicate n 0#8)
  | .pstrdup s => some (s.bytes ++ [0#8])
  | .pstrndup s n => some (s.bytes.take n ++ [0#8])
  | _ => none

theorem copyLen_eq (n len : Nat) (bs : List Byte) :
    copyLen n len bs = len + min (n - len) bs.length := by
  induction bs generalizing len with
  | nil => simp [copyLen]
  | cons b bs ih =>
    rw [copyLen, List.length_cons]
    split
    · rw [ih]
      omega
    · omega

section Calls

variable {u : InUse} {h : Heap} {mem : Nat → Byte} {c : Call} {t : Turn} {bytes : List Byte}

theorem turn_filled (fills : c.fills = some bytes) (taken : c.turn u h mem = some t) :
    ∃ got, t = granted u bytes.length got (fill mem got.ptr bytes) := by
  cases c with
  | pcalloc n =>
    cases fills
    obtain ⟨got, filled, rfl⟩ := Option.map_eq_some_iff.1 taken
    obtain ⟨got, -, rfl⟩ := Option.map_eq_some_iff.1 filled
    exact ⟨got, by rw [List.length_replicate]⟩
  | pstrdup s =>
    cases fills
    obtain ⟨got, filled, rfl⟩ := Option.map_eq_some_iff.1 taken
    obtain ⟨got, -, rfl⟩ := Option.map_eq_some_iff.1 filled
    exact ⟨got, by rw [List.length_append, List.length_singleton]⟩
  | pstrndup s n =>
    cases fills
    obtain ⟨got, filled, rfl⟩ := Option.map_eq_some_iff.1 taken
    obtain ⟨got, -, rfl⟩ := Option.map_eq_some_iff.1 filled
    refine ⟨got, ?_⟩
    have len : copyLen n 0 s.bytes = min n s.bytes.length := by
      rw [copyLen_eq, Nat.zero_add, Nat.sub_zero]
    rw [len, List.length_append, List.length_take, List.length_singleton, ← List.take_eq_take_min]
  | _ => cases fills

theorem turn_same (fills : c.fills = none) (taken : c.turn u h mem = some t) : t.mem = mem := by
  cases c with
  | pcalloc n => cases fills
  | pstrdup s => cases fills
  | pstrndup s n => cases fills
  | runCleanupFile fd =>
    cases taken
    rfl
  | cleanupAdd n handler =>
    obtain ⟨got, -, rfl⟩ := Option.map_eq_some_iff.1 taken
    dsimp only
    split <;> rfl
  | _ =>
    obtain ⟨got, -, rfl⟩ := Option.map_eq_some_iff.1 taken
    rfl

/-- A request that returns a pointer adds one region at it. -/
theorem grant_user (u : InUse) (n : Nat) (pool : NgxPool) (m : Nat) :
    ∃ g, (u.grant n pool (some m)).user.Perm (g :: u.user) ∧ g.start = m ∧ n ≤ g.size ∧
      (0 < n ∨ n ≤ u.pool.max → g = ⟨m, n⟩) := by
  unfold InUse.grant InUse.user
  dsimp only
  split
  · exact ⟨⟨m, n⟩, List.Perm.refl _, rfl, Nat.le_refl _, fun _ => rfl⟩
  · rename_i large
    refine ⟨Heap.block m n, List.perm_middle, rfl, Nat.le_max_left _ _, fun pos => ?_⟩
    rw [Heap.block, Nat.max_eq_left (by omega)]

end Calls

section Runs

variable {others : List Region} {s s' : Pools} {r : Region}

theorem Pools.Inv.user_apart (inv : s.Inv others) : s.user.Pairwise Region.Apart := by
  refine (List.pairwise_append.1 inv.apart).1.sublist ?_
  exact List.Sublist.flatMap_right _ fun e _ => List.sublist_append_right _ _

/-- The structures of the pools are apart from what the users hold. -/
theorem Pools.Inv.structures_apart (inv : s.Inv others) {node : Region}
    (structure_ : node ∈ s.structures) (held : r ∈ s.user) : node.Apart r := by
  have both : (s.structures ++ s.user).Perm (s.pools.flatMap fun e => e.2.inner) :=
    List.flatMap_append_perm _ _ _
  have apart := (List.pairwise_append.1 inv.apart).1
  rw [← both.pairwise_iff fun apart => Region.Apart.symm apart] at apart
  exact (List.pairwise_append.1 apart).2.2 node structure_ r held

/-- No user writes into the region. -/
def Act.Spares (r : Region) : Act → Prop
  | .write x _ => ¬ r.Holds x
  | _ => True

instance (r : Region) : ∀ a : Act, Decidable (a.Spares r)
  | .write x _ => inferInstanceAs (Decidable (¬ r.Holds x))
  | .create _ => .isTrue trivial
  | .call _ _ => .isTrue trivial
  | .destroy _ => .isTrue trivial
  | .note _ _ => .isTrue trivial

/-- The users hold `r`, and nobody of them writes into it. -/
def Untouched (r : Region) (s : Pools) (a : Act) : Prop := Correct s a ∧ r ∈ s.user ∧ a.Spares r

instance (r : Region) (s : Pools) (a : Act) : Decidable (Untouched r s a) :=
  inferInstanceAs (Decidable (_ ∧ _))

/-- The users of other pools. -/
theorem set_user {i size : Nat} {u u' : InUse} {g : Region} (here : s.pools[i]? = some (size, u))
    (more : u'.user.Perm (g :: u.user)) :
    ((s.pools.set i (size, u')).flatMap fun e => e.2.user).Perm (g :: s.user) := by
  obtain ⟨pre, post, split, -, set⟩ := split_at here
  unfold Pools.user
  rw [set, split, List.flatMap_append, List.flatMap_append, List.flatMap_cons, List.flatMap_cons]
  exact ((more.append_right _).append_left _).trans List.perm_middle

/-- **One act leaves a region as it is.** -/
theorem Pools.Inv.untouched (inv : s.Inv others) {a : Act} (untouched : Untouched r s a)
    (taken : step s a = some s') {x : Nat} (inside : r.Holds x) : s'.mem x = s.mem x := by
  obtain ⟨correct, held, spares⟩ := untouched
  cases a with
  | create size =>
    rw [step] at taken
    split at taken <;> cases taken <;> rfl
  | destroy i =>
    obtain ⟨e, -, rest⟩ := Option.bind_eq_some_iff.1 taken
    obtain ⟨t, -, rfl⟩ := Option.map_eq_some_iff.1 rest
    rfl
  | write y b =>
    cases taken
    refine store_other s.mem fun same => ?_
    exact spares (same ▸ inside)
  | note y b =>
    cases taken
    refine store_other s.mem fun same => ?_
    obtain ⟨node, structure_, here⟩ := correct
    exact (inv.structures_apart structure_ held).no_common here (same ▸ inside)
  | call i c =>
    obtain ⟨s₁, possible, inv'⟩ := inv.next correct
    obtain rfl : s₁ = s' := Option.some_inj.1 (possible.symm.trans taken)
    obtain ⟨⟨size, u⟩, here, rest⟩ := Option.bind_eq_some_iff.1 taken
    obtain ⟨t, turned, rfl⟩ := Option.map_eq_some_iff.1 rest
    cases fills : c.fills with
    | none => exact congrFun (turn_same fills turned) x
    | some bytes =>
      obtain ⟨got, rfl⟩ := turn_filled fills turned
      cases ptr : got.ptr with
      | none =>
        unfold granted fill
        rw [ptr]
      | some m =>
        -- The region that was granted is apart from `r`, which was held before.
        obtain ⟨g, more, start, enough, -⟩ := grant_user u bytes.length got.pool m
        have apart := inv'.user_apart
        unfold Pools.user granted at apart
        dsimp only at apart
        rw [ptr] at apart
        have both := ((set_user here more).pairwise_iff fun apart => Region.Apart.symm apart).1 apart
        have beside := (List.pairwise_cons.1 both).1 r held
        unfold granted fill
        rw [ptr]
        refine store_outside s.mem ?_
        unfold Region.Apart at beside
        unfold Region.Holds Region.stop at inside
        unfold Region.stop at beside
        omega

/-- **What the users hold keeps its contents along every run in which none of them writes into it.** -/
theorem Pools.Inv.contents (inv : s.Inv others) {acts : List Act}
    (along : Along step (Untouched r) s acts) (run : exec step s acts = some s') {x : Nat}
    (inside : r.Holds x) : s'.mem x = s.mem x := by
  induction acts generalizing s with
  | nil =>
    cases run
    rfl
  | cons a acts ih =>
    obtain ⟨m, taken, rest⟩ := exec_cons run
    obtain ⟨m', possible, inv'⟩ := inv.next along.1.1
    obtain rfl : m' = m := Option.some_inj.1 (possible.symm.trans taken)
    exact (ih inv' (along.2 m' taken) rest).trans (inv.untouched along.1 taken inside)

/-- **A copy reads back.** What `ngx_pcalloc`, `ngx_pstrdup` or `ngx_pstrndup` has written at the pointer
that it returned is there in every later state, whatever calls there are with whatever pools, and
whatever the pools write into their structures, as long as the region is held and no user writes into
it. -/
theorem copies_stay (h : Heap) (ok : h.Ok) (mem : Nat → Byte) (s : Pools)
    (run : Reach step Correct (Pools.init h mem) s) (i : Nat) (e : Nat × InUse)
    (here : s.pools[i]? = some e) (c : Call) (bytes : List Byte) (fills : c.fills = some bytes) :
    ∃ t s₁, c.turn e.2 s.heap s.mem = some t ∧ step s (.call i c) = some s₁ ∧
      ∀ m, t.ptr = some m → ⟨m, bytes.length⟩ ∈ t.use.user ∧
        ∀ acts s', Along step (Untouched ⟨m, bytes.length⟩) s₁ acts →
          exec step s₁ acts = some s' → load s'.mem m bytes.length = bytes := by
  have inv := inv_of_reach ok run
  have noReset : c.empties → e.2.pool.cleanup = [] := by
    intro empties
    cases c with
    | reset => cases fills
    | _ => cases empties
  obtain ⟨t, turned, -⟩ := (inv.at here).turn s.mem c noReset
  have correct : Correct s (.call i c) := ⟨e, here, noReset⟩
  obtain ⟨s₁, taken, inv₁⟩ := inv.next correct
  refine ⟨t, s₁, turned, taken, fun m ptr => ?_⟩
  obtain ⟨got, rfl⟩ := turn_filled fills turned
  have gotPtr : got.ptr = some m := ptr
  have region : ⟨m, bytes.length⟩ ∈ (granted e.2 bytes.length got (fill s.mem got.ptr bytes)).use.user := by
    obtain ⟨g, more, start, enough, exact_⟩ := grant_user e.2 bytes.length got.pool m
    unfold granted
    rw [gotPtr, ← exact_ (by omega)]
    exact more.symm.subset List.mem_cons_self
  refine ⟨region, fun acts s' along later => ?_⟩
  have written : s₁.mem = store s.mem m bytes := by
    rw [step, here, Option.bind_some, turned, Option.map_some] at taken
    cases taken
    unfold granted fill
    rw [gotPtr]
  rw [← load_store s.mem m bytes, ← written]
  rw [load_length]
  refine load_congr fun j lt => inv₁.contents along later ?_
  exact ⟨Nat.le_add_right _ _, Nat.add_lt_add_left lt _⟩

/-- More of the pool with the copy, with its structures written over, and another pool beside it. -/
def sampleLater : List Act :=
  [.call 0 (.palloc 40), .note 256 255#8, .call 0 (.palloc 200), .write 3584 1#8, .create 128,
    .call 0 (.pcalloc 8), .call 1 (.pfree (some 3584)), .destroy 0, .note 2816 255#8]

theorem copies_stay_sample : ∃ s ∈ exec step samplePools sampleActs,
    ∃ s₁ ∈ step s (.call 0 (.pstrdup (.letter 1))), ∃ s' ∈ exec step s₁ sampleLater,
      ∃ e ∈ s.pools[0]?, ∃ t ∈ (Call.pstrdup (.letter 1)).turn e.2 s.heap s.mem, ∃ m ∈ t.ptr,
        load s'.mem m 2 = [98#8, 0#8] := by
  have along : Along step Correct samplePools sampleActs := by decide +kernel
  have sample : ∃ s ∈ exec step samplePools sampleActs, ∃ e ∈ s.pools[0]?,
      ∃ t ∈ (Call.pstrdup (.letter 1)).turn e.2 s.heap s.mem, ∃ m ∈ t.ptr,
        ∃ s₁ ∈ step s (.call 0 (.pstrdup (.letter 1))), ∃ s' ∈ exec step s₁ sampleLater,
          Along step (Untouched ⟨m, 2⟩) s₁ sampleLater := by decide +kernel
  obtain ⟨s, run, e, here, t, turned, m, ptr, s₁, taken, s', later, untouched⟩ := sample
  obtain ⟨t', s₁', turned', taken', stays⟩ := copies_stay sampleHeap sampleHeap_ok _ s
    (along.reach run) 0 e here (.pstrdup (.letter 1)) _ rfl
  obtain rfl : t' = t := Option.some_inj.1 (turned'.symm.trans turned)
  obtain rfl : s₁' = s₁ := Option.some_inj.1 (taken'.symm.trans taken)
  exact ⟨s, run, s₁', taken, s', later, e, here, t', turned, m, ptr,
    (stays m ptr).2 sampleLater s' untouched later⟩

end Runs

end SpiderFrame.Pool
