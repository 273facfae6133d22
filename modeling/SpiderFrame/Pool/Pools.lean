import SpiderFrame.Base.Run
import SpiderFrame.Pool.Releases

/-!
# Pools in one heap

Any number of pools share the heap, and their users call the functions of `ngx_palloc.c` in any order.
`Pools.Inv` holds in every state of such a run: each pool is in order, and the heap is what the pools
hold and what was there before them.
-/

namespace SpiderFrame.Pool
open SpiderFrame.Base

/-- A call with a pool. The caller of `ngx_pool_cleanup_add` sets the handler. -/
inductive Call where
  | palloc (n : Nat)
  | pnalloc (n : Nat)
  | pmemalign (n alignment : Nat)
  | pcalloc (n : Nat)
  | pstrdup (s : CString)
  | pstrndup (s : CString) (n : Nat)
  | pfree (ptr : Option Nat)
  | reset
  | cleanupAdd (n : Nat) (handler : Option Handler)
  | runCleanupFile (fd : Int)

/-- The users lose all that they hold. -/
def Call.empties : Call → Bool
  | .reset => true
  | _ => false

/-- What a call with a pool makes of it, of the heap and of the memory, the pointer that it returned,
and the handlers that it ran. -/
structure Turn where
  ptr : Option Nat
  use : InUse
  heap : Heap
  mem : Nat → Byte
  ran : List Handler

section Turns

variable (u : InUse) (h : Heap) (mem : Nat → Byte)

/-- After a request for `n` bytes. -/
def granted (n : Nat) (got : Got) (mem : Nat → Byte) : Turn :=
  ⟨got.ptr, u.grant n got.pool got.ptr, got.heap, mem, []⟩

/-- The recursion of `ngx_palloc` is two calls deep at most. -/
def Call.turn : Call → Option Turn
  | .palloc n => (ngxPalloc 2 u.pool h n).map fun got => granted u n got mem
  | .pnalloc n => (ngxPnalloc 1 u.pool h n).map fun got => granted u n got mem
  | .pmemalign n alignment => (ngxPmemalign 1 u.pool h n alignment).map fun got =>
      ⟨got.ptr, u.grantLarge n got.pool got.ptr, got.heap, mem, []⟩
  | .pcalloc n => (ngxPcalloc 2 u.pool h mem n).map fun got => granted u n got.1 got.2
  | .pstrdup s => (ngxPstrdup 1 u.pool h mem s).map fun got =>
      granted u (s.bytes.length + 1) got.1 got.2
  | .pstrndup s n => (ngxPstrndup 1 u.pool h mem s n).map fun got =>
      granted u (copyLen n 0 s.bytes + 1) got.1 got.2
  | .pfree ptr => (ngxPfree u.pool h ptr).map fun r => ⟨none, u.giveBack r.2.1 ptr, r.2.2, mem, []⟩
  | .reset => (ngxResetPool u.pool h).map fun r => ⟨none, ⟨r.1, [], []⟩, r.2, mem, []⟩
  | .cleanupAdd n handler => (ngxPoolCleanupAdd 2 u.pool h n).map fun got =>
      let u' := u.addData n got.pool got.ptr
      match got.ptr with
      | some node =>
        ⟨got.ptr, { u' with pool := setHandler u'.pool node handler }, got.heap, mem, []⟩
      | none => ⟨got.ptr, u', got.heap, mem, []⟩
  | .runCleanupFile fd => some
      ⟨none, { u with pool := (ngxPoolRunCleanupFile u.pool fd).1 }, h, mem,
        (ngxPoolRunCleanupFile u.pool fd).2⟩

end Turns

/-- What the users of a pool hold. -/
def InUse.user (u : InUse) : List Region := u.small ++ u.big

/-- All that lies in the memory of a pool: its structures, and what the users hold. -/
def InUse.inner (u : InUse) : List Region := u.pool.structures ++ u.user

/-- The pools with the sizes they were created with, and the handlers that ran. -/
structure Pools where
  heap : Heap
  mem : Nat → Byte
  pools : List (Nat × InUse)
  ran : List Handler

/-- What all users hold. -/
def Pools.user (s : Pools) : List Region := s.pools.flatMap fun e => e.2.user

/-- What the pools themselves use of their memory. -/
def Pools.structures (s : Pools) : List Region := s.pools.flatMap fun e => e.2.pool.structures

/-- What the users of the pools do: pools are told apart by their position. The bytes that the pools
write into their structures are acts of their own. -/
inductive Act where
  | create (size : Nat)
  | call (i : Nat) (c : Call)
  | destroy (i : Nat)
  | write (a : Nat) (b : Byte)
  | note (a : Nat) (b : Byte)

/-- One act. There is no state after it if there is no such pool, and after a `free` without meaning. -/
def step (s : Pools) : Act → Option Pools
  | .create size =>
    match ngxCreatePool s.heap size with
    | (none, h) => some { s with heap := h }
    | (some p, h) => some { s with heap := h, pools := (size, ⟨p, [], []⟩) :: s.pools }
  | .call i c => s.pools[i]?.bind fun e => (c.turn e.2 s.heap s.mem).map fun t =>
      { heap := t.heap, mem := t.mem, pools := s.pools.set i (e.1, t.use), ran := s.ran ++ t.ran }
  | .destroy i => s.pools[i]?.bind fun e => (ngxDestroyPool e.2.pool s.heap).map fun r =>
      { s with heap := r.2, pools := s.pools.eraseIdx i, ran := s.ran ++ r.1 }
  | .write a b => some { s with mem := store s.mem a [b] }
  | .note a b => some { s with mem := store s.mem a [b] }

/-- What the callers owe: a size as `ngx_palloc.h` asks for it, a pool that is there, no handlers in a
pool that is reset, and writing only into what they hold, of a pool or from the system. The pools write
into their structures. -/
def Correct (s : Pools) : Act → Prop
  | .create size => 16 ∣ size ∧ ngxMinPoolSize ≤ size
  | .call i c => ∃ e, s.pools[i]? = some e ∧ (c.empties → e.2.pool.cleanup = [])
  | .destroy i => i < s.pools.length
  | .write a _ => (∃ r ∈ s.user, r.Holds a) ∨
      ∃ r ∈ s.heap.live, r.Holds a ∧ ∀ e ∈ s.pools, ∀ r' ∈ e.2.held, r.Apart r'
  | .note a _ => ∃ r ∈ s.structures, r.Holds a

instance : ∀ (s : Pools) (a : Act), Decidable (Correct s a)
  | _, .create _ => inferInstanceAs (Decidable (_ ∧ _))
  | s, .call i c =>
    inferInstanceAs (Decidable (∃ e ∈ s.pools[i]?, c.empties → e.2.pool.cleanup = []))
  | _, .destroy _ => inferInstanceAs (Decidable (_ < _))
  | s, .write a _ => inferInstanceAs (Decidable ((∃ r ∈ s.user, r.Holds a) ∨
      ∃ r ∈ s.heap.live, r.Holds a ∧ ∀ e ∈ s.pools, ∀ r' ∈ e.2.held, r.Apart r'))
  | s, .note a _ => inferInstanceAs (Decidable (∃ r ∈ s.structures, r.Holds a))

/-- Before any pool is created. -/
def Pools.init (h : Heap) (mem : Nat → Byte) : Pools := ⟨h, mem, [], []⟩

/-- The pools are in order, and the heap is what they hold, and `others`. -/
structure Pools.Inv (others : List Region) (s : Pools) : Prop where
  heap : s.heap.Ok
  ok : ∀ e ∈ s.pools, e.2.Ok e.1
  live : s.heap.live.Perm (s.pools.flatMap (fun e => e.2.held) ++ others)

section Steps

variable {others : List Region} {s s' : Pools} {i size : Nat} {u : InUse} {e : Nat × InUse}

theorem Pools.init_inv {h : Heap} (ok : h.Ok) (mem : Nat → Byte) :
    (Pools.init h mem).Inv h.live :=
  ⟨ok, List.forall_mem_nil _, List.Perm.refl _⟩

/-- The pools before and behind a position. -/
theorem split_at {l : List (Nat × InUse)} (here : l[i]? = some e) :
    ∃ pre post, l = pre ++ e :: post ∧ l.eraseIdx i = pre ++ post ∧
      ∀ e', l.set i e' = pre ++ e' :: post := by
  obtain ⟨lt, rfl⟩ := List.getElem?_eq_some_iff.1 here
  refine ⟨l.take i, l.drop (i + 1), ?_, List.eraseIdx_eq_take_drop_succ l i, fun e' => ?_⟩
  · rw [List.getElem_cons_drop, List.take_append_drop]
  · rw [List.set_eq_take_append_cons_drop, if_pos lt]

/-- **One pool and the memory beside it.** -/
theorem Pools.Inv.at (inv : s.Inv others) (here : s.pools[i]? = some (size, u)) :
    Kept size ((s.pools.eraseIdx i).flatMap (fun e => e.2.held) ++ others) u s.heap := by
  obtain ⟨pre, post, split, erased, -⟩ := split_at here
  refine ⟨inv.ok _ (List.mem_of_getElem? here), inv.heap, inv.live.trans ?_⟩
  rw [erased, split]
  simp only [List.flatMap_append, List.flatMap_cons, List.append_assoc]
  exact List.perm_append_comm_assoc _ _ _

/-- **The pool in its place again.** -/
theorem Kept.back {u' : InUse} {t : Pools} (inv : s.Inv others)
    (here : s.pools[i]? = some (size, u))
    (k : Kept size ((s.pools.eraseIdx i).flatMap (fun e => e.2.held) ++ others) u' t.heap)
    (same : t.pools = s.pools.set i (size, u')) : t.Inv others := by
  obtain ⟨pre, post, split, erased, set⟩ := split_at here
  refine ⟨k.heap, ?_, k.live.trans ?_⟩
  · intro e member
    rw [same, set, List.mem_append, List.mem_cons] at member
    rcases member with inPre | rfl | inPost
    · exact inv.ok e (by simp [split, inPre])
    · exact k.ok
    · exact inv.ok e (by simp [split, inPost])
  · rw [same, set, erased]
    simp only [List.flatMap_append, List.flatMap_cons, List.append_assoc]
    exact List.perm_append_comm_assoc _ _ _

variable {others' : List Region} {h : Heap}

/-- **A call with a pool in order comes back, and keeps it in order.** -/
theorem Kept.turn (k : Kept size others' u h) (mem : Nat → Byte) (c : Call)
    (noHandler : c.empties → u.pool.cleanup = []) :
    ∃ t, c.turn u h mem = some t ∧ Kept size others' t.use t.heap := by
  cases c with
  | palloc n =>
    obtain ⟨got, returned, kept, -⟩ := k.request places_align 0 n
    exact ⟨_, congrArg (Option.map _) returned, kept⟩
  | pnalloc n =>
    obtain ⟨got, returned, kept, -⟩ := k.request places_id 0 n
    exact ⟨_, congrArg (Option.map _) returned, kept⟩
  | pmemalign n alignment =>
    obtain ⟨got, returned, kept, -⟩ := k.pmemalign 0 n alignment
    exact ⟨_, congrArg (Option.map _) returned, kept⟩
  | pcalloc n =>
    obtain ⟨got, returned, kept, -⟩ := k.request places_align 0 n
    have filled : ngxPcalloc 2 u.pool h mem n = some (got, _) := congrArg (Option.map _) returned
    exact ⟨_, congrArg (Option.map _) filled, kept⟩
  | pstrdup s =>
    obtain ⟨got, returned, kept, -⟩ := k.request places_id 0 (s.bytes.length + 1)
    have filled : ngxPstrdup 1 u.pool h mem s = some (got, _) := congrArg (Option.map _) returned
    exact ⟨_, congrArg (Option.map _) filled, kept⟩
  | pstrndup s n =>
    obtain ⟨got, returned, kept, -⟩ := k.request places_id 0 (copyLen n 0 s.bytes + 1)
    have filled : ngxPstrndup 1 u.pool h mem s n = some (got, _) :=
      congrArg (Option.map _) returned
    exact ⟨_, congrArg (Option.map _) filled, kept⟩
  | pfree ptr =>
    obtain ⟨ok, pool, h', returned, kept, -, -⟩ := k.pfree ptr
    exact ⟨_, congrArg (Option.map _) returned, kept⟩
  | reset =>
    obtain ⟨pool, h', returned, kept⟩ := k.reset (noHandler rfl)
    exact ⟨_, congrArg (Option.map _) returned, kept⟩
  | cleanupAdd n handler =>
    obtain ⟨got, returned, kept⟩ := k.cleanupAdd 0 n
    refine ⟨_, congrArg (Option.map _) returned, ?_⟩
    dsimp only
    split
    · exact kept.setHandler _ _
    · exact kept
  | runCleanupFile fd => exact ⟨_, rfl, k.runCleanup fd⟩

/-- **Every act is possible, and keeps the pools in order.** -/
theorem Pools.Inv.next (inv : s.Inv others) {a : Act} (correct : Correct s a) :
    ∃ s', step s a = some s' ∧ s'.Inv others := by
  cases a with
  | create size =>
    cases taken : ngxCreatePool s.heap size with
    | mk answer h' =>
      rcases created inv.heap correct.1 correct.2 inv.live taken with
        ⟨rfl, ok, live⟩ | ⟨p, rfl, -, kept⟩
      · exact ⟨{ s with heap := h' }, by rw [step, taken], ok, inv.ok, live⟩
      · refine ⟨{ s with heap := h', pools := (size, ⟨p, [], []⟩) :: s.pools },
          by rw [step, taken], kept.heap, List.forall_mem_cons.2 ⟨kept.ok, inv.ok⟩, ?_⟩
        rw [List.flatMap_cons, List.append_assoc]
        exact kept.live
  | call i c =>
    obtain ⟨⟨size, u⟩, here, noHandler⟩ := correct
    obtain ⟨t, taken, kept⟩ := (inv.at here).turn s.mem c noHandler
    refine ⟨⟨t.heap, t.mem, s.pools.set i (size, t.use), s.ran ++ t.ran⟩, ?_,
      Kept.back inv here kept rfl⟩
    rw [step, here, Option.bind_some, taken, Option.map_some]
  | destroy i =>
    have here : s.pools[i]? = some s.pools[i] := List.getElem?_eq_getElem correct
    obtain ⟨h', taken, ok, live⟩ := (inv.at here).destroy
    let ran := s.ran ++ (s.pools[i]).2.pool.cleanup.filterMap Cleanup.handler
    refine ⟨⟨h', s.mem, s.pools.eraseIdx i, ran⟩, ?_, ok, ?_, live⟩
    · rw [step, here, Option.bind_some]
      exact congrArg (Option.map _) taken
    · exact fun e member => inv.ok e (List.mem_of_mem_eraseIdx member)
  | write a b => exact ⟨_, rfl, inv.heap, inv.ok, inv.live⟩
  | note a b => exact ⟨_, rfl, inv.heap, inv.ok, inv.live⟩

end Steps

/-! ## Every run -/

section Runs

variable {others : List Region} {s s' : Pools} {h : Heap} {mem : Nat → Byte}

theorem inv_of_reach (ok : h.Ok) (run : Reach step Correct (Pools.init h mem) s) :
    s.Inv h.live :=
  run.invariant (Pools.init_inv ok mem) fun _ _ _ _ inv correct taken => by
    obtain ⟨m, possible, kept⟩ := inv.next correct
    rw [taken] at possible
    exact Option.some_inj.1 possible ▸ kept

/-- The system answers with every 256th address, and 64 bytes are in use before. -/
def sampleHeap : Heap := ⟨[⟨16, 64⟩], (List.range 16).map fun k => some (256 * (k + 1))⟩

theorem sampleHeap_ok : sampleHeap.Ok := ⟨by decide, by decide⟩

def samplePools : Pools := .init sampleHeap fun _ => 0#8

/-- A pool gets nine blocks and a large region, which is given back; another pool comes and goes with
a handler; the first one is used again, and grows. -/
def sampleActs : List Act :=
  .create 128 :: List.replicate 16 (.call 0 (.palloc 40)) ++
    [.call 0 (.palloc 100), .write 2560 7#8, .call 0 (.pfree (some 2560)), .create 256,
      .call 0 (.cleanupAdd 8 (some (.other 0))), .destroy 0, .note 256 88#8,
      .call 0 (.pstrdup (.letter 0)), .call 0 (.pcalloc 60), .write 16 1#8]

/-- What lies in the memory of a pool is in what it holds. -/
theorem InUse.Ok.inner_within {size : Nat} {u : InUse} (ok : u.Ok size) {r : Region}
    (member : r ∈ u.inner) : ∃ r' ∈ u.held, r.Within r' := by
  unfold InUse.inner InUse.user at member
  rw [← List.append_assoc] at member
  rcases List.mem_append.1 member with carved | inBig
  · obtain ⟨s, inSpans, here⟩ := ok.arena.within carved
    obtain ⟨b, inChain, rfl⟩ := List.mem_map.1 inSpans
    exact ⟨_, List.mem_append_left _ (List.mem_map_of_mem inChain), here⟩
  · exact ⟨r, List.mem_append_right _ inBig, Nat.le_refl _, Nat.le_refl _⟩

theorem InUse.Ok.inner_apart {size : Nat} {u : InUse} (ok : u.Ok size)
    (held : u.held.Pairwise Region.Apart) : u.inner.Pairwise Region.Apart := by
  unfold InUse.held at held
  rw [List.pairwise_append] at held
  unfold InUse.inner InUse.user
  rw [← List.append_assoc, List.pairwise_append]
  refine ⟨ok.arena.apart, held.2.1, fun r carved r' inBig => ?_⟩
  obtain ⟨s, inSpans, here⟩ := ok.arena.within carved
  obtain ⟨b, inChain, rfl⟩ := List.mem_map.1 inSpans
  exact (held.2.2 _ (List.mem_map_of_mem inChain) r' inBig).within here
    ⟨Nat.le_refl _, Nat.le_refl _⟩

theorem Pools.Inv.apart (inv : s.Inv others) :
    (s.pools.flatMap (fun e => e.2.inner) ++ others).Pairwise Region.Apart := by
  have live := (inv.live.pairwise_iff fun apart => Region.Apart.symm apart).1 inv.heap.apart
  rw [List.pairwise_append, List.pairwise_flatMap] at live
  obtain ⟨⟨each, between⟩, rest, beside⟩ := live
  rw [List.pairwise_append, List.pairwise_flatMap]
  refine ⟨⟨fun e member => (inv.ok e member).inner_apart (each e member), ?_⟩, rest, ?_⟩
  · refine List.Pairwise.imp_of_mem (fun {e e'} member member' apart r inner r' inner' => ?_) between
    obtain ⟨a, held, within⟩ := (inv.ok e member).inner_within inner
    obtain ⟨a', held', within'⟩ := (inv.ok e' member').inner_within inner'
    exact (apart a held a' held').within within within'
  · intro r inner r' old
    obtain ⟨e, member, inHere⟩ := List.mem_flatMap.1 inner
    obtain ⟨a, held, within⟩ := (inv.ok e member).inner_within inHere
    exact (beside a (List.mem_flatMap.2 ⟨e, member, held⟩) r' old).within within
      ⟨Nat.le_refl _, Nat.le_refl _⟩

/-- **In every run the structures of the pools and the regions that the users hold are apart from each
other and from what was there before**, and they lie in memory that the system has given out. What
`ngx_palloc` returns is aligned. -/
theorem regions_apart (h : Heap) (ok : h.Ok) (mem : Nat → Byte) (s : Pools)
    (run : Reach step Correct (Pools.init h mem) s) :
    (s.pools.flatMap (fun e => e.2.inner) ++ h.live).Pairwise Region.Apart ∧
      (∀ e ∈ s.pools, ∀ r ∈ e.2.inner, ∃ r' ∈ s.heap.live, r.Within r') ∧
      ∀ e ∈ s.pools, ∀ n got, ngxPalloc 2 e.2.pool s.heap n = some got →
        ∀ m, got.ptr = some m → 16 ∣ m := by
  have inv := inv_of_reach ok run
  refine ⟨inv.apart, fun e member r inner => ?_, fun e member n got returned m ptr => ?_⟩
  · obtain ⟨r', held, within⟩ := (inv.ok e member).inner_within inner
    refine ⟨r', inv.live.symm.subset (List.mem_append_left _ ?_), within⟩
    exact List.mem_flatMap.2 ⟨e, member, held⟩
  · obtain ⟨i, here⟩ := List.mem_iff_getElem?.1 member
    obtain ⟨got', returned', -, aligned⟩ := (inv.at here).request places_align 0 n
    have same : got' = got := Option.some_inj.1 (returned'.symm.trans returned)
    subst same
    rcases aligned m ptr with dvd | ⟨q, rfl⟩
    · exact dvd
    · exact ngxAlignPtr_dvd q

theorem regions_apart_sample : ∃ s ∈ exec step samplePools sampleActs,
    (s.pools.flatMap (fun e => e.2.inner) ++ sampleHeap.live).Pairwise Region.Apart ∧
      ∃ e ∈ s.pools, e.2.pool.chain.length = 10 ∧ ∃ got ∈ ngxPalloc 2 e.2.pool s.heap 8,
        ∃ m ∈ got.ptr, 16 ∣ m := by
  have along : Along step Correct samplePools sampleActs := by decide +kernel
  have sample : ∃ s ∈ exec step samplePools sampleActs, ∃ e ∈ s.pools,
      e.2.pool.chain.length = 10 ∧ ∃ got ∈ ngxPalloc 2 e.2.pool s.heap 8, got.ptr.isSome := by
    decide +kernel
  obtain ⟨s, run, e, member, length, got, returned, some_⟩ := sample
  obtain ⟨m, ptr⟩ := Option.isSome_iff_exists.1 some_
  obtain ⟨apart, -, aligned⟩ := regions_apart sampleHeap sampleHeap_ok _ s (along.reach run)
  exact ⟨s, run, apart, e, member, length, got, returned, m, ptr,
    aligned e member 8 got returned m ptr⟩

/-- **Every run of correct calls comes back**: no `free` is without meaning. The heap is then what the
pools hold beside what was there before, so without pools nothing is left over. -/
theorem runs_complete (h : Heap) (ok : h.Ok) (mem : Nat → Byte) (acts : List Act)
    (correct : Along step Correct (Pools.init h mem) acts) :
    ∃ s : Pools, exec step (Pools.init h mem) acts = some s ∧
      s.heap.live.Perm (s.pools.flatMap (fun e => e.2.held) ++ h.live) ∧
      (s.pools = [] → s.heap.live.Perm h.live) := by
  obtain ⟨s, run, inv⟩ := correct.complete (I := Pools.Inv h.live) (Pools.init_inv ok mem)
    fun m a inv correct => inv.next correct
  refine ⟨s, run, inv.live, fun none_ => ?_⟩
  have live := inv.live
  rwa [none_, List.flatMap_nil, List.nil_append] at live

theorem runs_complete_sample : ∃ s ∈ exec step samplePools (sampleActs ++ [.destroy 0]),
    s.pools = [] ∧ s.heap.live.Perm sampleHeap.live := by
  have last : ∀ s ∈ exec step samplePools (sampleActs ++ [.destroy 0]), s.pools = [] := by
    decide +kernel
  obtain ⟨s, run, -, nothing⟩ := runs_complete sampleHeap sampleHeap_ok (fun _ => 0#8)
    (sampleActs ++ [.destroy 0]) (by decide +kernel)
  exact ⟨s, run, last s run, nothing (last s run)⟩

/-- **`ngx_pfree` in any state of any run, of any pointer**: it frees a large region of this pool, once,
and declines everything else, which changes nothing. -/
theorem pfree_any (h : Heap) (ok : h.Ok) (mem : Nat → Byte) (s : Pools)
    (run : Reach step Correct (Pools.init h mem) s) (i : Nat) (e : Nat × InUse)
    (here : s.pools[i]? = some e) (a : Nat) :
    (∃ r ∈ e.2.big, r.start = a ∧ ∃ pool h', ngxPfree e.2.pool s.heap (some a) =
        some (true, pool, h') ∧ s.heap.live.Perm (r :: h'.live) ∧
        ngxPfree pool h' (some a) = some (false, pool, h')) ∨
      ((∀ r ∈ e.2.big, r.start ≠ a) ∧
        ngxPfree e.2.pool s.heap (some a) = some (false, e.2.pool, s.heap)) := by
  have k := (inv_of_reach ok run).at here
  obtain ⟨answer, pool, h', returned, kept, declined, freed⟩ := k.pfree (some a)
  cases answer with
  | false =>
    obtain ⟨absent, rfl, rfl⟩ := declined rfl
    exact .inr ⟨fun r member start => absent r member (congrArg some start), returned⟩
  | true =>
    obtain ⟨r, member, start, live⟩ := freed a rfl rfl
    refine .inl ⟨r, member, start, pool, h', returned, live, ?_⟩
    -- The region has left the heap, so no other entry has its start.
    obtain ⟨answer', pool', h'', returned', -, declined', freed'⟩ := kept.pfree (some a)
    cases answer' with
    | false =>
      obtain ⟨-, rfl, rfl⟩ := declined' rfl
      exact returned'
    | true =>
      obtain ⟨r', member', start', -⟩ := freed' a rfl rfl
      have inHeap : r' ∈ h'.live :=
        kept.live.symm.subset (List.mem_append_left _ (List.mem_append_right _ member'))
      have apart := (live.pairwise_iff fun apart => Region.Apart.symm apart).1 k.heap.apart
      have before := (List.pairwise_cons.1 apart).1 r' inHeap
      have pos := k.heap.pos r (live.symm.subset List.mem_cons_self)
      exact absurd (start.trans start'.symm) (before.start_ne pos (kept.heap.pos r' inHeap))

/-- The large region of 60 bytes is given back, once. -/
theorem pfree_any_sample : ∃ s ∈ exec step samplePools sampleActs, ∃ e ∈ s.pools[0]?,
    ∃ pool h', ngxPfree e.2.pool s.heap (some 3328) = some (true, pool, h') ∧
      ngxPfree pool h' (some 3328) = some (false, pool, h') := by
  have along : Along step Correct samplePools sampleActs := by decide +kernel
  have sample : ∃ s ∈ exec step samplePools sampleActs, ∃ e ∈ s.pools[0]?, ⟨3328, 60⟩ ∈ e.2.big := by
    decide +kernel
  obtain ⟨s, run, e, here, big⟩ := sample
  refine ⟨s, run, e, here, ?_⟩
  rcases pfree_any sampleHeap sampleHeap_ok _ s (along.reach run) 0 e here 3328 with
    ⟨-, -, -, pool, h', freed, -, again⟩ | ⟨absent, -⟩
  · exact ⟨pool, h', freed, again⟩
  · exact absurd rfl (absent _ big)

end Runs

end SpiderFrame.Pool
