import SpiderFrame.Calls.Levels

/-!
# Where the keys of the table of configuration files are

The string `conf_fn` of an entry is a copy in the pool of the page that came to the entry first.
`sf_proc_start_spider` destroys that pool when it has its next URL, and nobody takes entries out of
the table. So the keys are live as long as no spider goes on from a page that has entered a
configuration file (`keys_live_iff`).
-/

namespace SpiderFrame.Calls
open SpiderFrame.Base SpiderFrame.Queue SpiderFrame.Conf

variable {conf : Crawl.Conf} {files : CString → Option Crawl.Conf} {w w' : World} {f : Frame}
  {act : Act} {fs : List Frame}

def World.entered (w : World) (confFn : CString) : Bool := (sfConfsetSearch w.confset confFn).isSome

/-- The pool of the string `conf_fn` of each entry is live. -/
def KeysLive (w : World) : Prop :=
  ∀ confFn, w.entered confFn = true → w.keyPool confFn ∉ w.destroyed

/-- A step that destroys a pool destroys no key of the table with it, and a name that a step enters
is not in a pool that another call of the same spider has destroyed. -/
def SparesKeys (w : World) (move : Option Nat × Act) : Prop :=
  ∀ f ∈ acting w move, move.2 = .tick →
    (f.pc = .pool → ∀ confFn, w.entered confFn = true →
      w.keyPool confFn ∉ (w.spiders f.self).pool) ∧
    ∀ o confFn pool, f.pc = .insert o confFn pool → w.entered confFn = false → pool ∉ w.destroyed

theorem search_isSome (t : Confset) (confFn : CString) :
    (sfConfsetSearch t confFn).isSome = (t.lookup confFn).isSome := by
  rw [Hash.NameTable.lookup, Option.isSome_map]
  rfl

theorem entered_enterConf (confFn : CString) (o pool : Nat) (k : CString) :
    (w.enterConf confFn o pool).entered k = (w.entered k || decide (k = confFn)) := by
  simp only [World.entered, World.enterConf, search_isSome, lookup_sfConfsetInsert]
  by_cases same : k = confFn <;> simp [same]

/-- The keys are live after the pool is destroyed if and only if none of them was in it. -/
theorem keysLive_destroyPool (live : KeysLive w) (r : Ref) :
    KeysLive (w.destroyPool r) ↔
      ∀ confFn, w.entered confFn = true → w.keyPool confFn ∉ (w.spiders r).pool := by
  refine forall₂_congr fun confFn here => ?_
  show w.keyPool confFn ∉ (w.spiders r).pool.toList ++ w.destroyed ↔ _
  rw [List.mem_append, not_or, Option.mem_toList]
  exact and_iff_left (live confFn here)

/-- The keys are live after a name is entered if and only if its pool is, or the table has it. -/
theorem keysLive_enterConf (live : KeysLive w) (confFn : CString) (o pool : Nat) :
    KeysLive (w.enterConf confFn o pool) ↔ (w.entered confFn = false → pool ∉ w.destroyed) := by
  have keyPool : (w.enterConf confFn o pool).keyPool =
      if w.entered confFn then w.keyPool else Function.update w.keyPool confFn pool := rfl
  constructor
  · intro live' new
    have here := live' confFn (by simp [entered_enterConf])
    rwa [keyPool, new, if_neg Bool.false_ne_true, Function.update_self] at here
  · intro own k here
    show (w.enterConf confFn o pool).keyPool k ∉ w.destroyed
    rw [keyPool]
    cases known : w.entered confFn with
    | true =>
      rw [if_pos rfl]
      apply live
      rcases Bool.or_eq_true_iff.1 (entered_enterConf confFn o pool k ▸ here) with old | same
      · exact old
      · rwa [of_decide_eq_true same]
    | false =>
      rw [if_neg Bool.false_ne_true]
      by_cases same : k = confFn
      · rw [same, Function.update_self]
        exact own known
      · rw [Function.update_of_ne same]
        apply live
        simpa [entered_enterConf, same] using here

/-- **A move destroys a pool, enters a name, or leaves keys and pools as they are.** -/
theorem Move.keys (m : Move files w f act w' fs) :
    (act = .tick ∧ f.pc = .pool ∧ w' = w.destroyPool f.self) ∨
      (∃ o confFn pool, act = .tick ∧ f.pc = .insert o confFn pool ∧
        w' = w.enterConf confFn o pool) ∨
      (KeysLive w → KeysLive w') := by
  cases m with
  | pool at_ => exact .inl ⟨rfl, at_, rfl⟩
  | insert o confFn pool at_ => exact .inr (.inl ⟨o, confFn, pool, rfl, at_, rfl⟩)
  | _ => exact .inr (.inr id)

/-- **A step keeps the keys live if and only if it satisfies the condition.** -/
theorem keysLive_step (move : Option Nat × Act) (live : KeysLive w) :
    SparesKeys w move ↔ ∀ w', step conf files w move = some w' → KeysLive w' := by
  constructor
  · intro spares w' taken
    cases step_cases taken with
    | create level inside => exact live
    | list inside => exact live
    | @move k act f rest fs w₁ thread m =>
      have here : f ∈ acting w (some k, act) := by simp [acting, thread]
      rcases m.keys with ⟨tick, at_, rfl⟩ | ⟨o, confFn, pool, tick, at_, rfl⟩ | kept
      · exact (keysLive_destroyPool live f.self).2 ((spares f here tick).1 at_)
      · exact (keysLive_enterConf live confFn o pool).2 ((spares f here tick).2 o confFn pool at_)
      · exact kept live
  · intro kept f here tick
    obtain ⟨actor, act⟩ := move
    obtain ⟨k, same, head⟩ := Option.bind_eq_some_iff.1 here
    obtain ⟨rest, thread⟩ := List.head?_eq_some_iff.1 head
    dsimp only at tick same
    subst tick same
    constructor
    · intro at_
      have live' : KeysLive ((w.destroyPool f.self).setThread k _) :=
        kept _ (by simp only [step, thread, frameStep, at_, Option.map_some]; rfl)
      exact (keysLive_destroyPool live f.self).1 live'
    · intro o confFn pool at_
      have live' : KeysLive ((w.enterConf confFn o pool).setThread k _) :=
        kept _ (by simp only [step, thread, frameStep, at_, Option.map_some]; rfl)
      exact (keysLive_enterConf live confFn o pool).1 live'

/-- **The keys of the table are live after each step of a run if and only if each step that destroys
a pool spares them and each name is entered from a live pool.** -/
theorem keys_live_iff (spiderCnt : Nat) (sh : Crawl.Shared) (acts : List (Option Nat × Act)) :
    Along (step conf files) (fun w move => ∀ w', step conf files w move = some w' → KeysLive w')
        (start spiderCnt sh) acts ↔
      Along (step conf files) SparesKeys (start spiderCnt sh) acts := by
  apply along_kept_iff (J := fun _ => True)
  · intro confFn here
    exact List.not_mem_nil
  · trivial
  · exact fun _ _ _ _ _ => trivial
  · exact fun w move _ live => keysLive_step move live

/-! ## A spider that goes on from a page with an entry -/

/-- The page of the first record comes to an entry; the spider goes on to the second. -/
def onwardActs : List (Option Nat × Act) :=
  oneSpider ++ ticks 3 ++ [(some 0, .pool true), (some 0, .tick), (some 0, .page true [])] ++
    ticks 2 ++ [(some 0, .entry ⟨.letter 0, some (.letter 1), none⟩)] ++ ticks 3 ++
    [(some 0, .call 0)] ++ ticks 3 ++
    [(some 0, .pool true), (some 0, .tick), (some 0, .page true [])] ++ ticks 2 ++
    [(some 0, .done)] ++ ticks 4 ++ [(some 0, .done)] ++ ticks 2

/-- The configuration of the nested spider: it stops after one page. -/
def onePage : CString → Option Crawl.Conf := fun _ => some ⟨1, 0, false⟩

def twoRecords : Crawl.Shared :=
  (Crawl.start true [⟨0, .letter 0⟩, ⟨0, .letter 2⟩] 0 []).shared

theorem onwardActs_runs :
    (exec (step ⟨1, 5, false⟩ onePage) (start 1 twoRecords) onwardActs).isSome := by
  decide +kernel

/-- The table has the name of the entry, and the pool of its string is destroyed. -/
def onwardKey (w : World) : Bool :=
  w.entered (.letter 0) && w.destroyed.contains (w.keyPool (.letter 0))

theorem onwardKey_destroyed :
    ((exec (step ⟨1, 5, false⟩ onePage) (start 1 twoRecords) onwardActs).bind fun w =>
      step ⟨1, 5, false⟩ onePage w (some 0, .tick)).any onwardKey = true := by
  decide +kernel

/-- A later search compares with a key in a pool that is destroyed. -/
theorem key_destroyed : ¬ ∀ (conf : Crawl.Conf) (files : CString → Option Crawl.Conf)
    (spiderCnt : Nat) (sh : Crawl.Shared) (acts : List (Option Nat × Act)),
    Along (step conf files) (fun w move => ∀ w', step conf files w move = some w' → KeysLive w')
      (start spiderCnt sh) acts := by
  intro claim
  have live := (claim ⟨1, 5, false⟩ onePage 1 twoRecords
    (onwardActs ++ [(some 0, .tick)])).at_step (Option.some_get onwardActs_runs).symm
  have gone := onwardKey_destroyed
  rw [← Option.some_get onwardActs_runs, Option.bind_some] at gone
  obtain ⟨w', taken, key⟩ := (Option.any_eq_true _ _).1 gone
  obtain ⟨entered, destroyed⟩ := Bool.and_eq_true_iff.1 key
  exact live w' taken _ entered (List.contains_iff_mem.1 destroyed)

end SpiderFrame.Calls
