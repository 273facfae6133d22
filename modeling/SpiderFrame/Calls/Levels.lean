import SpiderFrame.Calls.Step

/-!
# Which calls have a level

`level` is a variable of the call that only a scan stores to. A call reads it for the links of a
page and in both tests of the limits. `level_read_stored` says that it has been stored to by then, if
the first URL of the call comes from a record with a level.
-/

namespace SpiderFrame.Calls
open SpiderFrame.Base SpiderFrame.Queue SpiderFrame.Conf

variable {conf : Crawl.Conf} {files : CString → Option Crawl.Conf} {w w' : World} {f : Frame}
  {act : Act} {fs : List Frame}

/-- The step reads `level`: for `level + 1`, or in a test of the limits. -/
def readsLevel : Pc → Bool
  | .href _ | .limit | .outer => true
  | _ => false

/-- A call reads only a level that it has obtained. -/
def ReadsStored (w : World) (move : Option Nat × Act) : Prop :=
  ∀ f ∈ acting w move, readsLevel f.pc = true → f.stored = true

instance (w : World) (move : Option Nat × Act) : Decidable (ReadsStored w move) :=
  inferInstanceAs (Decidable (∀ f ∈ acting w move, readsLevel f.pc = true → f.stored = true))

/-- What `url.txt` has for the next scan begins with a level. -/
def World.levelNext (w : World) : Bool :=
  (fscanfRecord (w.reader.ahead w.urlTxt)).level.isSome

/-- A call takes its first URL from a record with a level. -/
def TakesLevel (w : World) (move : Option Nat × Act) : Prop :=
  ∀ f ∈ acting w move, f.pc = .take → f.stored = false →
    (w.spiders f.self).starturl = none ∧ w.levelNext = true

instance (w : World) (move : Option Nat × Act) : Decidable (TakesLevel w move) :=
  inferInstanceAs (Decidable (∀ f ∈ acting w move, f.pc = .take → f.stored = false →
    (w.spiders f.self).starturl = none ∧ w.levelNext = true))

/-- The call has a level, or is before its first URL. -/
def Levelled (f : Frame) : Prop := f.stored = true ∨ f.pc = .enter ∨ f.pc = .take

theorem Levelled.stored (h : Levelled f) {pc : Pc} (at_ : f.pc = pc) (entered : pc ≠ .enter)
    (taken : pc ≠ .take) : f.stored = true := by
  rcases h with stored | before | before
  · exact stored
  · exact absurd (at_.symm.trans before) entered
  · exact absurd (at_.symm.trans before) taken

theorem Levelled.reads (h : Levelled f) (reads : readsLevel f.pc = true) : f.stored = true := by
  rcases h with stored | before | before
  · exact stored
  · rw [before] at reads
    cases reads
  · rw [before] at reads
    cases reads

/-- **A move leaves the call with a level, if it does when it takes the first URL.** -/
theorem Move.levelled (m : Move files w f act w' fs) (h : Levelled f)
    (takes : f.pc = .take → f.stored = false →
      (w.spiders f.self).starturl = none ∧ w.levelNext = true) : ∀ f' ∈ fs, Levelled f' := by
  have kept : ∀ {pc pc' : Pc}, f.pc = pc → pc ≠ .enter → pc ≠ .take → Levelled (f.at_ pc') :=
    fun at_ entered taken => .inl (h.stored at_ entered taken)
  cases m with
  | enter at_ =>
    rw [List.forall_mem_singleton]
    exact .inr (.inr rfl)
  | copy at_ starturl =>
    rw [List.forall_mem_singleton]
    cases stored : f.stored with
    | true => exact .inl stored
    | false =>
      have none_ := (takes at_ stored).1
      rw [starturl] at none_
      cases none_
  | scan at_ starturl =>
    rw [List.forall_mem_singleton]
    left
    show (f.stored || w.levelNext) = true
    cases stored : f.stored with
    | true => rfl
    | false => exact (takes at_ stored).2
  | setEof at_ =>
    rw [List.forall_mem_singleton]
    rcases at_ with at_ | at_
    · exact kept at_ (by simp) (by simp)
    · exact kept at_ (by simp) (by simp)
  | pattern at_ opened =>
    rw [List.forall_mem_singleton]
    exact h
  | call o level at_ =>
    rw [List.forall_mem_cons, List.forall_mem_singleton]
    exact ⟨.inr (.inl rfl), kept at_ (by simp) (by simp)⟩
  | close at_ => exact List.forall_mem_nil _
  | pool at_ | create ok at_ | clear at_ | fetch ok links at_ pc next | href links at_ | noLink at_
  | link url todo at_ pc next | write url todo at_ opened | known entry o found at_
  | unknown entry c found at_ | done at_ | assign o entry found at_ pc next
  | copyName o confFn pool at_ own | insert o confFn pool at_ | limit at_ pc next
  | outer at_ pc next | allEof k at_ pc next =>
    rw [List.forall_mem_singleton]
    exact kept at_ (by simp) (by simp)

/-- Every call of every thread. -/
def AllLevelled (w : World) : Prop := ∀ k, ∀ f ∈ w.threads k, Levelled f

theorem acting_mem {move : Option Nat × Act} (here : f ∈ acting w move) :
    ∃ k, f ∈ w.threads k := by
  obtain ⟨k, -, head⟩ := Option.bind_eq_some_iff.1 here
  exact ⟨k, List.mem_of_head? head⟩

/-- **In a run in which each call takes its first URL from a record with a level, no level is read
that its call has not obtained.** -/
theorem level_read_stored {spiderCnt : Nat} {sh : Crawl.Shared} {acts : List (Option Nat × Act)}
    (takes : Along (step conf files) TakesLevel (start spiderCnt sh) acts) :
    Along (step conf files) ReadsStored (start spiderCnt sh) acts := by
  have carried := takes.carry (I := AllLevelled) (fun k f hf => absurd hf List.not_mem_nil) ?_
  · apply carried.mono
    rintro w move ⟨all, -⟩ f here
    obtain ⟨k, member⟩ := acting_mem here
    exact (all k f member).reads
  · intro w move w' all takes taken
    apply (step_cases taken).frames (fun k level => .inr (.inl rfl)) _ all
    intro f w₁ fs here m levelled
    exact m.levelled levelled (takes f here)

/-- One spider, created and stored in `spider_list`. -/
def oneSpider : List (Option Nat × Act) := [(none, .call 7), (none, .tick)]

/-- `n` steps of the thread 0 in which the environment has nothing to decide. -/
def ticks (n : Nat) : List (Option Nat × Act) := List.replicate n (some 0, .tick)

/-- The only record is scanned and fetched, and then the limits are tested. -/
theorem level_read_stored_oneRecord :
    Along (step ⟨0, 1, false⟩ fun _ => none) ReadsStored
      (start 1 (Crawl.start true [⟨0, .letter 0⟩] 0 []).shared)
      (oneSpider ++ ticks 3 ++ [(some 0, .pool true), (some 0, .tick), (some 0, .page true [])] ++
        ticks 2 ++ [(some 0, .done)] ++ ticks 4) :=
  level_read_stored (by decide +kernel)

/-- The first scan of an empty file is `EOF`. -/
def emptyActs : List (Option Nat × Act) := oneSpider ++ ticks 3

theorem emptyActs_runs : (exec (step ⟨0, 1, false⟩ fun _ => none)
    (start 1 (Crawl.start true [] 0 []).shared) emptyActs).isSome := by
  decide +kernel

/-- The test behind the inner loop reads a level that nobody has stored to. -/
theorem reads_unset_level : ¬ ∀ (conf : Crawl.Conf) (files : CString → Option Crawl.Conf)
    (spiderCnt : Nat) (sh : Crawl.Shared) (acts : List (Option Nat × Act)),
    Along (step conf files) ReadsStored (start spiderCnt sh) acts := by
  intro claim
  have reads := (claim ⟨0, 1, false⟩ (fun _ => none) 1 (Crawl.start true [] 0 []).shared
    (emptyActs ++ [(some 0, .tick)])).at_step (Option.some_get emptyActs_runs).symm
  revert reads
  decide +kernel

end SpiderFrame.Calls
