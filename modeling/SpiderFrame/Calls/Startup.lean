import SpiderFrame.Calls.Levels

/-!
# Spiders that run while `main` still creates spiders

`main` creates a thread in `sf_spider_create` and stores the spider in `spider_list` afterwards, and
`spider_cnt` is the number of all spiders from the beginning. `sf_all_spiders_eof` goes through the
list until it finds a flag that is 0, so what it reads has been stored as long as it stops before the
end of what has been (`startup_safe_iff`). That it reports the end of all spiders only when all have
been created needs no condition: it has then read the flags of all.
-/

namespace SpiderFrame.Calls
open SpiderFrame.Base SpiderFrame.Queue SpiderFrame.Conf

variable {conf : Crawl.Conf} {files : CString → Option Crawl.Conf} {w w' : World} {f : Frame}
  {act : Act} {fs : List Frame}

/-- The entry of `spider_list` that the call reads next. -/
def entryRead (w : World) (f : Frame) : Option Nat :=
  match f.pc with
  | .allEof k => if k < w.spiderCnt then some k else none
  | _ => none

/-- `sf_all_spiders_eof` returns 1 next. -/
def reportsAll (w : World) (f : Frame) : Bool :=
  match f.pc with
  | .allEof k => w.spiderCnt ≤ k
  | _ => false

/-- Whichever call goes on, `sf_all_spiders_eof` reads an entry that has been stored, and returns 1
only if all spiders have been created. -/
def EofSafe (w : World) : Prop :=
  ∀ i, ∀ f ∈ w.threads i, (∀ k ∈ entryRead w f, k < w.listed) ∧
    (reportsAll w f = true → w.created = w.spiderCnt)

/-- The call comes to `sf_all_spiders_eof` only when a spider has been stored; and when it looks at the
last spider stored before `main` has stored all, the flag of that spider is 0. -/
def FrameStops (w : World) (f : Frame) (act : Act) : Prop :=
  act = .tick →
    (f.pc = .outer → Crawl.limitReached (w.spiders f.self).conf f.level w.line = false →
      0 < w.listed) ∧
    ∀ k, f.pc = .allEof k → k + 1 = w.listed → w.listed < w.spiderCnt →
      (w.spiders (.top k)).eof = false

def StopsShort (w : World) (move : Option Nat × Act) : Prop :=
  ∀ f ∈ acting w move, FrameStops w f move.2

/-- When `main` has stored all spiders, there is nothing left to go wrong. -/
theorem stopsShort_of_done (some_ : 0 < w.spiderCnt) (done : w.listed = w.spiderCnt)
    (move : Option Nat × Act) : StopsShort w move := by
  intro f _ _
  constructor
  · intro _ _
    omega
  · intro k _ _ more
    omega

/-! ## What `main` does -/

/-- How far `main` is. -/
structure MainInv (w : World) : Prop where
  listed : w.listed ≤ w.created
  created : w.created ≤ w.spiderCnt
  started : ∀ i, w.threads i ≠ [] → i < w.created

/-- The counters are `main`'s. -/
theorem Move.counters (m : Move files w f act w' fs) :
    w'.spiderCnt = w.spiderCnt ∧ w'.created = w.created ∧ w'.listed = w.listed := by
  cases m <;> exact ⟨rfl, rfl, rfl⟩

theorem MainInv.step {move : Option Nat × Act} (inv : MainInv w) (h : Step conf files w move w') :
    MainInv w' := by
  obtain ⟨listed, created, started⟩ := inv
  cases h with
  | create level inside =>
    refine ⟨?_, inside, fun i busy => ?_⟩
    · show w.listed ≤ w.created + 1
      omega
    · show i < w.created + 1
      change Function.update w.threads w.created _ i ≠ [] at busy
      by_cases own : i = w.created
      · omega
      · rw [Function.update_of_ne own] at busy
        have := started i busy
        omega
  | list inside => exact ⟨inside, created, started⟩
  | @move k act f rest fs w₁ thread m =>
    obtain ⟨spiderCnt', created', listed'⟩ := m.counters
    refine ⟨?_, ?_, fun i busy => ?_⟩
    · show w₁.listed ≤ w₁.created
      omega
    · show w₁.created ≤ w₁.spiderCnt
      omega
    · show i < w₁.created
      rw [created']
      exact started i (m.busy thread busy)

/-! ## What a call does -/

/-- What the place of a call has to do with the property. -/
def PcSafe (w : World) : Pc → Prop
  | .allEof k => (k < w.spiderCnt → k < w.listed) ∧ (w.spiderCnt ≤ k → w.created = w.spiderCnt)
  | _ => True

theorem eofSafe_iff : EofSafe w ↔ ∀ i, ∀ f ∈ w.threads i, PcSafe w f.pc := by
  refine forall_congr' fun i => forall₂_congr fun f _ => ?_
  unfold entryRead reportsAll
  cases f.pc with
  | allEof k => by_cases more : k < w.spiderCnt <;> simp [PcSafe, more, Nat.not_le.2, Nat.not_lt.1]
  | _ => simp [PcSafe]

theorem PcSafe.congr {pc : Pc} (spiderCnt : w'.spiderCnt = w.spiderCnt)
    (created : w'.created = w.created) (listed : w'.listed = w.listed) :
    PcSafe w' pc ↔ PcSafe w pc := by
  cases pc with
  | allEof k => simp only [PcSafe, spiderCnt, created, listed]
  | _ => rfl

/-- A call comes to a flag from the test of the limits or from the flag before it. -/
theorem Move.toFlag (m : Move files w f act w' fs) (outer : f.pc ≠ .outer)
    (flag : ∀ k, f.pc ≠ .allEof k) : ∀ f' ∈ fs, PcSafe w' f'.pc := by
  intro f' new
  have came := m.cameFrom f' new
  cases pc : f'.pc with
  | allEof k =>
    rw [pc] at came
    rcases came with at_ | ⟨k', at_⟩
    · exact absurd at_ outer
    · exact absurd at_ (flag k')
  | _ => trivial

theorem frameStep_outer (at_ : f.pc = .outer) : frameStep files w f .tick =
    some (w, [f.at_
      (if Crawl.limitReached (w.spiders f.self).conf f.level w.line then .close else .allEof 0)]) := by
  unfold frameStep
  rw [at_]
  rfl

theorem frameStep_allEof {k : Nat} (at_ : f.pc = .allEof k) : frameStep files w f .tick =
    if k < w.spiderCnt then
      if k < w.listed then
        some (w, [f.at_ (if (w.spiders (.top k)).eof then .allEof (k + 1) else .take)])
      else none
    else some (w, [f.at_ .close]) := by
  unfold frameStep
  rw [at_]
  rfl

/-- Behind the test of the limits the call reads the first entry, or has not come to the list. -/
theorem frameStops_outer (inv : MainInv w) (busy : 0 < w.spiderCnt) (at_ : f.pc = .outer) :
    FrameStops w f .tick ↔ PcSafe w
      (if Crawl.limitReached (w.spiders f.self).conf f.level w.line then .close else .allEof 0) := by
  have created := inv.created
  unfold FrameStops
  cases Crawl.limitReached (w.spiders f.self).conf f.level w.line with
  | true => simp [at_, PcSafe]
  | false =>
    simp only [at_, PcSafe, true_implies, Bool.false_eq_true, if_false, reduceCtorEq,
      false_implies, implies_true, and_true]
    constructor
    · intro stored
      exact ⟨fun _ => stored, fun none_ => by omega⟩
    · intro safe
      exact safe.1 busy

/-- Behind a flag that is 1 the call reads the next entry, or has read all. -/
theorem frameStops_allEof (inv : MainInv w) {k : Nat} (at_ : f.pc = .allEof k)
    (inside : k < w.listed) : FrameStops w f .tick ↔ PcSafe w
      (if (w.spiders (.top k)).eof then .allEof (k + 1) else .take) := by
  have listed := inv.listed
  have created := inv.created
  have stops : FrameStops w f .tick ↔
      (k + 1 = w.listed → w.listed < w.spiderCnt → (w.spiders (.top k)).eof = false) := by
    simp [FrameStops, at_]
  rw [stops]
  cases (w.spiders (.top k)).eof with
  | false => simp [PcSafe]
  | true =>
    simp only [if_true, PcSafe, Bool.true_eq_false, imp_false]
    constructor
    · intro short
      constructor <;> intro more <;> omega
    · intro safe last more
      have next := safe.1
      omega

/-- **A call that goes on is safe behind its step if and only if it stops short.** -/
theorem frameStops_iff (inv : MainInv w) (busy : 0 < w.spiderCnt) (safe : PcSafe w f.pc)
    (taken : frameStep files w f act = some (w', fs)) :
    FrameStops w f act ↔ ∀ f' ∈ fs, PcSafe w' f'.pc := by
  have m := frameStep_move taken
  by_cases outer : f.pc = .outer
  · obtain rfl := m.tick (by rw [outer]; rfl)
    rw [frameStep_outer outer] at taken
    cases taken
    rw [List.forall_mem_singleton]
    exact frameStops_outer inv busy outer
  · by_cases flag : ∃ k, f.pc = .allEof k
    · obtain ⟨k, at_⟩ := flag
      obtain rfl := m.tick (by rw [at_]; rfl)
      rw [at_] at safe
      rw [frameStep_allEof at_] at taken
      by_cases more : k < w.spiderCnt
      · have inside := safe.1 more
        rw [if_pos more, if_pos inside] at taken
        cases taken
        rw [List.forall_mem_singleton]
        exact frameStops_allEof inv at_ inside
      · rw [if_neg more] at taken
        cases taken
        rw [List.forall_mem_singleton]
        refine iff_of_true (fun _ => ⟨fun here => absurd here outer, fun k' here => ?_⟩) trivial
        have listed := inv.listed
        have created := inv.created
        obtain rfl : k = k' := Pc.allEof.inj (at_.symm.trans here)
        intro last less
        omega
    · rw [not_exists] at flag
      refine iff_of_true (fun _ => ⟨fun at_ => absurd at_ outer, fun k at_ => absurd at_ (flag k)⟩) ?_
      exact m.toFlag outer flag

/-- A call that is at the list, or before it, goes on. -/
theorem frameStep_goesOn (safe : PcSafe w f.pc) (at_ : f.pc = .outer ∨ ∃ k, f.pc = .allEof k) :
    ∃ next, frameStep files w f .tick = some next := by
  rcases at_ with outer | ⟨k, flag⟩
  · exact ⟨_, frameStep_outer outer⟩
  · rw [flag] at safe
    rw [frameStep_allEof flag]
    by_cases more : k < w.spiderCnt
    · rw [if_pos more, if_pos (safe.1 more)]
      exact ⟨_, rfl⟩
    · rw [if_neg more]
      exact ⟨_, rfl⟩

/-! ## Runs -/

/-- Where the step of a thread leaves the calls. -/
theorem eofSafe_setThread {i : Nat} {rest : List Frame} (safe : EofSafe w)
    (thread : w.threads i = f :: rest) (m : Move files w f act w' fs) :
    EofSafe (w'.setThread i (fs ++ rest)) ↔ ∀ f' ∈ fs, PcSafe w' f'.pc := by
  obtain ⟨spiderCnt, created, listed⟩ := m.counters
  rw [eofSafe_iff] at safe
  rw [eofSafe_iff]
  have old : ∀ j, ∀ f ∈ w'.threads j, PcSafe w' f.pc := by
    intro j f member
    rw [m.threads] at member
    exact (PcSafe.congr spiderCnt created listed).2 (safe j f member)
  rw [← m.threads] at thread
  exact forall_replaced_iff old thread fs

theorem eofSafe_main {move : Option Nat × Act} (safe : EofSafe w) (main : move.1 = none)
    (h : Step conf files w move w') : EofSafe w' := by
  rw [eofSafe_iff] at safe ⊢
  cases h with
  | create level inside =>
    have old : ∀ j, ∀ f ∈ w.threads j, PcSafe (w.create conf level) f.pc := by
      intro j f member
      have here := safe j f member
      cases pc : f.pc with
      | allEof k =>
        rw [pc] at here
        refine ⟨here.1, fun all => ?_⟩
        have := here.2 all
        omega
      | _ => trivial
    exact (forall_begun_iff w.created old _).2 trivial
  | list inside =>
    intro j f member
    have here := safe j f member
    cases pc : f.pc with
    | allEof k =>
      rw [pc] at here
      exact ⟨fun more => Nat.lt_succ_of_lt (here.1 more), here.2⟩
    | _ => trivial
  | move thread m => cases main

/-- **A step leaves every call safe if and only if the call that goes on stops short.** -/
theorem stopsShort_iff (move : Option Nat × Act) (inv : MainInv w) (safe : EofSafe w) :
    StopsShort w move ↔ ∀ w', step conf files w move = some w' → EofSafe w' := by
  obtain ⟨actor, act⟩ := move
  cases actor with
  | none =>
    refine iff_of_true (fun f here => ?_) fun w' taken => ?_
    · cases here
    · exact eofSafe_main safe rfl (step_cases taken)
  | some i =>
    cases thread : w.threads i with
    | nil => simp [StopsShort, acting, step, thread]
    | cons f rest =>
      have busy : 0 < w.spiderCnt := by
        have := inv.started i (by simp [thread])
        have := inv.created
        omega
      have here : PcSafe w f.pc := eofSafe_iff.1 safe i f (by simp [thread])
      have stops : StopsShort w (some i, act) ↔ FrameStops w f act := by
        simp [StopsShort, acting, thread]
      rw [stops]
      constructor
      · intro short w' taken
        simp only [step, thread, Option.map_eq_some_iff] at taken
        obtain ⟨⟨w₁, fs⟩, frame, rfl⟩ := taken
        rw [eofSafe_setThread safe thread (frameStep_move frame)]
        exact (frameStops_iff inv busy here frame).1 short
      · intro kept tick
        by_cases at_ : f.pc = .outer ∨ ∃ k, f.pc = .allEof k
        · subst tick
          obtain ⟨⟨w₁, fs⟩, frame⟩ : ∃ next, frameStep files w f .tick = some next :=
            frameStep_goesOn here at_
          have safe' : EofSafe (w₁.setThread i (fs ++ rest)) :=
            kept _ (by simp only [step, thread, frame, Option.map_some])
          rw [eofSafe_setThread safe thread (frameStep_move frame)] at safe'
          exact (frameStops_iff inv busy here frame).2 safe' rfl
        · rw [not_or, not_exists] at at_
          exact ⟨fun outer => absurd outer at_.1, fun k flag => absurd flag (at_.2 k)⟩

/-- **In every state of a run, whichever call goes on, `sf_all_spiders_eof` reads a stored entry and
reports the end of all spiders only when all have been created, if and only if its calls stop short
in each step.** -/
theorem startup_safe_iff (spiderCnt : Nat) (sh : Crawl.Shared) (acts : List (Option Nat × Act)) :
    Along (step conf files) (fun w move => ∀ w', step conf files w move = some w' → EofSafe w')
        (start spiderCnt sh) acts ↔
      Along (step conf files) StopsShort (start spiderCnt sh) acts := by
  apply along_kept_iff (J := MainInv)
  · exact fun i f member => absurd member List.not_mem_nil
  · exact ⟨Nat.le_refl 0, Nat.zero_le _, fun i busy => absurd rfl busy⟩
  · exact fun w move w' inv taken => inv.step (step_cases taken)
  · exact fun w move inv safe => stopsShort_iff move inv safe

/-! ## A spider that is at the end of the file before `main` goes on -/

/-- `main` creates the only spider, which scans an empty file, and does not go on. -/
def earlyActs : List (Option Nat × Act) := (none, .call 0) :: ticks 3

theorem earlyActs_runs : (exec (step ⟨5, 5, false⟩ fun _ => none)
    (start 1 (Crawl.start true [] 0 []).shared) earlyActs).isSome := by
  decide +kernel

/-- The call of the thread 0 is about to read an entry that has not been stored. -/
def readsEarly (w : World) : Bool :=
  (w.threads 0).any fun f => (entryRead w f).any fun k => w.listed ≤ k

theorem earlyActs_reads :
    ((exec (step ⟨5, 5, false⟩ fun _ => none) (start 1 (Crawl.start true [] 0 []).shared)
      earlyActs).bind fun w => step ⟨5, 5, false⟩ (fun _ => none) w (some 0, .tick)).any
        readsEarly = true := by
  decide +kernel

/-- `sf_all_spiders_eof` reads an entry before `main` has stored it. -/
theorem reads_unset_entry : ¬ ∀ (conf : Crawl.Conf) (files : CString → Option Crawl.Conf)
    (spiderCnt : Nat) (sh : Crawl.Shared) (acts : List (Option Nat × Act)),
    Along (step conf files) (fun w move => ∀ w', step conf files w move = some w' → EofSafe w')
      (start spiderCnt sh) acts := by
  intro claim
  have safe := (claim ⟨5, 5, false⟩ (fun _ => none) 1 (Crawl.start true [] 0 []).shared
    (earlyActs ++ [(some 0, .tick)])).at_step (Option.some_get earlyActs_runs).symm
  have reads := earlyActs_reads
  rw [← Option.some_get earlyActs_runs, Option.bind_some] at reads
  obtain ⟨w', taken, early⟩ := (Option.any_eq_true _ _).1 reads
  obtain ⟨f, member, entry⟩ := List.any_eq_true.1 early
  obtain ⟨k, read, unset⟩ := (Option.any_eq_true _ _).1 entry
  have stored := (safe w' taken 0 f member).1 k read
  have := of_decide_eq_true unset
  omega

end SpiderFrame.Calls
