import SpiderFrame.Calls.Levels

/-!
# Which calls have streams

`sf_spider_create` opens the streams of a top-level spider; `sf_spider_init`, which makes a nested
one, does not, and nobody else does. A call closes `pattern_fp` at its end, and no call is made of a
top-level spider but the outermost of its thread. So the streams are open when they are written to
if and only if only top-level spiders write (`streams_open_iff`).
-/

namespace SpiderFrame.Calls
open SpiderFrame.Base SpiderFrame.Queue SpiderFrame.Conf

variable {conf : Crawl.Conf} {files : CString → Option Crawl.Conf} {w w' : World} {f : Frame}
  {act : Act} {fs : List Frame}

/-- The step appends a URL to `url.txt`. -/
def appendsUrl : Pc → Act → Bool
  | .write _ _, .tick => true
  | _, _ => false

/-- The step writes a text of `out_pattern`. -/
def writesText : Pc → Act → Bool
  | .rules, .pattern => true
  | _, _ => false

/-- A stream that the step writes to is not NULL. -/
def WritesOpen (w : World) (move : Option Nat × Act) : Prop :=
  ∀ f ∈ acting w move,
    (appendsUrl f.pc move.2 = true → (w.spiders f.self).urlFdw = true) ∧
      (writesText f.pc move.2 = true → (w.spiders f.self).patternFp = true)

instance (w : World) (move : Option Nat × Act) : Decidable (WritesOpen w move) :=
  inferInstanceAs (Decidable (∀ f ∈ acting w move,
    (appendsUrl f.pc move.2 = true → (w.spiders f.self).urlFdw = true) ∧
      (writesText f.pc move.2 = true → (w.spiders f.self).patternFp = true)))

def Ref.isTop : Ref → Bool
  | .top _ => true
  | .nested _ => false

/-- A spider that writes is a top-level one. -/
def TopWrites (w : World) (move : Option Nat × Act) : Prop :=
  ∀ f ∈ acting w move, (appendsUrl f.pc move.2 || writesText f.pc move.2) = true →
    f.self.isTop = true

/-! ## Stacks -/

/-- A call of a top-level spider is the outermost of its own thread. -/
def Stacked (k : Nat) : List Frame → Prop
  | [] => True
  | f :: rest => (∀ j, f.self = .top j → j = k ∧ rest = []) ∧ Stacked k rest

/-- A move ends the call, goes on with it, or makes a nested one. -/
theorem Move.calls (m : Move files w f act w' fs) :
    fs = [] ∨ (∃ f', fs = [f'] ∧ f'.self = f.self) ∨
      ∃ o level f', fs = [⟨.nested o, .enter, level, false⟩, f'] ∧ f'.self = f.self := by
  cases m with
  | close at_ => exact .inl rfl
  | call o level at_ => exact .inr (.inr ⟨o, level, _, rfl, rfl⟩)
  | _ => exact .inr (.inl ⟨_, rfl, rfl⟩)

theorem Move.ends (m : Move files w f act w' fs) (at_ : f.pc = .close) : fs = [] := by
  cases m with
  | close => rfl
  | _ => simp_all

theorem Move.stacked {k : Nat} {rest : List Frame} (m : Move files w f act w' fs)
    (h : Stacked k (f :: rest)) : Stacked k (fs ++ rest) := by
  rcases m.calls with rfl | ⟨f', rfl, same⟩ | ⟨o, level, f', rfl, same⟩
  · exact h.2
  · refine ⟨?_, h.2⟩
    rw [same]
    exact h.1
  · refine ⟨by simp, ?_, h.2⟩
    rw [same]
    exact h.1

/-! ## Streams -/

/-- What the streams are in every state. -/
structure StreamInv (w : World) : Prop where
  nested : ∀ o, (w.spiders (.nested o)).urlFdw = false ∧ (w.spiders (.nested o)).patternFp = false
  top : ∀ k, w.threads k ≠ [] →
    (w.spiders (.top k)).urlFdw = true ∧ (w.spiders (.top k)).patternFp = true
  stacked : ∀ k, Stacked k (w.threads k)

/-- The streams of a spider stay as they are when another field is stored to. -/
theorem setSpider_streams {r : Ref} {s : Spider} (urlFdw : s.urlFdw = (w.spiders r).urlFdw)
    (patternFp : s.patternFp = (w.spiders r).patternFp) (r' : Ref) :
    ((w.setSpider r s).spiders r').urlFdw = (w.spiders r').urlFdw ∧
      ((w.setSpider r s).spiders r').patternFp = (w.spiders r').patternFp := by
  by_cases own : r' = r
  · subst own
    simp [World.setSpider, urlFdw, patternFp]
  · simp [World.setSpider, own]

/-- **A move keeps the streams, but for those of a new object and the one that it closes.** -/
theorem Move.streams (m : Move files w f act w' fs) (r : Ref) :
    ((w'.spiders r).urlFdw = (w.spiders r).urlFdw ∧
        (w'.spiders r).patternFp = (w.spiders r).patternFp) ∨
      (f.pc = .close ∧ r = f.self ∧ (w'.spiders r).urlFdw = (w.spiders r).urlFdw ∧
        (w'.spiders r).patternFp = false) ∨
      (∃ o, r = .nested o ∧ (w'.spiders r).urlFdw = false ∧ (w'.spiders r).patternFp = false) := by
  cases m with
  | enter at_ => exact .inl (by apply setSpider_streams <;> rfl)
  | setEof at_ => exact .inl (by apply setSpider_streams <;> rfl)
  | clear at_ => exact .inl (by apply setSpider_streams <;> rfl)
  | create ok at_ => exact .inl (by apply setSpider_streams <;> rfl)
  | assign o entry found at_ pc next => exact .inl (by apply setSpider_streams <;> rfl)
  | unknown entry c found at_ =>
    by_cases own : r = .nested w.nestedCnt
    · exact .inr (.inr ⟨_, own, by simp [World.newSpider, World.setSpider, own]⟩)
    · exact .inl (by simp [World.newSpider, World.setSpider, own])
  | close at_ =>
    by_cases own : r = f.self
    · exact .inr (.inl ⟨at_, own, by simp [World.setSpider, own]⟩)
    · exact .inl (by simp [World.setSpider, own])
  | _ => exact .inl ⟨rfl, rfl⟩

theorem StreamInv.move {k : Nat} {rest : List Frame} (inv : StreamInv w)
    (thread : w.threads k = f :: rest) (m : Move files w f act w' fs) :
    StreamInv (w'.setThread k (fs ++ rest)) := by
  have here := inv.stacked k
  rw [thread] at here
  refine ⟨fun o => ?_, fun j busy => ?_, ?_⟩
  · show (w'.spiders (.nested o)).urlFdw = false ∧ (w'.spiders (.nested o)).patternFp = false
    rcases m.streams (.nested o) with ⟨urlFdw, patternFp⟩ | ⟨-, -, urlFdw, patternFp⟩ | ⟨-, -, new⟩
    · rw [urlFdw, patternFp]
      exact inv.nested o
    · rw [urlFdw]
      exact ⟨(inv.nested o).1, patternFp⟩
    · exact new
  · show (w'.spiders (.top j)).urlFdw = true ∧ (w'.spiders (.top j)).patternFp = true
    have was := m.busy thread busy
    rcases m.streams (.top j) with ⟨urlFdw, patternFp⟩ | ⟨at_, self, -⟩ | ⟨o, other, -⟩
    · rw [urlFdw, patternFp]
      exact inv.top j was
    · -- the outermost call has ended, and with it the thread
      obtain ⟨rfl, last⟩ := here.1 j self.symm
      refine absurd ?_ busy
      show Function.update w'.threads j (fs ++ rest) j = []
      rw [Function.update_self, m.ends at_, last]
      rfl
    · cases other
  · refine (Function.forall_update_iff w'.threads Stacked).2 ⟨m.stacked here, fun j _ => ?_⟩
    rw [m.threads]
    exact inv.stacked j

theorem StreamInv.step {move : Option Nat × Act} (inv : StreamInv w)
    (h : Step conf files w move w') : StreamInv w' := by
  cases h with
  | create level inside =>
    refine ⟨fun o => inv.nested o, fun k busy => ?_, ?_⟩
    · change Function.update w.threads w.created _ k ≠ [] at busy
      by_cases own : k = w.created
      · simp [World.create, World.setThread, World.setSpider, own]
      · rw [Function.update_of_ne own] at busy
        have other : Ref.top k ≠ .top w.created := fun h => own (Ref.top.inj h)
        simpa [World.create, World.setThread, World.setSpider, other] using inv.top k busy
    · refine (Function.forall_update_iff w.threads Stacked).2 ⟨?_, fun k _ => inv.stacked k⟩
      exact ⟨fun j same => ⟨(Ref.top.inj same).symm, rfl⟩, trivial⟩
  | list inside => exact ⟨inv.nested, inv.top, inv.stacked⟩
  | move thread m => exact inv.move thread m

variable {spiderCnt : Nat} {sh : Crawl.Shared}

theorem streamInv_reach (h : Reach (step conf files) Any (start spiderCnt sh) w) :
    StreamInv w := by
  refine h.invariant ⟨fun o => ⟨rfl, rfl⟩, fun k busy => absurd rfl busy, fun k => trivial⟩ ?_
  intro w move w' _ inv _ taken
  exact inv.step (step_cases taken)

/-- The streams of a spider that has a call are open if and only if it is a top-level one. -/
theorem StreamInv.opened (inv : StreamInv w) {move : Option Nat × Act} (here : f ∈ acting w move) :
    (w.spiders f.self).urlFdw = f.self.isTop ∧ (w.spiders f.self).patternFp = f.self.isTop := by
  obtain ⟨k, member⟩ := acting_mem here
  have outermost : ∀ {fs : List Frame}, Stacked k fs → f ∈ fs → ∀ j, f.self = .top j → j = k := by
    intro fs stacked member
    induction fs with
    | nil => cases member
    | cons g rest ih =>
      rcases List.mem_cons.1 member with rfl | deeper
      · exact fun j same => (stacked.1 j same).1
      · exact ih stacked.2 deeper
  cases self : f.self with
  | top j =>
    have own := outermost (inv.stacked k) member j self
    exact inv.top j (own ▸ List.ne_nil_of_mem member)
  | nested o => exact inv.nested o

/-- **The streams that a run writes to are open if and only if only its top-level spiders write.** -/
theorem streams_open_iff (acts : List (Option Nat × Act)) :
    Along (step conf files) WritesOpen (start spiderCnt sh) acts ↔
      Along (step conf files) TopWrites (start spiderCnt sh) acts := by
  apply along_congr
  intro w move reached
  have inv := streamInv_reach reached
  refine forall₂_congr fun f here => ?_
  rw [(inv.opened here).1, (inv.opened here).2, Bool.or_eq_true, or_imp]

/-! ## A nested spider that finds a link -/

def linkingEntry : Entry := ⟨.letter 0, some (.letter 1), none⟩

/-- The page of the only record comes to an entry, and the page of the entry has a link. -/
def linkingActs : List (Option Nat × Act) :=
  oneSpider ++ ticks 3 ++ [(some 0, .pool true), (some 0, .tick), (some 0, .page true [])] ++
    ticks 2 ++ [(some 0, .entry linkingEntry)] ++ ticks 3 ++ [(some 0, .call 7)] ++ ticks 3 ++
    [(some 0, .pool true), (some 0, .tick), (some 0, .page true [.letter 1])] ++ ticks 2

theorem linkingActs_runs : (exec (step ⟨0, 1, false⟩ fun _ => some ⟨0, 1, false⟩)
    (start 1 (Crawl.start true [⟨0, .letter 0⟩] 0 []).shared) linkingActs).isSome := by
  decide +kernel

/-- A nested spider appends a URL to a stream that is NULL. -/
theorem writes_null_stream : ¬ ∀ (conf : Crawl.Conf) (files : CString → Option Crawl.Conf)
    (spiderCnt : Nat) (sh : Crawl.Shared) (acts : List (Option Nat × Act)),
    Along (step conf files) WritesOpen (start spiderCnt sh) acts := by
  intro claim
  have opened := (claim ⟨0, 1, false⟩ (fun _ => some ⟨0, 1, false⟩) 1
    (Crawl.start true [⟨0, .letter 0⟩] 0 []).shared
    (linkingActs ++ [(some 0, .tick)])).at_step (Option.some_get linkingActs_runs).symm
  revert opened
  decide +kernel

end SpiderFrame.Calls
