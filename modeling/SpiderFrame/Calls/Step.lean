import SpiderFrame.Calls.Machine

/-!
# What a step of a call can do

A step of a call is one of the moves of `Move`, one for each way through `frameStep`; a step of the
process is a move of the innermost call of a thread, or one of `main` (`step_cases`).
-/

namespace SpiderFrame.Calls
open SpiderFrame.Base SpiderFrame.Queue SpiderFrame.Conf

variable {conf : Crawl.Conf} {files : CString → Option Crawl.Conf} {w w' : World} {f : Frame}
  {act : Act} {fs : List Frame}

def Frame.at_ (f : Frame) (pc : Pc) : Frame := { f with pc := pc }

@[simp] theorem Frame.at_pc (f : Frame) (pc : Pc) : (f.at_ pc).pc = pc := rfl
@[simp] theorem Frame.at_self (f : Frame) (pc : Pc) : (f.at_ pc).self = f.self := rfl
@[simp] theorem Frame.at_stored (f : Frame) (pc : Pc) : (f.at_ pc).stored = f.stored := rfl

/-- A change of the queue: the table, the bytes of `url.txt`, its reader and `line`. -/
def World.setQueue (w : World) (table : UrlTable) (urlTxt : List Byte) (reader : Reader)
    (line : Int) : World :=
  { w with table := table, urlTxt := urlTxt, reader := reader, line := line }

/-- What a step of the call `f` makes of the process, and the calls that take its place. -/
inductive Move (files : CString → Option Crawl.Conf) (w : World) (f : Frame) :
    Act → World → List Frame → Prop
  | enter (at_ : f.pc = .enter) :
    Move files w f .tick (w.setSpider f.self { w.spiders f.self with pool := none }) [f.at_ .take]
  | copy {url : CString} (at_ : f.pc = .take) (starturl : (w.spiders f.self).starturl = some url) :
    Move files w f .tick w [f.at_ .pool]
  | scan (at_ : f.pc = .take) (starturl : (w.spiders f.self).starturl = none) :
    Move files w f .tick (w.sfGlobalScanUrl f).1 [(w.sfGlobalScanUrl f).2]
  | setEof (at_ : f.pc = .sawEof ∨ f.pc = .setEof) :
    Move files w f .tick (w.setSpider f.self { w.spiders f.self with eof := true }) [f.at_ .outer]
  | pool (at_ : f.pc = .pool) : Move files w f .tick (w.destroyPool f.self) [f.at_ .create]
  | create (ok : Bool) (at_ : f.pc = .create) :
    Move files w f (.pool ok) (w.createPool f.self ok) [f.at_ (if ok then .clear else .outer)]
  | clear (at_ : f.pc = .clear) :
    Move files w f .tick (w.setSpider f.self { w.spiders f.self with eof := false })
      [f.at_ .fetch]
  | fetch (ok : Bool) (links : List Url) (at_ : f.pc = .fetch) (pc : Pc)
    (next : pc = .outer ∨ pc = .href links) : Move files w f (.page ok links) w [f.at_ pc]
  | href (links : List Url) (at_ : f.pc = .href links) :
    Move files w f .tick w [f.at_ (.links links)]
  | noLink (at_ : f.pc = .links []) : Move files w f .tick w [f.at_ .rules]
  | link (url : Url) (todo : List Url) (at_ : f.pc = .links (url :: todo)) (pc : Pc)
    (next : pc = .write url todo ∨ pc = .links todo) :
    Move files w f .tick (w.setQueue (urlSection w.table url.str).1 w.urlTxt w.reader w.line)
      [f.at_ pc]
  | write (url : Url) (todo : List Url) (at_ : f.pc = .write url todo)
    (opened : (w.spiders f.self).urlFdw = true) :
    Move files w f .tick
      (w.setQueue w.table (fileSection w.urlTxt (f.level + 1) url.str) w.reader w.line)
      [f.at_ (.links todo)]
  | pattern (at_ : f.pc = .rules) (opened : (w.spiders f.self).patternFp = true) :
    Move files w f .pattern w [f]
  | known (entry : Entry) (o : Nat) (found : Bool) (at_ : f.pc = .rules) :
    Move files w f (.entry entry) w [f.at_ (.assign o entry found)]
  | unknown (entry : Entry) (c : Crawl.Conf) (found : Bool) (at_ : f.pc = .rules) :
    Move files w f (.entry entry) (w.newSpider c) [f.at_ (.assign w.nestedCnt entry found)]
  | done (at_ : f.pc = .rules) : Move files w f .done w [f.at_ .limit]
  | assign (o : Nat) (entry : Entry) (found : Bool) (at_ : f.pc = .assign o entry found) (pc : Pc)
    (next : pc = .call o ∨ pc = .copy o entry.confFn) :
    Move files w f .tick (w.assign o entry) [f.at_ pc]
  | copyName (o : Nat) (confFn : CString) (pool : Nat) (at_ : f.pc = .copy o confFn)
    (own : (w.spiders f.self).pool = some pool) :
    Move files w f .tick w [f.at_ (.insert o confFn pool)]
  | insert (o : Nat) (confFn : CString) (pool : Nat) (at_ : f.pc = .insert o confFn pool) :
    Move files w f .tick (w.enterConf confFn o pool) [f.at_ (.call o)]
  | call (o : Nat) (level : Int) (at_ : f.pc = .call o) :
    Move files w f (.call level) w [⟨.nested o, .enter, level, false⟩, f.at_ .rules]
  | limit (at_ : f.pc = .limit) (pc : Pc) (next : pc = .setEof ∨ pc = .take) :
    Move files w f .tick w [f.at_ pc]
  | outer (at_ : f.pc = .outer) (pc : Pc) (next : pc = .close ∨ pc = .allEof 0) :
    Move files w f .tick w [f.at_ pc]
  | allEof (k : Nat) (at_ : f.pc = .allEof k) (pc : Pc)
    (next : pc = .allEof (k + 1) ∨ pc = .take ∨ pc = .close) : Move files w f .tick w [f.at_ pc]
  | close (at_ : f.pc = .close) :
    Move files w f .tick (w.setSpider f.self { w.spiders f.self with patternFp := false }) []

/-- **Every step of a call is one of the moves.** -/
theorem frameStep_move (h : frameStep files w f act = some (w', fs)) :
    Move files w f act w' fs := by
  unfold frameStep at h
  split at h
  case h_1 at_ => cases h; exact .enter at_
  case h_2 at_ =>
    dsimp only at h
    split at h
    · rename_i starturl
      cases h
      exact .copy at_ starturl
    · rename_i starturl
      cases h
      exact .scan at_ starturl
  case h_3 at_ => cases h; exact .setEof (.inl at_)
  case h_4 at_ => cases h; exact .pool at_
  case h_5 ok at_ => cases h; exact .create ok at_
  case h_6 at_ => cases h; exact .clear at_
  case h_7 ok links at_ => cases h; exact .fetch ok links at_ _ (ite_eq_or_eq _ _ _)
  case h_8 links at_ => cases h; exact .href links at_
  case h_9 at_ => cases h; exact .noLink at_
  case h_10 url todo at_ => cases h; exact .link url todo at_ _ (ite_eq_or_eq _ _ _)
  case h_11 url todo at_ =>
    dsimp only at h
    split at h
    · rename_i opened
      cases h
      exact .write url todo at_ opened
    · cases h
  case h_12 at_ =>
    dsimp only at h
    split at h
    · rename_i opened
      cases h
      exact .pattern at_ opened
    · cases h
  case h_13 entry at_ =>
    unfold World.findSpider at h
    dsimp only at h
    split at h
    · cases h
      exact .known entry _ _ at_
    · rw [Option.map_map] at h
      obtain ⟨c, -, new⟩ := Option.map_eq_some_iff.1 h
      cases new
      exact .unknown entry c _ at_
  case h_14 at_ => cases h; exact .done at_
  case h_15 o entry found at_ =>
    dsimp only at h
    split at h
    · cases h
    · cases h
      exact .assign o entry found at_ _ (ite_eq_or_eq _ _ _)
  case h_16 o confFn at_ =>
    obtain ⟨pool, own, new⟩ := Option.map_eq_some_iff.1 h
    cases new
    exact .copyName o confFn pool at_ own
  case h_17 o confFn pool at_ => cases h; exact .insert o confFn pool at_
  case h_18 o level at_ => cases h; exact .call o level at_
  case h_19 at_ => cases h; exact .limit at_ _ (ite_eq_or_eq _ _ _)
  case h_20 at_ => cases h; exact .setEof (.inr at_)
  case h_21 at_ => cases h; exact .outer at_ _ (ite_eq_or_eq _ _ _)
  case h_22 k at_ =>
    split at h
    · split at h
      · cases h
        exact .allEof k at_ _ ((ite_eq_or_eq _ _ _).imp_right .inl)
      · cases h
    · cases h
      exact .allEof k at_ _ (.inr (.inr rfl))
  case h_23 at_ => cases h; exact .close at_
  case h_24 => cases h

/-- The environment has a say in the step. -/
def Pc.asks : Pc → Bool
  | .create | .fetch | .rules | .call _ => true
  | _ => false

theorem Move.tick (m : Move files w f act w' fs) (own : f.pc.asks = false) : act = .tick := by
  cases m with
  | create _ at_ | fetch _ _ at_ | pattern at_ | known _ _ _ at_ | unknown _ _ _ at_ | done at_
  | call _ _ at_ =>
    rw [at_] at own
    cases own
  | _ => rfl

/-- What the place of a call says about the step that led there: to a flag of `sf_all_spiders_eof`
from the test of the limits or from another flag, to an entry of the rules by reading it. -/
def CameFrom (pc : Pc) (act : Act) : Pc → Prop
  | .allEof _ => pc = .outer ∨ ∃ k, pc = .allEof k
  | .assign _ entry _ => act = .entry entry
  | _ => True

theorem Move.cameFrom (m : Move files w f act w' fs) : ∀ f' ∈ fs, CameFrom f.pc act f'.pc := by
  cases m with
  | close at_ => exact List.forall_mem_nil _
  | call o level at_ =>
    rw [List.forall_mem_cons, List.forall_mem_singleton]
    exact ⟨trivial, trivial⟩
  | create ok at_ =>
    rw [List.forall_mem_singleton]
    cases ok <;> trivial
  | scan at_ starturl =>
    have next : ((w.sfGlobalScanUrl f).2).pc = .sawEof ∨ ((w.sfGlobalScanUrl f).2).pc = .pool :=
      ite_eq_or_eq _ _ _
    rw [List.forall_mem_singleton]
    rcases next with pc | pc <;> rw [pc] <;> trivial
  | outer at_ pc next =>
    rw [List.forall_mem_singleton]
    rcases next with rfl | rfl
    · trivial
    · exact .inl at_
  | allEof k at_ pc next =>
    rw [List.forall_mem_singleton]
    rcases next with rfl | rfl | rfl
    · exact .inr ⟨k, at_⟩
    · trivial
    · trivial
  | fetch ok links at_ pc next | link url todo at_ pc next | assign o entry found at_ pc next
  | limit at_ pc next =>
    rw [List.forall_mem_singleton]
    rcases next with rfl | rfl <;> trivial
  | pattern at_ opened =>
    rw [List.forall_mem_singleton, at_]
    trivial
  | known entry o found at_ | unknown entry c found at_ =>
    rw [List.forall_mem_singleton]
    rfl
  | _ =>
    rw [List.forall_mem_singleton]
    trivial

/-- The threads are the process's to change. -/
theorem Move.threads (m : Move files w f act w' fs) : w'.threads = w.threads := by
  cases m <;> rfl

/-- The innermost call of the thread that moves. -/
def acting (w : World) (move : Option Nat × Act) : Option Frame :=
  move.1.bind fun k => (w.threads k).head?

/-- A step: `main` creates a spider or stores one in `spider_list`, or a call moves. -/
inductive Step (conf : Crawl.Conf) (files : CString → Option Crawl.Conf) (w : World) :
    Option Nat × Act → World → Prop
  | create (level : Int) (inside : w.created < w.spiderCnt) :
    Step conf files w (none, .call level) (w.create conf level)
  | list (inside : w.listed < w.created) :
    Step conf files w (none, .tick) { w with listed := w.listed + 1 }
  | move {k : Nat} {act : Act} {f : Frame} {rest fs : List Frame} {w' : World}
    (thread : w.threads k = f :: rest) (move : Move files w f act w' fs) :
    Step conf files w (some k, act) (w'.setThread k (fs ++ rest))

theorem step_cases {move : Option Nat × Act} (h : step conf files w move = some w') :
    Step conf files w move w' := by
  obtain ⟨actor, act⟩ := move
  unfold step at h
  cases actor with
  | none =>
    unfold mainStep at h
    dsimp only at h
    split at h
    · split at h
      · rename_i inside
        cases h
        exact .create _ inside.2
      · cases h
    · split at h
      · rename_i inside
        cases h
        exact .list inside
      · cases h
    · cases h
  | some k =>
    dsimp only at h
    split at h
    · cases h
    · rename_i f rest thread
      obtain ⟨⟨w₁, fs⟩, taken, new⟩ := Option.map_eq_some_iff.1 h
      cases new
      exact .move thread (frameStep_move taken)

/-- A thread has calls behind a step only if it had some. -/
theorem Move.busy (m : Move files w f act w' fs) {k j : Nat} {rest : List Frame}
    (thread : w.threads k = f :: rest) (busy : (w'.setThread k (fs ++ rest)).threads j ≠ []) :
    w.threads j ≠ [] := by
  change Function.update w'.threads k _ j ≠ [] at busy
  rw [m.threads] at busy
  by_cases own : j = k
  · rw [own, thread]
    exact List.cons_ne_nil _ _
  · rwa [Function.update_of_ne own] at busy

/-- A thread whose innermost call is replaced: of its other calls, and of the other threads, what held
still holds. -/
theorem forall_replaced_iff {β : Type} {P : β → Prop} {g : Nat → List β} {k : Nat} {b : β}
    {rest : List β} (old : ∀ j, ∀ b ∈ g j, P b) (here : g k = b :: rest) (new : List β) :
    (∀ j, ∀ b ∈ Function.update g k (new ++ rest) j, P b) ↔ ∀ b ∈ new, P b := by
  have waiting : ∀ b ∈ rest, P b :=
    fun b member => old k b (here ▸ List.mem_cons_of_mem _ member)
  rw [Function.forall_update_iff g fun _ bs => ∀ b ∈ bs, P b, List.forall_mem_append]
  constructor
  · intro all
    exact all.1.1
  · intro kept
    exact ⟨⟨kept, waiting⟩, fun j _ => old j⟩

/-- A thread that begins with one call. -/
theorem forall_begun_iff {β : Type} {P : β → Prop} {g : Nat → List β} (k : Nat)
    (old : ∀ j, ∀ b ∈ g j, P b) (new : β) :
    (∀ j, ∀ b ∈ Function.update g k [new] j, P b) ↔ P new := by
  rw [Function.forall_update_iff g fun _ bs => ∀ b ∈ bs, P b, List.forall_mem_singleton]
  exact and_iff_left fun j _ => old j

/-- **What holds of the calls that begin, and is kept by moves, holds of every call.** -/
theorem Step.frames {P : Frame → Prop} {move : Option Nat × Act} (h : Step conf files w move w')
    (begins : ∀ k level, P ⟨.top k, .enter, level, false⟩)
    (kept : ∀ f w' fs, f ∈ acting w move → Move files w f move.2 w' fs → P f → ∀ f' ∈ fs, P f')
    (all : ∀ k, ∀ f ∈ w.threads k, P f) : ∀ k, ∀ f ∈ w'.threads k, P f := by
  cases h with
  | create level inside => exact (forall_begun_iff w.created all _).2 (begins w.created level)
  | list inside => exact all
  | @move i act f rest fs w₁ thread m =>
    have here : f ∈ acting w (some i, act) := by simp [acting, thread]
    have own : P f := all i f (by simp [thread])
    rw [← m.threads] at all thread
    exact (forall_replaced_iff all thread fs).2 (kept f w₁ fs here m own)

end SpiderFrame.Calls
