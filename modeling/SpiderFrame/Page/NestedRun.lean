import SpiderFrame.Page.Stream

/-!
# The contract of a nested run

A `new_spider` entry calls `sf_proc_start_spider` on the same stream and the same counter as the
top-level spider. `Meets` says that the call fetches what the entry designates, leaves both
alone and returns. The call takes the next record of `url.txt` when its object has no `starturl`,
never one of the input file; and it returns only when the test of the limits holds, in which its
own `level` has no value and `line` is that of the top level. `nested_contract_iff` says exactly
when the contract is met.
-/

namespace SpiderFrame.Page
open SpiderFrame.Base SpiderFrame.Queue

variable {Re : Type}

/-- The call on the object `o` fetches each of `designated` once, leaves the position and the
counter as they are, and returns. -/
def Meets (env : Env Re) (o : Nat) (designated : List CString) (w : World Re) : Prop :=
  ∃ fuel es w', sfProcStartSpider env fuel (.nested o) w = (es, some ((), w')) ∧
    fetchedAt w.spiderLevel es = designated ∧ w'.reader.pos = w.reader.pos ∧ w'.line = w.line

/-! ## When the contract is met -/

/-- What follows the loops comes to its end. -/
def Leaves (env : Env Re) (fuel : Nat) (conf : Conf Re) (r : Ref) (w : World Re) : Prop :=
  ∃ es w', leaveLoop env fuel conf r w = (es, some ((), w'))

/-- A spider with a `starturl` reports no URLs. -/
theorem leaves_of_starturl {env : Env Re} {fuel : Nat} {conf : Conf Re} {r : Ref} {w : World Re}
    (assigned : (w.spider r).starturl ≠ none) : Leaves env fuel conf r w := by
  refine ⟨[], w, ?_⟩
  rw [leaveLoop, spider_bind, if_neg fun both => assigned both.1]
  rfl

/-- The first round takes what is designated and nothing of `url.txt`, all nested runs that its page
starts keep the stream as well, and the page and what follows the loops come to their end. -/
def StillRound (env : Env Re) (fuel : Nat) (o : Nat) (w : World Re)
    (designated : List CString) : Prop :=
  ∃ es w', FirstRound env fuel (fun o => sfProcStartSpider env fuel (.nested o)) o w designated es
    w' ∧ AllKeep env es ∧ Leaves env fuel (w.nested o).conf (.nested o) w'

section

variable {env : Env Re} {fuel o : Nat} {w : World Re} {designated : List CString}

/-- The call is its loops, between two calls of the printer. -/
theorem meets_iff_loop : Meets env o designated w ↔ ∃ fuel es w',
    callLoop env fuel (fun o => sfProcStartSpider env fuel (.nested o)) o fuel w =
        (es, some ((), w')) ∧
      fetchedAt w.spiderLevel es = designated ∧ w'.reader.pos = w.reader.pos ∧ w'.line = w.line := by
  have brackets : ∀ es : List (Event Re), fetchedAt w.spiderLevel
      (.json .arrayBegin :: (es ++ [.json .arrayEnd])) = fetchedAt w.spiderLevel es := by
    intro es
    rw [fetchedAt, List.filterMap_cons_none rfl, List.filterMap_append]
    exact List.append_nil _
  constructor
  · rintro ⟨fuel, es, w', run, fetched, rpos, line⟩
    cases fuel with
    | zero => cases run
    | succ fuel =>
      obtain ⟨es₁, w₁, loop, rpos₁, line₁, rfl⟩ := sfProcStartSpider_eq_done run
      exact ⟨fuel, es₁, w₁, loop, brackets es₁ ▸ fetched, rpos₁ ▸ rpos, line₁ ▸ line⟩
  · rintro ⟨fuel, es, w', run, fetched, rpos, line⟩
    rw [← spiderBody_apply] at run
    exact ⟨fuel + 1, _, _, sfProcStartSpider_done run, (brackets es).trans fetched, rpos, line⟩

/-- Loops that leave the stream and the counter alone, and fetch what is designated. -/
theorem stillRound_of_loop (ready : Steady true w.spiderLevel w) {n : Nat} {es : List (Event Re)}
    {w' : World Re}
    (run : callLoop env fuel (fun o => sfProcStartSpider env fuel (.nested o)) o (n + 1) w =
      (es, some ((), w')))
    (fetched : fetchedAt w.spiderLevel es = designated) (rpos : w'.reader.pos = w.reader.pos)
    (line : w'.line = w.line) : StopsAtOnce env o w ∧ StillRound env fuel o w designated := by
  have before := nestedSound (w.nested o).conf env fuel w.spiderLevel
  have below := nestedStream env fuel (w.nested o).conf w.spiderLevel
  obtain ⟨stops, urls, es₁, es₂, w₁, first, rpos₁, line₁, leave, rfl⟩ :=
    firstRound_of_loop before ready run rpos line
  have behind := leaveLoop_quiet (first.steady before ready) leave
  rw [fetchedAt_append, behind.1, List.append_nil, first.fetched before ready] at fetched
  have keep := (first.moves below ready).2.2.1 ⟨rpos₁, line₁⟩
  exact ⟨stops, es₁, w₁, fetched ▸ first, keep, es₂, w', leave⟩

theorem loop_of_stillRound (ready : Steady true w.spiderLevel w) (stops : StopsAtOnce env o w)
    (still : StillRound env fuel o w designated) (n : Nat) :
    ∃ es w', callLoop env fuel (fun o => sfProcStartSpider env fuel (.nested o)) o (n + 1) w =
        (es, some ((), w')) ∧
      fetchedAt w.spiderLevel es = designated ∧ w'.reader.pos = w.reader.pos ∧ w'.line = w.line := by
  have before := nestedSound (w.nested o).conf env fuel w.spiderLevel
  have below := nestedStream env fuel (w.nested o).conf w.spiderLevel
  obtain ⟨es₁, w₁, first, keep, es₂, w', leave⟩ := still
  obtain ⟨rpos₁, line₁⟩ := (first.moves below ready).2.2.2 keep
  obtain ⟨nothing, rpos₂, line₂, -⟩ := leaveLoop_quiet (first.steady before ready) leave
  refine ⟨_, _, loop_of_firstRound ready stops n first line₁ leave, ?_, rpos₂.trans rpos₁,
    line₂.trans line₁⟩
  rw [fetchedAt_append, nothing, List.append_nil, first.fetched before ready]

/-- **The contract is met if and only if the call stops at once and its round moves nothing.** -/
theorem meets_iff (going : w.top.eof = false) (inFile : w.reader.pos ≤ w.urlTxt.length) :
    Meets env o designated w ↔
      StopsAtOnce env o w ∧ ∃ fuel, StillRound env (fuel + 1) o w designated := by
  have ready : Steady true w.spiderLevel w := ⟨rfl, inFile, fun _ => going⟩
  rw [meets_iff_loop]
  constructor
  · rintro ⟨fuel, es, w', run, fetched, rpos, line⟩
    cases fuel with
    | zero => cases run
    | succ fuel =>
      obtain ⟨stops, still⟩ := stillRound_of_loop ready run fetched rpos line
      exact ⟨stops, fuel, still⟩
  · rintro ⟨stops, fuel, still⟩
    exact ⟨fuel + 1, loop_of_stillRound ready stops still fuel⟩

/-- **Without a URL the call takes the next record of `url.txt`**, when there is one. -/
theorem not_meets_of_record (going : w.top.eof = false) (inFile : w.reader.pos ≤ w.urlTxt.length)
    (noUrl : (w.nested o).starturl = none) (counts : 0 < (fscanfRecord w.unread).rc) :
    ¬ Meets env o designated w := by
  have moves : ∀ taken, ¬ TakesStill env w (w.nested o) taken := by
    rintro _ (⟨assigned, live, fits⟩ | ⟨-, nothing⟩ | ⟨-, rc, stays, fits⟩)
    · rw [noUrl] at assigned
      cases assigned
    · rw [nothing] at counts
      cases counts
    · rw [rc] at counts
      cases counts
  rw [meets_iff going inFile]
  rintro ⟨-, fuel, es, w', first, -⟩
  obtain ⟨taken, takes⟩ := first.takes
  exact moves taken takes

theorem starts_sound {fuel : Nat} {confFn : CString} {urlTxt : List Byte} {skipline : Int}
    (started : (o, designated, w) ∈ starts (mainRun env fuel confFn urlTxt skipline).1) :
    w.top.eof = false ∧ w.reader.pos ≤ w.urlTxt.length := by
  obtain ⟨e, inside, same⟩ := List.mem_filterMap.1 started
  obtain ⟨file, -, sound⟩ := mainRun_sound inside
  split at same
  · cases same
    exact sound
  · cases same

/-- **In a run with one top-level spider, a nested run meets its contract if and only if it stops
at once and its round moves nothing.** -/
theorem nested_contract_iff (env : Env Re) (fuel : Nat) (confFn : CString) (urlTxt : List Byte)
    (skipline : Int) (o : Nat) (designated : List CString) (w : World Re)
    (started : (o, designated, w) ∈ starts (mainRun env fuel confFn urlTxt skipline).1) :
    Meets env o designated w ↔
      StopsAtOnce env o w ∧ ∃ fuel, StillRound env (fuel + 1) o w designated :=
  meets_iff (starts_sound started).1 (starts_sound started).2

end

/-! ## Two runs -/

/-- A page with one match, which starts a spider with the configuration file `n`. -/
def entrySite (nested : Conf Byte) (urlExp finFn : Option CString) : Env Byte :=
  let rule := { uniqRule [] with
    uniq := none
    repeat_ := 1
    ns := [⟨some (.letter 13), urlExp, finFn⟩] }
  { plainSite (fun fn => some ⟨if fn = .letter 13 then nested else plainConf 2 [rule], []⟩) [97#8]
      with files := fun _ _ => some (Record.encode ⟨0, .letter 2⟩) }

/-- The input file is not read: the call takes the second record of `url.txt`. -/
theorem nested_takes_next_record : ¬ ∀ (env : Env Byte) (fuel : Nat) (confFn : CString)
    (urlTxt : List Byte) (skipline : Int) (o : Nat) (designated : List CString) (w : World Byte),
    (o, designated, w) ∈ starts (mainRun env fuel confFn urlTxt skipline).1 →
      Meets env o designated w := by
  intro claim
  have first : (starts (mainRun (entrySite (plainConf 2 []) none (some (.letter 5))) 20 .empty
      (encodeAll [⟨0, .letter 0⟩, ⟨0, .letter 1⟩]) 0).1).head?.map (fun x =>
        ((x.2.2.nested x.1).starturl, (fscanfRecord x.2.2.unread).rc)) = some (none, 2) := by
    decide +kernel
  obtain ⟨⟨o, designated, w⟩, head, facts⟩ := Option.map_eq_some_iff.1 first
  have started := List.mem_of_mem_head? head
  obtain ⟨noUrl, rc⟩ := Prod.mk.inj facts
  obtain ⟨going, inFile⟩ := starts_sound started
  refine not_meets_of_record going inFile noUrl ?_ (claim _ _ _ _ _ _ _ _ started)
  rw [rc]
  decide

/-- An entry with a URL for a configuration that stops at once. -/
abbrev metSite : Env Byte := entrySite (plainConf 0 []) (some (.letter 20)) none

/-- The page of its nested run. -/
def metPage (w : World Byte) : List (Event Byte) × Option ((Bool × CString) × World Byte) :=
  fetchPage metSite 20 (fun o => sfProcStartSpider metSite 20 (.nested o)) (w.nested 0).conf
    (.nested 0) (metSite.garbageLevel w.clock) (.letter 20)
    ((w.enter 0).renewPool metSite (.nested 0))

/-- The call fetches that URL alone. -/
theorem nested_contract_met : ∃ w, (0, [CString.letter 20], w) ∈
      starts (mainRun metSite 20 .empty (Record.encode ⟨0, .letter 0⟩) 0).1 ∧
    Meets metSite 0 [.letter 20] w := by
  have first : (starts (mainRun metSite 20 .empty (Record.encode ⟨0, .letter 0⟩) 0).1).head?.map
      (fun x => (x.1, x.2.1, (x.2.2.nested 0).starturl, x.2.2.text 0,
        Crawl.limitReached (x.2.2.nested 0).conf.toConf 0 x.2.2.line)) =
      some (0, [.letter 20], some 0, some (.letter 20), true) := by
    decide +kernel
  have onPage : (starts (mainRun metSite 20 .empty (Record.encode ⟨0, .letter 0⟩) 0).1).head?.map
      (fun x => ((starts (metPage x.2.2).1).isEmpty,
        (metPage x.2.2).2.map fun r => (r.1.1, (r.2.nested 0).starturl))) =
      some (true, some (true, some 0)) := by
    decide +kernel
  obtain ⟨⟨o, designated, w⟩, head, facts⟩ := Option.map_eq_some_iff.1 first
  rw [head] at onPage
  simp only [Prod.mk.injEq] at facts
  obtain ⟨rfl, rfl, assigned, live, stops⟩ := facts
  obtain ⟨alone, result⟩ := Prod.mk.inj (Option.some_inj.1 onPage)
  obtain ⟨⟨⟨done, url⟩, w'⟩, run, kept⟩ := Option.map_eq_some_iff.1 result
  obtain ⟨rfl, starturl⟩ := Prod.mk.inj kept
  have started := List.mem_of_mem_head? head
  refine ⟨w, started, ?_⟩
  refine (nested_contract_iff _ _ _ _ _ 0 [.letter 20] w started).2 ⟨stops, 19, _, _,
    .onePage (.starturl assigned live (by decide)) rfl (Prod.ext rfl run), ?_, ?_⟩
  · intro x inside
    have here : x ∈ starts (metPage w).1 := inside
    rw [show starts (metPage w).1 = [] from List.isEmpty_iff.1 alone] at here
    cases here
  · apply leaves_of_starturl
    simpa [World.eofSet, World.setSpider, World.spider] using starturl ▸ Option.some_ne_none 0

end SpiderFrame.Page
