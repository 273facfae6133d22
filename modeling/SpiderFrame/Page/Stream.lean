import SpiderFrame.Page.Round

/-!
# What moves the stream

A nested run reads `url.txt` unless it stops after its first round and takes the URL of that round
elsewhere (`KeepsStream`). A part of a run leaves the stream and the counter alone if and only if
all nested runs that it starts, at whatever depth, keep the stream (`streamMoves`): for the work on
a page that is one more instance of the pass over its functions, and for a nested run it is an
induction on the fuel (`nestedStream`).
-/

namespace SpiderFrame.Page
open SpiderFrame.Base SpiderFrame.Queue

variable {Re : Type}

/-- The nested runs that start in a run, with the data at the call. -/
def starts (es : List (Event Re)) : List (Nat × List CString × World Re) :=
  es.filterMap fun e =>
    match e with
    | .start o designated w => some (o, designated, w)
    | _ => none

/-- The test of the limits holds when the call begins, for whatever `level` happens to hold. -/
def StopsAtOnce (env : Env Re) (o : Nat) (w : World Re) : Prop :=
  Crawl.limitReached (w.nested o).conf.toConf (env.garbageLevel w.clock) w.line = true

/-- The call makes one round and takes nothing from `url.txt`. -/
def KeepsStream (env : Env Re) (o : Nat) (w : World Re) : Prop :=
  StopsAtOnce env o w ∧ ∃ taken, TakesStill env w (w.nested o) taken

/-- All nested runs of a log keep the stream. -/
abbrev AllKeep (env : Env Re) (es : List (Event Re)) : Prop :=
  ∀ x ∈ starts es, KeepsStream env x.1 x.2.2

section

variable {env : Env Re} {es es' : List (Event Re)}

theorem starts_append (es es' : List (Event Re)) : starts (es ++ es') = starts es ++ starts es' :=
  List.filterMap_append

theorem starts_eq_nil (none_ : ∀ e ∈ es, e.isStart = false) : starts es = [] := by
  apply List.filterMap_eq_nil_iff.2
  intro e he
  cases e with
  | start => cases none_ _ he
  | _ => rfl

theorem allKeep_append : AllKeep env (es ++ es') ↔ AllKeep env es ∧ AllKeep env es' := by
  unfold AllKeep
  rw [starts_append]
  exact List.forall_mem_append

theorem allKeep_of_quiet (none_ : ∀ e ∈ es, e.isStart = false) : AllKeep env es := by
  unfold AllKeep
  rw [starts_eq_nil none_]
  exact List.forall_mem_nil _

/-- Nothing goes back, and the stream and the counter stay if and only if all nested runs keep the
stream. -/
def streamMoves (env : Env Re) : Moves (World Re) (Event Re) where
  rel w es w' := w.reader.pos ≤ w'.reader.pos ∧ w.line ≤ w'.line ∧
    (w'.reader.pos = w.reader.pos ∧ w'.line = w.line ↔ AllKeep env es)
  refl _ := ⟨le_refl _, le_refl _, iff_of_true ⟨rfl, rfl⟩ (List.forall_mem_nil _)⟩
  trans h h' := by
    obtain ⟨rpos, line, same⟩ := h
    obtain ⟨rpos', line', same'⟩ := h'
    refine ⟨rpos.trans rpos', line.trans line', ?_⟩
    rw [allKeep_append, ← same, ← same']
    constructor
    · rintro ⟨rpos₂, line₂⟩
      omega
    · rintro ⟨⟨rpos₁, line₁⟩, rpos₂, line₂⟩
      exact ⟨rpos₂.trans rpos₁, line₂.trans line₁⟩

instance : AllowsQuiet (streamMoves env) where
  quiet rpos line none_ := ⟨rpos.ge, line.ge, iff_of_true ⟨rpos, line⟩ (allKeep_of_quiet none_)⟩

end

/-! ## The first round -/

/-- The data at the first round of the loop. -/
def World.enter (w : World Re) (o : Nat) : World Re :=
  { w.setSpider { w.nested o with pool := none } (.nested o) with clock := w.clock + 1 }

/-- A first round that takes nothing from `url.txt`: the pages it fetches, what it logs and the data
behind it. -/
inductive FirstRound (env : Env Re) (fuel : Nat) (start : Nat → Run Re Unit) (o : Nat)
    (w : World Re) : List CString → List (Event Re) → World Re → Prop
  | atEnd (takes : TakesStill env w (w.nested o) none) :
      FirstRound env fuel start o w [] [] ((w.enter o).scan.eofSet (.nested o))
  | noPool {url : CString} (takes : TakesStill env w (w.nested o) (some url))
      (refused : env.pool (w.clock + 1) = false) :
      FirstRound env fuel start o w [] [] ((w.enter o).renewPool env (.nested o))
  | onePage {url url' : CString} {done : Bool} {es : List (Event Re)} {w' : World Re}
      (takes : TakesStill env w (w.nested o) (some url)) (pooled : env.pool (w.clock + 1) = true)
      (page : fetchPage env fuel start (w.nested o).conf (.nested o) (env.garbageLevel w.clock) url
        ((w.enter o).renewPool env (.nested o)) = (es, some ((done, url'), w'))) :
      FirstRound env fuel start o w [url] es (if done then w'.eofSet (.nested o) else w')

section

variable {env : Env Re} {fuel : Nat} {start : Nat → Run Re Unit} {o : Nat} {d : Int}
  {w w' w₁ : World Re} {urls : List CString} {es es₁ es₂ : List (Event Re)}

theorem Steady.enter {nested : Bool} {w : World Re} (h : Steady nested d w) (o : Nat) :
    Steady nested d (w.enter o) := ⟨h.level, h.inFile, h.going⟩

theorem enter_spider (w : World Re) (o : Nat) :
    (w.enter o).spider (.nested o) = { w.nested o with pool := none } := by
  simp [World.enter, World.setSpider, World.spider]

/-- What is taken depends on the rest of the stream, the strings and `starturl`. -/
theorem TakesStill.congr {w w' : World Re} {s s' : Spider Re} {taken : Option CString}
    (h : TakesStill env w s taken) (unread : w'.unread = w.unread)
    (text : ∀ p, w'.text p = w.text p) (starturl : s'.starturl = s.starturl) :
    TakesStill env w' s' taken := by
  cases h with
  | starturl assigned live fits =>
    exact .starturl (starturl.trans assigned) ((text _).trans live) fits
  | atEnd noUrl nothing => exact .atEnd (starturl.trans noUrl) (unread.trans nothing)
  | noNumber noUrl rc stays fits =>
    refine .noNumber (starturl.trans noUrl) ?_ ?_ fits
    · rw [unread, rc]
    · rw [unread, stays]

theorem takesStill_enter {taken : Option CString} :
    TakesStill env (w.enter o) ((w.enter o).spider (.nested o)) taken ↔
      TakesStill env w (w.nested o) taken := by
  rw [enter_spider]
  exact ⟨fun h => h.congr rfl (fun _ => rfl) rfl, fun h => h.congr rfl (fun _ => rfl) rfl⟩

theorem eofSet_kept (done : Bool) (w : World Re) (r : Ref) :
    (if done then w.eofSet r else w).reader.pos = w.reader.pos ∧
      (if done then w.eofSet r else w).line = w.line := by
  cases done with
  | false => exact ⟨rfl, rfl⟩
  | true => exact ⟨setSpider_rpos _ _ _, setSpider_line _ _ _⟩

/-- The work on the first page leaves the stream alone if and only if its nested runs do. -/
theorem firstPage_moves (below : NestedSound (streamMoves env) (w.nested o).conf d start)
    (ready : Steady true d w) {level : Int} {url : CString} {result : Bool × CString}
    (page : fetchPage env fuel start (w.nested o).conf (.nested o) level url
      ((w.enter o).renewPool env (.nested o)) = (es, some (result, w'))) :
    (streamMoves env).rel w es w' := by
  have entered := (ready.enter o).renewPool env (.nested o)
  have work := emits_fetchPage (r := .nested o) below env fuel (fun _ => rfl) level url
  exact (work.done entered page).2.1

theorem moves_eofSet (moves : (streamMoves env).rel w es w') (done : Bool) (r : Ref) :
    (streamMoves env).rel w es (if done then w'.eofSet r else w') := by
  have ends := eofSet_kept done w' r
  rw [← List.append_nil es]
  exact (streamMoves env).trans moves (silent_move ends.1 ends.2)

/-- And so does the whole round. -/
theorem FirstRound.moves (below : NestedSound (streamMoves env) (w.nested o).conf d start)
    (ready : Steady true d w) (first : FirstRound env fuel start o w urls es w₁) :
    (streamMoves env).rel w es w₁ := by
  cases first with
  | atEnd takes =>
    have ends := (takesStill_enter.2 takes).kept (ready.enter o).inFile
    exact silent_move ends.1 ends.2
  | noPool => exact silent_move rfl rfl
  | onePage takes pooled page => exact moves_eofSet (firstPage_moves below ready page) _ _

/-- The pages of the first round are what it fetches at its level. -/
theorem FirstRound.fetched (below : NestedSound onward (w.nested o).conf d start)
    (ready : Steady true d w) (first : FirstRound env fuel start o w urls es w₁) :
    fetchedAt d es = urls := by
  cases first with
  | atEnd => rfl
  | noPool => rfl
  | onePage takes pooled page =>
    exact fetchPage_fetched below ((ready.enter o).renewPool env _) page

theorem Steady.eofSet {w : World Re} (h : Steady true d w) (o : Nat) :
    Steady true d (w.eofSet (.nested o)) := h.later (.setSpider fun top => nomatch top)

theorem FirstRound.steady (below : NestedSound onward (w.nested o).conf d start)
    (ready : Steady true d w) (first : FirstRound env fuel start o w urls es w₁) :
    Steady true d w₁ := by
  cases first with
  | atEnd => exact (ready.enter o).scan.eofSet o
  | noPool => exact (ready.enter o).renewPool env _
  | @onePage url url' done es w' takes pooled page =>
    have work := fetchPage_onward below ((ready.enter o).renewPool env _) page
    cases done with
    | false => exact work.steady
    | true => exact work.steady.eofSet o

theorem FirstRound.takes (first : FirstRound env fuel start o w urls es w₁) :
    ∃ taken, TakesStill env w (w.nested o) taken := by
  cases first with
  | atEnd takes => exact ⟨_, takes⟩
  | noPool takes => exact ⟨_, takes⟩
  | onePage takes => exact ⟨_, takes⟩

/-- A call of `nextUrl` finds one thing. -/
theorem Next.unique {r : Ref} {level : Int} {url : CString} {next next' : Option (Int × CString)}
    (h : Next r level url w next w₁) (h' : Next r level url w next' w') :
    next = next' ∧ w₁ = w' := by
  have same := (nextUrl_apply h).symm.trans (nextUrl_apply h')
  simpa using same

/-- The same for any round that begins so, which leaves the level alone. -/
theorem Round.moves {again : Bool} {lv : Int} {taken : Option CString}
    (below : NestedSound (streamMoves env) (w.nested o).conf d start) (ready : Steady true d w)
    (takes : TakesStill env w (w.nested o) taken)
    (round : Round env fuel start (w.nested o).conf (.nested o) (env.garbageLevel w.clock)
      env.garbageUrl (w.enter o) again lv es w₁) :
    (streamMoves env).rel w es w₁ := by
  have next := (takesStill_enter.2 takes).next (ready.enter o).inFile (env.garbageLevel w.clock)
  cases taken with
  | none =>
    have ends := (takesStill_enter.2 takes).kept (ready.enter o).inFile
    cases round with
    | atEnd found =>
      obtain ⟨-, rfl⟩ := found.unique next
      exact silent_move ends.1 ends.2
    | noPool found | page found | goesOn found => cases (found.unique next).1
  | some url =>
    cases round with
    | atEnd found => cases (found.unique next).1
    | noPool found =>
      obtain ⟨-, rfl⟩ := found.unique next
      exact silent_move rfl rfl
    | page found pooled fetch =>
      obtain ⟨-, rfl⟩ := found.unique next
      exact moves_eofSet (firstPage_moves below ready fetch) _ _
    | goesOn found fetch going quiet =>
      obtain ⟨-, rfl⟩ := found.unique next
      exact (streamMoves env).trans (firstPage_moves below ready fetch) (stays quiet _)

/-! ## The call -/

/-- The loops of a call on the object `o`. -/
abbrev callLoop (env : Env Re) (fuel : Nat) (start : Nat → Run Re Unit) (o n : Nat)
    (w : World Re) : List (Event Re) × Option (Unit × World Re) :=
  spiderLoop env fuel start (w.nested o).conf (.nested o) n (env.garbageLevel w.clock)
    env.garbageUrl (w.enter o)

/-- Loops that leave the stream and the counter alone are one round and what follows it. -/
theorem firstRound_of_loop (below : NestedSound onward (w.nested o).conf d start)
    (ready : Steady true d w) {n : Nat}
    (run : callLoop env fuel start o (n + 1) w = (es, some ((), w')))
    (rpos : w'.reader.pos = w.reader.pos) (line : w'.line = w.line) : StopsAtOnce env o w ∧ ∃ urls es₁ es₂ w₁,
      FirstRound env fuel start o w urls es₁ w₁ ∧ w₁.reader.pos = w.reader.pos ∧ w₁.line = w.line ∧
      leaveLoop env fuel (w.nested o).conf (.nested o) w₁ = (es₂, some ((), w')) ∧
      es = es₁ ++ es₂ := by
  have entered := ready.enter o
  obtain ⟨limit, es₁, es₂, w₁, round, rpos₁, line₁, leave, rfl⟩ :=
    spiderLoop_still below entered run rpos line
  refine ⟨limit, ?_⟩
  cases round with
  | atEnd next =>
    obtain ⟨taken, rfl, takes, none_⟩ := next.still entered.inFile rpos₁ line₁
    cases taken with
    | some u => cases none_
    | none =>
      exact ⟨_, _, _, _, .atEnd (takesStill_enter.1 takes), rpos₁, line₁, leave, rfl⟩
  | noPool next refused =>
    obtain ⟨taken, rfl, takes, some_⟩ := next.still entered.inFile rpos₁ line₁
    cases taken with
    | none => cases some_
    | some u =>
      exact ⟨_, _, _, _, .noPool (takesStill_enter.1 takes) refused, rpos₁, line₁, leave, rfl⟩
  | @page lv u u' done w₂ w₃ es next pooled fetch _ =>
    have ends := eofSet_kept done w₃ (.nested o)
    have before := next.onward entered
    have later := fetchPage_onward below (before.steady.renewPool env _) fetch
    have still : w₂.reader.pos = w.reader.pos ∧ w₂.line = w.line := by
      have rposUp : w.reader.pos ≤ w₂.reader.pos := before.rpos
      have lineUp : w.line ≤ w₂.line := before.line
      have rposOn : w₂.reader.pos ≤ w₃.reader.pos := later.rpos
      have lineOn : w₂.line ≤ w₃.line := later.line
      have rpos₃ : w₃.reader.pos = w.reader.pos := ends.1.symm.trans rpos₁
      have line₃ : w₃.line = w.line := ends.2.symm.trans line₁
      constructor <;> omega
    obtain ⟨taken, rfl, takes, some_⟩ := next.still entered.inFile still.1 still.2
    cases taken with
    | none => cases some_
    | some u =>
      cases some_
      exact ⟨_, _, _, _, .onePage (takesStill_enter.1 takes) pooled fetch, rpos₁, line₁, leave,
        rfl⟩

/-- A first round at the limits, and what follows it, are the loops. -/
theorem loop_of_firstRound (ready : Steady true d w) (stops : StopsAtOnce env o w) (n : Nat)
    (first : FirstRound env fuel start o w urls es₁ w₁) (line : w₁.line = w.line)
    (leave : leaveLoop env fuel (w.nested o).conf (.nested o) w₁ = (es₂, some ((), w'))) :
    callLoop env fuel start o (n + 1) w = (es₁ ++ es₂, some ((), w')) := by
  have limit : Crawl.limitReached (w.nested o).conf.toConf (env.garbageLevel w.clock) w₁.line =
      true := line ▸ stops
  have next : ∀ {taken}, TakesStill env w (w.nested o) taken →
      Next (.nested o) (env.garbageLevel w.clock) env.garbageUrl (w.enter o)
        (taken.map (env.garbageLevel w.clock, ·)) ((w.enter o).taken taken) :=
    fun takes => (takesStill_enter.2 takes).next (ready.enter o).inFile _
  have round : Round env fuel start (w.nested o).conf (.nested o) (env.garbageLevel w.clock)
      env.garbageUrl (w.enter o) false (env.garbageLevel w.clock) es₁ w₁ := by
    cases first with
    | atEnd takes => exact .atEnd (next takes)
    | noPool takes refused => exact .noPool (next takes) refused
    | @onePage url url' done es w₂ takes pooled page =>
      have ends := eofSet_kept done w₂ (.nested o)
      exact .page (next takes) pooled page fun _ => ends.2 ▸ limit
  exact spiderLoop_leave n round limit leave

/-- **A call leaves the stream and the counter alone if and only if it and all nested runs below it
keep the stream.** -/
theorem callLoop_moves (before : NestedSound onward (w.nested o).conf d start)
    (below : NestedSound (streamMoves env) (w.nested o).conf d start) (ready : Steady true d w)
    {n : Nat} (run : callLoop env fuel start o n w = (es, some ((), w'))) :
    w'.reader.pos = w.reader.pos ∧ w'.line = w.line ↔ KeepsStream env o w ∧ AllKeep env es := by
  cases n with
  | zero => cases run
  | succ n =>
    constructor
    · rintro ⟨rpos, line⟩
      obtain ⟨stops, urls, es₁, es₂, w₁, first, rpos₁, line₁, leave, rfl⟩ :=
        firstRound_of_loop before ready run rpos line
      have behind := leaveLoop_quiet (first.steady before ready) leave
      refine ⟨⟨stops, first.takes⟩, allKeep_append.2 ⟨?_, allKeep_of_quiet behind.2.2.2⟩⟩
      exact (first.moves below ready).2.2.1 ⟨rpos₁, line₁⟩
    · rintro ⟨⟨stops, taken, takes⟩, all⟩
      obtain ⟨again, lv, u, w₁, es₁, es₂, inner, after, rfl⟩ := spiderLoop_done run
      have up := innerRound_onward before (ready.enter o) inner
      have round := innerRound_done inner
      obtain ⟨rpos₁, line₁⟩ := (round.moves below ready takes).2.2.2 (allKeep_append.1 all).1
      cases after with
      | leaves ends limit leave =>
        obtain ⟨-, rpos₂, line₂, -⟩ := leaveLoop_quiet up.steady leave
        exact ⟨rpos₂.trans rpos₁, line₂.trans line₁⟩
      | seenEnd eof =>
        rw [up.steady.going rfl] at eof
        cases eof
      | goesOn under loop =>
        have same := round.sameLevel before (ready.enter o)
        obtain rfl := same.resolve_right (show ¬ w.line < w₁.line by omega)
        rw [line₁] at under
        exact absurd stops (Bool.eq_false_iff.1 under)

/-! ## Nested runs -/

theorem startNested_done {env' : Env Re} {fuel' : Nat} {ns : NewSpider} {url : Option CString}
    (run : startNested env' fuel' start o ns url w = (es, some ((), w'))) :
    ∃ designated es', start o w = (es', some ((), w')) ∧ es = .start o designated w :: es' := by
  rw [startNested, Prog.get_bind] at run
  obtain ⟨es₁, _, w₁, es₂, logged, call, rfl⟩ := Prog.bind_eq_done run
  cases logged
  exact ⟨_, es₂, call, rfl⟩

end

theorem spiderBody_apply (env : Env Re) (fuel : Nat) (o : Nat) (w : World Re) :
    spiderBody env fuel (w.spider (.nested o)).conf (.nested o) w =
      callLoop env fuel (fun o => sfProcStartSpider env fuel (.nested o)) o fuel w := by
  rw [spiderBody, spiderRun, Prog.bind_silent (show update _ _ w = ([], some ((), _)) from rfl)]
  exact Prog.bind_silent rfl

/-- A call that comes to its end is its loops, between two calls of the printer. -/
theorem sfProcStartSpider_eq_done {env : Env Re} {fuel o : Nat} {w w' : World Re}
    {es : List (Event Re)}
    (run : sfProcStartSpider env (fuel + 1) (.nested o) w = (es, some ((), w'))) :
    ∃ es₁ w₁, callLoop env fuel (fun o => sfProcStartSpider env fuel (.nested o)) o fuel w =
        (es₁, some ((), w₁)) ∧ w'.reader.pos = w₁.reader.pos ∧ w'.line = w₁.line ∧
      es = .json .arrayBegin :: (es₁ ++ [.json .arrayEnd]) := by
  cases body : spiderBody env fuel (w.spider (.nested o)).conf (.nested o) w with
  | mk es₁ result =>
    cases result with
    | none =>
      rw [sfProcStartSpider_halt body] at run
      cases run
    | some result =>
      obtain ⟨⟨⟩, w₁⟩ := result
      rw [sfProcStartSpider_done body] at run
      cases run
      rw [spiderBody_apply] at body
      exact ⟨es₁, w₁, body, setSpider_rpos _ _ _, setSpider_line _ _ _, rfl⟩

theorem allKeep_start {env : Env Re} {o : Nat} {designated : List CString} {w : World Re}
    {es : List (Event Re)} :
    AllKeep env (.start o designated w :: es) ↔ KeepsStream env o w ∧ AllKeep env es :=
  List.forall_mem_cons

theorem allKeep_brackets {env : Env Re} {es : List (Event Re)} :
    AllKeep env (.json .arrayBegin :: (es ++ [.json .arrayEnd])) ↔ AllKeep env es := by
  change AllKeep env (es ++ [.json .arrayEnd]) ↔ AllKeep env es
  rw [allKeep_append]
  exact and_iff_left (allKeep_of_quiet fun e he => List.mem_singleton.1 he ▸ rfl)

theorem nestedStream_of {env : Env Re} {conf : Conf Re} {d : Int} {start : Nat → Run Re Unit}
    (sound : NestedSound onward conf d start)
    (call : ∀ {o w es w'}, Steady true (d + 1) w → start o w = (es, some ((), w')) →
      (w'.reader.pos = w.reader.pos ∧ w'.line = w.line ↔ KeepsStream env o w ∧ AllKeep env es)) :
    NestedSound (streamMoves env) conf d start := by
  intro env' fuel' o ns url w ready
  have all := sound env' fuel' o ns url w ready
  cases run : startNested env' fuel' start o ns url w with
  | mk es result =>
    rw [run] at all
    cases result with
    | none => exact all
    | some result =>
      obtain ⟨word, ⟨rpos, line⟩, steady, -⟩ := all
      obtain ⟨designated, es', called, rfl⟩ := startNested_done run
      exact ⟨word, ⟨rpos, line, (call ready called).trans allKeep_start.symm⟩, steady, trivial⟩

/-- **A nested run leaves the stream and the counter alone if and only if it and all nested runs
below it keep the stream.** -/
theorem nestedStream (env : Env Re) (fuel : Nat) : ∀ (conf : Conf Re) (d : Int),
    NestedSound (streamMoves env) conf d fun o => sfProcStartSpider env fuel (.nested o) := by
  induction fuel with
  | zero => exact fun conf d => nestedStream_of (nestedSound conf env 0 d) fun _ run => nomatch run
  | succ fuel ih =>
    intro conf d
    refine nestedStream_of (nestedSound conf env (fuel + 1) d) fun ready run => ?_
    obtain ⟨es₁, w₁, loop, rpos, line, rfl⟩ := sfProcStartSpider_eq_done run
    rw [rpos, line, allKeep_brackets]
    exact callLoop_moves (nestedSound _ env fuel _) (ih _ _) ready loop

end SpiderFrame.Page
