import SpiderFrame.Json.Trees
import SpiderFrame.Page.JsonText
import SpiderFrame.Page.Round

/-!
# The report on the fetched URLs (`main.c`)

With `url_feedback` the loop of `sf_proc_start_spider` prints an object for each record that it
fetches, named by how the fetch came out. Without policies nothing else is printed up to the test
that ends the loops, so the text decodes to these objects (`toStop_decodes`). For a failed fetch the
key of the inner object is printed with the length of `fail_url`, so the report is the right one if
and only if no fetch failed (`feedback_decodes_iff`).
-/

namespace SpiderFrame.Page
open SpiderFrame.Base SpiderFrame.Queue SpiderFrame.Json
open SpiderFrame.Base.Json (Tree decode)

variable {Re : Type}

/-- A record that was fetched, and whether the fetch succeeded. -/
structure Visit where
  url : CString
  ok : Bool
  deriving DecidableEq

/-- An object with the key `name`, for an array of one object in which `key` is the URL. -/
def reportTree (name key : List Byte) (url : CString) : Tree :=
  .obj [(name, .arr [.obj [(key, .str url.bytes)]])]

/-- The report on a fetch. -/
def Visit.report (f : Visit) : Tree :=
  reportTree (if f.ok then successUrl else failUrl) urlKey f.url

/-- What is printed for it. -/
def Visit.printed (env : Env Re) (f : Visit) : Tree :=
  if f.ok then reportTree successUrl urlKey f.url
  else reportTree failUrl (urlKey ++ 0#8 :: env.beyond) f.url

/-! ## A run up to the stop test -/

/-- The first half of `innerRound`, up to the answer of `sf_curl_url`. -/
def fetchOfRound (env : Env Re) (fuel : Nat) (conf : Conf Re) (r : Ref) (level : Int)
    (url : CString) : Run Re (Option Visit) := do
  let next ← nextUrl r level url
  match next with
  | none => pure none
  | some (_, url) => do
    let pooled ← newPool env r
    if pooled then do
      setEof r false
      let suffixed ← withSuffix fuel r conf.urlSuffix url
      let page ← sfCurlUrl env fuel r suffixed
      pure (some ⟨url, page.ok⟩)
    else pure none

/-- The record that a round fetches, if it fetches one. -/
def fetchedIn (env : Env Re) (fuel : Nat) (conf : Conf Re) (r : Ref) (level : Int) (url : CString)
    (w : World Re) : Option Visit :=
  (fetchOfRound env fuel conf r level url w).2.bind (·.1)

/-- Both loops, up to the test that ends them: the records fetched, and the level. -/
def loopsToStop (env : Env Re) (fuel : Nat) (start : Nat → Run Re Unit) (conf : Conf Re)
    (r : Ref) : Nat → Int → CString → Run Re (List Visit × Int)
  | 0, _, _ => Prog.halt
  | n + 1, level, url => do
    let w ← Prog.get
    let fetched := (fetchedIn env fuel conf r level url w).toList
    let (again, level, url) ← innerRound env fuel start conf r level url
    let w ← Prog.get
    if again || !(Crawl.limitReached conf.toConf level w.line || w.top.eof) then do
      let (more, level) ← loopsToStop env fuel start conf r n level url
      pure (fetched ++ more, level)
    else pure (fetched, level)

/-- What follows the loops. -/
def behindLoops (env : Env Re) (fuel : Nat) (conf : Conf Re) (r : Ref) (level : Int) :
    Run Re Unit := do
  let w ← Prog.get
  if Crawl.limitReached conf.toConf level w.line then leaveLoop env fuel conf r else pure ()

/-- `sf_proc_start_spider(s)` up to that test. -/
def startToStop (env : Env Re) (fuel : Nat) (start : Nat → Run Re Unit) (conf : Conf Re) (r : Ref) :
    Run Re (List Visit × Int) := do
  json .arrayBegin
  update r fun s => { s with pool := none }
  let level ← outside env.garbageLevel
  loopsToStop env fuel start conf r fuel level env.garbageUrl

/-- A run with one top-level spider, up to the test that ends its loops: what has happened, and the
records fetched. -/
def runToStop (env : Env Re) (fuel : Nat) (confFn : CString) (urlTxt : List Byte)
    (skipline : Int) : Option (List (Event Re) × List Visit) := do
  let w ← initWorld env (fuel + 1) confFn urlTxt skipline
  let run := startToStop env fuel (fun o => sfProcStartSpider env fuel (.nested o)) w.top.conf .top w
  run.2.map fun x => (run.1, x.1.1)

/-- The loops of a spider are the loops up to the test and what follows them. -/
theorem spiderLoop_toStop (env : Env Re) (fuel : Nat) (start : Nat → Run Re Unit) (conf : Conf Re)
    (r : Ref) (n : Nat) : ∀ level url,
    spiderLoop env fuel start conf r n level url =
      loopsToStop env fuel start conf r n level url >>= fun x => behindLoops env fuel conf r x.2 := by
  induction n with
  | zero =>
    intro level url
    rfl
  | succ n ih =>
    intro level url
    funext w
    unfold loopsToStop
    rw [Prog.bind_assoc, Prog.get_bind, Prog.bind_assoc]
    apply Prog.bind_congr
    intro es x w' run
    obtain ⟨again, level, url⟩ := x
    dsimp only
    rw [Prog.bind_assoc, Prog.get_bind]
    -- what the next rounds fetch is put behind what this one has fetched
    have goOn : ∀ fetched, spiderLoop env fuel start conf r n level url w' =
        ((loopsToStop env fuel start conf r n level url >>= fun x =>
          pure (fetched ++ x.1, x.2)) >>= fun x => behindLoops env fuel conf r x.2) w' := by
      intro fetched
      rw [Prog.bind_assoc, ih]
      apply Prog.bind_congr
      intro es x w' _
      exact (Prog.pure_bind _ _ _).symm
    cases again with
    | true => exact goOn _
    | false =>
      have test := outerTest_apply env fuel conf r level
        (spiderLoop env fuel start conf r n level url) w'
      rw [if_neg Bool.false_ne_true, test]
      by_cases limit : Crawl.limitReached conf.toConf level w'.line = true
      · rw [if_pos limit, limit, Bool.true_or, Bool.not_true, Bool.or_false,
          if_neg Bool.false_ne_true, Prog.pure_bind, behindLoops, Prog.get_bind, if_pos limit]
      · rw [if_neg limit, Bool.eq_false_iff.2 limit, Bool.false_or, Bool.false_or]
        by_cases eof : w'.top.eof = true
        · rw [if_pos eof, eof, Bool.not_true, if_neg Bool.false_ne_true, Prog.pure_bind,
            behindLoops, Prog.get_bind, if_neg limit]
          rfl
        · rw [if_neg eof, Bool.eq_false_iff.2 eof, Bool.not_false, if_pos rfl]
          exact goOn _

/-! ## What is logged -/

/-- `sf_json_free_print_buf`. -/
def Event.isFree : Event Re → Bool
  | .jsonFree => true
  | _ => false

/-- The calls of the printer in a log that never clears the buffer, and the URLs fetched at the top
level. -/
structure Logs (es : List (Event Re)) (ops : List Op) (urls : List CString) : Prop where
  calls : es.filterMap Event.op = ops
  kept : ∀ e ∈ es, e.isFree = false
  fetched : fetchedAt 0 es = urls

theorem Logs.nil : Logs ([] : List (Event Re)) [] [] := ⟨rfl, List.forall_mem_nil _, rfl⟩

theorem Logs.append {es es' : List (Event Re)} {ops ops' : List Op} {urls urls' : List CString}
    (h : Logs es ops urls) (h' : Logs es' ops' urls') :
    Logs (es ++ es') (ops ++ ops') (urls ++ urls') := by
  refine ⟨?_, ?_, ?_⟩
  · rw [List.filterMap_append, h.calls, h'.calls]
  · intro e he
    exact (List.mem_append.1 he).elim (h.kept e) (h'.kept e)
  · rw [fetchedAt_append, h.fetched, h'.fetched]

theorem logs_json (ops : List Op) : Logs (ops.map .json : List (Event Re)) ops [] := by
  refine ⟨ops_json ops, ?_, fetchedAt_nil_of ?_⟩
  all_goals
    intro e he
    obtain ⟨op, -, rfl⟩ := List.mem_map.1 he
    rfl

/-- The steps on the buffer are the chunks of the calls. -/
theorem Logs.bufSteps {es : List (Event Re)} : ∀ {ops : List Op} {urls : List CString}
    {p : Printer}, Logs es ops urls → Page.bufSteps p es = (printAll p ops).1.map some := by
  induction es with
  | nil =>
    intro ops urls p h
    rw [← h.calls]
    rfl
  | cons e es ih =>
    intro ops urls p h
    have rest : Logs es (es.filterMap Event.op) (fetchedAt 0 es) :=
      ⟨rfl, fun e he => h.kept e (List.mem_cons_of_mem _ he), rfl⟩
    rw [← h.calls]
    cases e with
    | json op =>
      rw [Page.bufSteps, ih rest, ← List.map_append]
      rfl
    | jsonFree => cases h.kept _ List.mem_cons_self
    | _ => exact ih rest

/-- **Without a refusal the buffer holds the text of the calls.** -/
theorem Logs.text {es : List (Event Re)} {ops : List Op} {urls : List CString}
    (h : Logs es ops urls) (taken : AllTaken [] (Page.bufSteps printInit es)) :
    bufText (Page.bufSteps printInit es) = textOf printInit ops := by
  rw [h.bufSteps] at taken ⊢
  rw [bufText_chunks, bufferAfter_whole (allTaken_chunks taken)]
  rfl

section

variable {env : Env Re} {fuel : Nat} {start : Nat → Run Re Unit} {conf : Conf Re} {nested : Bool}
  {d level : Int} {url : CString} {w w' : World Re} {es : List (Event Re)}

theorem feedback_apply (name key : List Byte) (url : CString) (w : World Re) :
    feedback name key url w =
      ((callsOf (reportTree name key url)).map .json, some ((), w)) := by
  rw [feedback, each_json]
  rfl

/-- Without policies the rest of a page prints its report and no more. -/
theorem workPage_logs {backupUrl : CString} {done : Bool} (reports : conf.urlFeedback = true)
    (noPolicy : conf.policy = []) (ready : Steady true d w)
    (run : workPage env fuel start conf .top level backupUrl url w = (es, some (done, w'))) :
    ∃ page w₁, sfCurlUrl env fuel .top url w = ([], some (page, w₁)) ∧
      Logs es (callsOf (Visit.printed env ⟨backupUrl, page.ok⟩)) [] := by
  obtain ⟨es₁, page, w₁, es₂, curl, rest, rfl⟩ := Prog.bind_eq_done run
  obtain ⟨rfl, steady⟩ := silent (emits_sfCurlUrl env fuel .top url) ready curl
  refine ⟨page, w₁, curl, ?_⟩
  rw [List.nil_append]
  unfold Visit.printed
  cases ok : page.ok with
  | false =>
    rw [ok, reports, Bool.not_false, Bool.true_and, if_pos rfl] at rest
    obtain ⟨_, _, w₂, _, printed, ends, rfl⟩ := Prog.bind_eq_done rest
    rw [feedback_apply] at printed
    cases printed
    cases ends
    rw [List.append_nil]
    exact logs_json _
  | true =>
    rw [ok, Bool.not_true, Bool.false_and, if_neg Bool.false_ne_true, reportSuccess, reports,
      if_pos rfl] at rest
    obtain ⟨_, _, w₂, _, printed, links, rfl⟩ := Prog.bind_eq_done rest
    rw [feedback_apply] at printed
    cases printed
    obtain ⟨es₃, _, w₃, _, queued, policies, rfl⟩ := Prog.bind_eq_done links
    obtain ⟨rfl, -⟩ := silent (emits_hrefLoop env .top _ _ fuel _ _) steady queued
    obtain ⟨es₄, _, w₄, _, loop, ends, rfl⟩ := Prog.bind_eq_done policies
    rw [noPolicy] at loop
    cases loop
    cases ends
    rw [List.nil_append, List.append_nil, List.append_nil]
    exact logs_json _

/-- A page prints the report on its record. -/
theorem fetchPage_logs {result : Bool × CString} (reports : conf.urlFeedback = true)
    (noPolicy : conf.policy = []) (ready : Steady false 0 w)
    (run : fetchPage env fuel start conf .top level url w = (es, some (result, w'))) :
    ∃ suffixed page w₁ w₂,
      withSuffix fuel .top conf.urlSuffix url (w.eofCleared .top) = ([], some (suffixed, w₁)) ∧
      sfCurlUrl env fuel .top suffixed w₁ = ([], some (page, w₂)) ∧
      Logs es (callsOf (Visit.printed env ⟨url, page.ok⟩)) [url] := by
  have ready' : Steady true 0 (w.eofCleared .top) := Steady.setFalse (r := .top) ready
  rw [fetchPage, Prog.bind_silent (setEof_false_apply w .top)] at run
  obtain ⟨es₁, suffixed, w₁, _, suffix, rest, rfl⟩ := Prog.bind_eq_done run
  obtain ⟨rfl, steady⟩ := silent (emits_withSuffix fuel .top _ _) ready' suffix
  rw [Prog.get_bind] at rest
  obtain ⟨es₂, _, w₂, _, logged, rest', rfl⟩ := Prog.bind_eq_done rest
  cases logged
  obtain ⟨es₃, done, w₃, _, work, ends, rfl⟩ := Prog.bind_eq_done rest'
  cases ends
  obtain ⟨page, w₂, curl, logs⟩ := workPage_logs reports noPolicy steady work
  refine ⟨suffixed, page, w₁, w₂, suffix, curl, ?_⟩
  have fetch : Logs [(.fetch w₁.spiderLevel url : Event Re)] [] [url] := by
    refine ⟨rfl, by simp [Event.isFree], ?_⟩
    rw [steady.level]
    simp [fetchedAt, Event.fetched]
  have both := fetch.append logs
  simpa using both

theorem afterPage_logs {again : Bool}
    (run : afterPage conf .top level w = (es, some (again, w'))) : Logs es [] [] := by
  rw [afterPage, Prog.get_bind] at run
  split at run
  · rw [Prog.bind_silent (setEof_apply w .top)] at run
    cases run
    exact .nil
  · obtain ⟨_, _, _, _, saved, ends, rfl⟩ := Prog.bind_eq_done run
    cases ends
    rw [saveCheckpoint, spider_bind] at saved
    split at saved
    · cases saved
      exact ⟨rfl, by simp [Event.isFree], rfl⟩
    · cases saved
      exact .nil

/-- The calls for these records. -/
def reportCalls (env : Env Re) (visits : List Visit) : List Op :=
  callsOfItems (visits.map (Visit.printed env))

theorem reportCalls_append (env : Env Re) (visits more : List Visit) :
    reportCalls env (visits ++ more) = reportCalls env visits ++ reportCalls env more := by
  rw [reportCalls, List.map_append, callsOfItems_append]
  rfl

/-- **A round reports the record that it fetches.** -/
theorem innerRound_logs {result : Bool × Int × CString} (reports : conf.urlFeedback = true)
    (noPolicy : conf.policy = []) (ready : Steady false 0 w)
    (run : innerRound env fuel start conf .top level url w = (es, some (result, w'))) :
    Logs es (reportCalls env (fetchedIn env fuel conf .top level url w).toList)
      ((fetchedIn env fuel conf .top level url w).toList.map Visit.url) := by
  obtain ⟨_, next, w₁, _, first, rest, rfl⟩ := Prog.bind_eq_done run
  obtain ⟨rfl, steady⟩ := silent (emits_nextUrl .top level url) ready first
  unfold fetchedIn fetchOfRound
  rw [Prog.bind_silent first]
  cases next with
  | none =>
    dsimp only at rest
    rw [Prog.bind_silent (setEof_apply w₁ .top)] at rest
    cases rest
    exact .nil
  | some next =>
    obtain ⟨lv, u⟩ := next
    dsimp only at rest ⊢
    rw [Prog.bind_silent (newPool_apply env .top w₁)] at rest ⊢
    cases pooled : env.pool w₁.clock with
    | false =>
      rw [pooled] at rest
      cases rest
      exact .nil
    | true =>
      rw [pooled, if_pos rfl] at rest
      obtain ⟨es₁, ⟨done, u'⟩, w₂, es₂, fetch, last, rfl⟩ := Prog.bind_eq_done rest
      obtain ⟨suffixed, page, w₃, w₄, suffix, curl, logs⟩ :=
        fetchPage_logs reports noPolicy (steady.renewPool env .top) fetch
      rw [if_pos rfl, Prog.bind_silent (setEof_false_apply _ .top), Prog.bind_silent suffix,
        Prog.bind_silent curl]
      have behind : Logs es₂ [] [] := by
        cases done with
        | false =>
          cases last
          exact .nil
        | true =>
          dsimp only at last
          rw [if_pos rfl] at last
          obtain ⟨_, again, w₅, _, after, ends, rfl⟩ := Prog.bind_eq_done last
          cases ends
          rw [List.append_nil]
          exact afterPage_logs after
      have all := logs.append behind
      rw [List.append_nil, List.append_nil] at all
      rw [List.nil_append]
      have one : reportCalls env [⟨u, page.ok⟩] = callsOf (Visit.printed env ⟨u, page.ok⟩) :=
        List.append_nil _
      rwa [← one] at all

/-- **The loops report the records that they fetch, in their order.** -/
theorem loopsToStop_logs (below : NestedSound onward conf 0 start)
    (reports : conf.urlFeedback = true) (noPolicy : conf.policy = []) {n : Nat} :
    ∀ {level : Int} {url : CString} {w : World Re} {es : List (Event Re)} {fetched : List Visit}
      {lv : Int}, Steady false 0 w →
      loopsToStop env fuel start conf .top n level url w = (es, some ((fetched, lv), w')) →
      Logs es (reportCalls env fetched) (fetched.map Visit.url) := by
  induction n with
  | zero =>
    intro level url w es fetched lv ready run
    cases run
  | succ n ih =>
    intro level url w es fetched lv ready run
    unfold loopsToStop at run
    rw [Prog.get_bind] at run
    obtain ⟨es₁, ⟨again, level', url'⟩, w₁, es₂, round, rest, rfl⟩ := Prog.bind_eq_done run
    have logs := innerRound_logs reports noPolicy ready round
    obtain ⟨-, -, steady, -⟩ :=
      (emits_innerRound (r := .top) below env fuel (fun _ => rfl) level url).done ready round
    dsimp only at rest
    rw [Prog.get_bind] at rest
    split at rest
    · obtain ⟨es₃, ⟨more, lv'⟩, w₂, _, loop, ends, rfl⟩ := Prog.bind_eq_done rest
      cases ends
      have both := logs.append (ih steady loop)
      rw [← reportCalls_append, ← List.map_append] at both
      rwa [List.append_nil]
    · cases rest
      rwa [List.append_nil]

/-! ## The whole run -/

/-- At the start of the loops. -/
def World.begun (w : World Re) (r : Ref) : World Re :=
  { w.setSpider { w.spider r with pool := none } r with clock := w.clock + 1 }

theorem spiderRun_apply (env : Env Re) (fuel : Nat) (start : Nat → Run Re Unit) (conf : Conf Re)
    (w : World Re) : spiderRun env fuel start conf .top w =
      spiderLoop env fuel start conf .top fuel (env.garbageLevel w.clock) env.garbageUrl
        (w.begun .top) := rfl

theorem startToStop_apply (env : Env Re) (fuel : Nat) (start : Nat → Run Re Unit) (conf : Conf Re)
    (w : World Re) : startToStop env fuel start conf .top w =
      let loops := loopsToStop env fuel start conf .top fuel (env.garbageLevel w.clock)
        env.garbageUrl (w.begun .top)
      (.json .arrayBegin :: loops.1, loops.2) := rfl

variable {confFn : CString} {urlTxt : List Byte} {skipline : Int} {fetched : List Visit}

/-- A run up to the test is one of the loops, behind the bracket of the array. -/
theorem runToStop_loops (run : runToStop env fuel confFn urlTxt skipline = some (es, fetched)) :
    ∃ w es' lv w', initWorld env (fuel + 1) confFn urlTxt skipline = some w ∧
      loopsToStop env fuel (fun o => sfProcStartSpider env fuel (.nested o)) w.top.conf .top fuel
        (env.garbageLevel w.clock) env.garbageUrl (w.begun .top) =
          (es', some ((fetched, lv), w')) ∧ es = .json .arrayBegin :: es' := by
  simp only [runToStop, startToStop_apply, Option.bind_eq_bind, Option.bind_eq_some_iff,
    Option.map_eq_some_iff] at run
  obtain ⟨w, made, ⟨⟨fetched', lv⟩, w'⟩, loops, same⟩ := run
  cases same
  exact ⟨w, _, lv, w', made, Prod.ext rfl loops, rfl⟩

/-- **What is logged up to the test.** -/
theorem runToStop_logs {file : ConfFile Re} (found : env.confFile 0 confFn = some file)
    (reports : file.conf.urlFeedback = true) (noPolicy : file.conf.policy = [])
    (run : runToStop env fuel confFn urlTxt skipline = some (es, fetched)) :
    Logs es (.arrayBegin :: reportCalls env fetched) (fetched.map Visit.url) := by
  obtain ⟨w, es', lv, w', made, loops, rfl⟩ := runToStop_loops run
  obtain ⟨steady, file', found', conf⟩ := initWorld_steady made
  obtain rfl : file = file' := Option.some_inj.1 (found.symm.trans found')
  rw [conf] at loops
  have ready : Steady false 0 (w.begun .top) := ⟨steady.level, steady.inFile, nofun⟩
  have logs := loopsToStop_logs (nestedSound file.conf env fuel 0) reports noPolicy ready loops
  exact (logs_json [.arrayBegin]).append logs

/-- The events up to the test are the first of the run. -/
theorem runToStop_prefix (run : runToStop env fuel confFn urlTxt skipline = some (es, fetched)) :
    es <+: (mainRun env (fuel + 1) confFn urlTxt skipline).1 := by
  obtain ⟨w, es', lv, w', made, loops, rfl⟩ := runToStop_loops run
  have body : spiderBody env fuel (w.spider .top).conf .top w =
      (es' ++ (behindLoops env fuel w.top.conf .top lv w').1,
        (behindLoops env fuel w.top.conf .top lv w').2) := by
    rw [spiderBody, spiderRun_apply, spiderLoop_toStop]
    exact Prog.bind_done loops
  rw [mainRun, made]
  dsimp only
  cases ends : (behindLoops env fuel w.top.conf .top lv w').2 with
  | none =>
    rw [ends] at body
    rw [sfProcStartSpider_halt body]
    exact List.prefix_append (_ :: es') _
  | some x =>
    rw [ends] at body
    rw [sfProcStartSpider_done body, List.append_assoc]
    exact List.prefix_append (_ :: es') _

/-- A run that returns has come to the test. -/
theorem runToStop_of_returns
    (returns : (mainRun env (fuel + 1) confFn urlTxt skipline).2 = true) :
    (runToStop env fuel confFn urlTxt skipline).isSome := by
  unfold mainRun at returns
  cases made : initWorld env (fuel + 1) confFn urlTxt skipline with
  | none =>
    rw [made] at returns
    cases returns
  | some w =>
    rw [made] at returns
    dsimp only at returns
    simp only [runToStop, made, startToStop_apply, Option.bind_eq_bind, Option.bind_some,
      Option.isSome_map]
    by_contra never
    have none_ := Option.not_isSome_iff_eq_none.1 never
    have body : ∃ es, spiderBody env fuel (w.spider .top).conf .top w = (es, none) := by
      rw [spiderBody, spiderRun_apply, spiderLoop_toStop]
      exact ⟨_, Prog.bind_halt (Prod.ext rfl none_)⟩
    obtain ⟨es, body⟩ := body
    rw [sfProcStartSpider_halt body] at returns
    cases returns

/-- **The text up to the test decodes to what was printed for each record.** -/
theorem toStop_decodes {file : ConfFile Re} (found : env.confFile 0 confFn = some file)
    (reports : file.conf.urlFeedback = true) (noPolicy : file.conf.policy = [])
    (run : runToStop env fuel confFn urlTxt skipline = some (es, fetched))
    (taken : AllTaken [] (bufSteps printInit es)) :
    decode (bufText (bufSteps printInit es) ++ [93#8]) =
      some (.arr (fetched.map (Visit.printed env))) := by
  rw [(runToStop_logs found reports noPolicy run).text taken]
  exact decode_open _

/-- For a failed fetch the key is not `url`. -/
theorem printed_eq_report_iff (env : Env Re) (f : Visit) : f.printed env = f.report ↔ f.ok = true := by
  unfold Visit.printed Visit.report
  cases f.ok with
  | true => exact iff_of_true rfl rfl
  | false =>
    refine iff_of_false ?_ Bool.false_ne_true
    simp [reportTree, urlKey]

/-- **The report decodes to the records and their outcomes if and only if no fetch failed.** The
array is not ended yet when the loops come to the test, and its bracket is put behind the text. -/
theorem feedback_decodes_iff {file : ConfFile Re} (found : env.confFile 0 confFn = some file)
    (reports : file.conf.urlFeedback = true) (noPolicy : file.conf.policy = [])
    (run : runToStop env fuel confFn urlTxt skipline = some (es, fetched))
    (taken : AllTaken [] (bufSteps printInit es)) :
    decode (bufText (bufSteps printInit es) ++ [93#8]) = some (.arr (fetched.map Visit.report)) ↔
      ∀ f ∈ fetched, f.ok = true := by
  rw [toStop_decodes found reports noPolicy run taken, Option.some_inj, Tree.arr.injEq]
  constructor
  · intro same f hf
    exact (printed_eq_report_iff env f).1 (List.map_inj_left.1 same f hf)
  · intro ok
    exact List.map_congr_left fun f hf => (printed_eq_report_iff env f).2 (ok f hf)

end

/-! ## A site for a report -/

instance AllTaken.decidable : ∀ (buf : List Byte) (steps : List BufStep),
    Decidable (AllTaken buf steps)
  | _, [] => .isTrue trivial
  | buf, some chunk :: steps =>
    have := AllTaken.decidable (buf ++ chunk) steps
    inferInstanceAs (Decidable (_ ∧ _))
  | _, none :: steps => AllTaken.decidable [] steps

/-- A configuration with `url_feedback` and without policies. -/
def reportConf : Conf Byte := { plainConf 1 [] with urlFeedback := true, policy := [] }

/-- A site on which every fetch comes out the same. -/
def reportSite (ok : Bool) : Env Byte :=
  { plainSite (fun _ => some ⟨reportConf, []⟩) [] with fetch := fun _ _ => ⟨ok, [], []⟩ }

theorem reportSite_run (ok : Bool) : ∃ es,
    runToStop (reportSite ok) 20 .empty oneRecord 0 = some (es, [⟨.letter 0, ok⟩]) ∧
      AllTaken [] (bufSteps printInit es) := by
  have ends : (runToStop (reportSite ok) 20 .empty oneRecord 0).map (fun x =>
      (decide (AllTaken [] (bufSteps printInit x.1)), x.2)) = some (true, [⟨.letter 0, ok⟩]) := by
    cases ok <;> decide +kernel
  obtain ⟨⟨es, fetched⟩, run, same⟩ := Option.map_eq_some_iff.1 ends
  obtain ⟨taken, rfl⟩ := Prod.mk.inj same
  exact ⟨es, run, of_decide_eq_true taken⟩

theorem reportSite_conf (ok : Bool) : (reportSite ok).confFile 0 .empty = some ⟨reportConf, []⟩ := rfl

/-- One page that is fetched. -/
theorem feedback_decodes_iff_fetched : ∃ es,
    runToStop (reportSite true) 20 .empty oneRecord 0 = some (es, [⟨.letter 0, true⟩]) ∧
      (decode (bufText (bufSteps printInit es) ++ [93#8]) =
          some (.arr ([⟨.letter 0, true⟩].map Visit.report)) ↔
        ∀ f ∈ [(⟨.letter 0, true⟩ : Visit)], f.ok = true) := by
  obtain ⟨es, run, taken⟩ := reportSite_run true
  exact ⟨es, run, feedback_decodes_iff (reportSite_conf true) rfl rfl run taken⟩

/-- One page that is not: the key is longer than `url`. -/
theorem failed_fetch_misnamed : ¬ ∀ (env : Env Byte) (fuel : Nat) (confFn : CString)
    (urlTxt : List Byte) (skipline : Int) (file : ConfFile Byte) (es : List (Event Byte))
    (fetched : List Visit), env.confFile 0 confFn = some file → file.conf.urlFeedback = true →
    file.conf.policy = [] → runToStop env fuel confFn urlTxt skipline = some (es, fetched) →
    AllTaken [] (bufSteps printInit es) →
    decode (bufText (bufSteps printInit es) ++ [93#8]) =
      some (.arr (fetched.map Visit.report)) := by
  intro claim
  obtain ⟨es, run, taken⟩ := reportSite_run false
  have expected := claim (reportSite false) 20 .empty oneRecord 0 _ es _ (reportSite_conf false)
    rfl rfl run taken
  rw [toStop_decodes (reportSite_conf false) rfl rfl run taken, Option.some_inj,
    Tree.arr.injEq] at expected
  have same := List.map_inj_left.1 expected ⟨.letter 0, false⟩ List.mem_cons_self
  exact absurd ((printed_eq_report_iff _ _).1 same) Bool.false_ne_true

end SpiderFrame.Page
