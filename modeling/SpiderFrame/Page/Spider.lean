import SpiderFrame.Page.Perform

/-!
# The loop of a spider (`main.c`)

`sf_proc_start_spider` takes a URL, from `starturl` or from `url.txt`, makes a pool, fetches the
page and works on it, until the test of the limits holds or the top-level spider has seen the end
of `url.txt`. A nested spider runs the same loop in between, with the stream, the counter `line`
and `spider_list` of the top level, and with its own `level`, which nobody has set. The list of
failed URLs, log lines and waiting are left out.
-/

namespace SpiderFrame.Page
open SpiderFrame.Base SpiderFrame.Queue SpiderFrame.Hash SpiderFrame.Var SpiderFrame.Conf

variable {Re : Type}

/-! ## Fetching a page (`sf_curl_url`) -/

/-- `tolower` in the C locale. -/
def lower (b : Byte) : Byte := if 65#8 ≤ b && b ≤ 90#8 then b + 32#8 else b

/-- `!strcasecmp(a, b)`. -/
def sameLetters (a b : List Byte) : Bool := a.map lower == b.map lower

/-- `POST`. -/
def post : List Byte := [80#8, 79#8, 83#8, 84#8]

/-- The headers with their variables, from the second of the ring on. -/
def expandHeaders (fuel : Nat) (r : Ref) : List CString → Run Re (List CString)
  | [] => pure []
  | hdr :: hdrs => do
    let hdr ← expand fuel r (some hdr)
    let hdrs ← expandHeaders fuel r hdrs
    pure (hdr :: hdrs)

/-- The data of the request, for the method `POST`. -/
def postField (fuel : Nat) (r : Ref) (conf : Conf Re) : Run Re (Option CString) :=
  if sameLetters conf.method.bytes post then do
    let field ← expand fuel r (some conf.postData)
    pure (some field)
  else pure none

/-- `sf_curl_url(s, url, pbuf, phdr)`. -/
def sfCurlUrl (env : Env Re) (fuel : Nat) (r : Ref) (url : CString) : Run Re Fetched := do
  let s ← spider r
  let field ← postField fuel r s.conf
  let userAgent ← expand fuel r (some s.conf.userAgent)
  let headers ← expandHeaders fuel r (s.conf.headers.drop 1 ++ s.conf.headers.take 1)
  outside fun n => env.fetch n ⟨url, field, userAgent, headers⟩

/-! ## The next URL -/

/-- The string in `url`, when it fits into the 2048 bytes. -/
def inUrl (url : CString) : Run Re CString :=
  if url.bytes.length < 2048 then pure url else Prog.halt

/-- What `sf_global_scan_url` does to the stream and to `line`. -/
def World.scan (w : World Re) : World Re :=
  let (_, reader, line) := Queue.sfGlobalScanUrl w.urlTxt w.reader w.line
  { w with reader := reader, line := line }

theorem scanned_unread (w : World Re) :
    (Queue.sfGlobalScanUrl w.urlTxt w.reader w.line).1 = fscanfRecord w.unread := rfl

/-- `sf_global_scan_url(&level, url)`, which leaves what it does not read; none is `EOF`. -/
def sfGlobalScanUrl (level : Int) (url : CString) : Run Re (Option (Int × CString)) := do
  let w ← Prog.get
  let scanned := (Queue.sfGlobalScanUrl w.urlTxt w.reader w.line).1
  Prog.modify World.scan
  if scanned.rc = EOF then pure none
  else do
    let url ← inUrl (scanned.url.getD url)
    pure (some (scanned.level.getD level, url))

/-- The URL of the next page, with its level. -/
def nextUrl (r : Ref) (level : Int) (url : CString) : Run Re (Option (Int × CString)) := do
  let s ← spider r
  match s.starturl with
  | some p => do
    let w ← Prog.get
    let url ← Prog.ofOption (w.text p)
    let url ← inUrl url
    pure (some (level, url))
  | none => sfGlobalScanUrl level url

/-- The pool of the last page goes, with the strings in it; `false` when there is no new one. -/
def newPool (env : Env Re) (r : Ref) : Run Re Bool := do
  let s ← spider r
  let ok ← outside env.pool
  let w ← Prog.get
  Prog.modify fun w =>
    { w with
      strings := fun p =>
        if s.pool = some (w.strings p).pool then { w.strings p with live := false }
        else w.strings p
      poolCnt := w.poolCnt + 1 }
  update r fun s => { s with pool := if ok then some w.poolCnt else none }
  pure ok

/-! ## One page -/

/-- `s->eof = ..`. -/
def setEof (r : Ref) (eof : Bool) : Run Re Unit := update r fun s => { s with eof := eof }

/-- `sf_proc_url_match_range(url, range)`. -/
def sfProcUrlMatchRange (env : Env Re) (url : CString) (range : List Re) : Bool :=
  range.isEmpty || range.any fun re => 0 ≤ (env.pcre.exec re url.bytes).1

/-- The policies from the number `i` on. -/
def policyLoop (env : Env Re) (fuel : Nat) (start : Nat → Run Re Unit) (r : Ref) (url : CString)
    (page : Fetched) : Nat → List (Policy Re) → Run Re Unit
  | _, [] => pure ()
  | i, p :: ps => do
    if sfProcUrlMatchRange env url p.policyRange then sfPcrePerform env fuel start r i p url page
    else pure ()
    policyLoop env fuel start r url page (i + 1) ps

/-- `url`, `fail_url`, `success_url` and `unparse_url`. -/
def urlKey : List Byte := [117#8, 114#8, 108#8]
def failUrl : List Byte := [102#8, 97#8, 105#8, 108#8, 95#8, 117#8, 114#8, 108#8]
def successUrl : List Byte :=
  [115#8, 117#8, 99#8, 99#8, 101#8, 115#8, 115#8, 95#8, 117#8, 114#8, 108#8]
def unparseKey : List Byte :=
  [117#8, 110#8, 112#8, 97#8, 114#8, 115#8, 101#8, 95#8, 117#8, 114#8, 108#8]

/-- An object with the key `name` and an array of one object in it. -/
def feedback (name key : List Byte) (url : CString) : Run Re Unit :=
  Prog.each json [.objectBegin, .key name, .arrayBegin, .objectBegin, .key key,
    .string url.bytes, .objectEnd, .arrayEnd, .objectEnd]

/-- A page that was fetched is reported. -/
def reportSuccess (conf : Conf Re) (backupUrl : CString) : Run Re Unit :=
  if conf.urlFeedback then feedback successUrl urlKey backupUrl else pure ()

/-- `strcat(url, suffix)`, for a configuration with a suffix. -/
def withSuffix (fuel : Nat) (r : Ref) (suffix : Option CString) (url : CString) :
    Run Re CString :=
  match suffix with
  | some suffix => do
    let suffix ← expand fuel r (some suffix)
    inUrl (.ofBytes (url.bytes ++ suffix.bytes))
  | none => pure url

/-- From the fetch to the end of the policies; `false` when a failed fetch ends the inner loop. For
a failed fetch the key `url` is printed with the length of `fail_url`. -/
def workPage (env : Env Re) (fuel : Nat) (start : Nat → Run Re Unit) (conf : Conf Re) (r : Ref)
    (level : Int) (backupUrl url : CString) : Run Re Bool := do
  let page ← sfCurlUrl env fuel r url
  if !page.ok && conf.urlFeedback then do
    feedback failUrl (urlKey ++ 0#8 :: env.beyond) backupUrl
    pure false
  else do
    reportSuccess conf backupUrl
    sfPcreGetHref env fuel r (level + 1) page.body url
    policyLoop env fuel start r url page 0 conf.policy
    pure true

/-- From `s->eof = 0` to the end of the policies, with what `url` holds afterwards. -/
def fetchPage (env : Env Re) (fuel : Nat) (start : Nat → Run Re Unit) (conf : Conf Re) (r : Ref)
    (level : Int) (backupUrl : CString) : Run Re (Bool × CString) := do
  setEof r false
  let url ← withSuffix fuel r conf.urlSuffix backupUrl
  let w ← Prog.get
  Prog.log [.fetch w.spiderLevel backupUrl]
  let done ← workPage env fuel start conf r level backupUrl url
  pure (done, url)

/-! ## The loops of `sf_proc_start_spider` -/

/-- `sf_save_chkpoint(s->conf_fn, line)`, at every tenth line. -/
def saveCheckpoint (r : Ref) (line : Int) : Run Re Unit := do
  let s ← spider r
  if Crawl.sfDoCheckpoint line then Prog.log [.chkpoint s.confFn line] else pure ()

/-- What follows a page: `s->eof = 1` at the limits, otherwise perhaps a checkpoint; `true` when
the inner loop goes on. -/
def afterPage (conf : Conf Re) (r : Ref) (level : Int) : Run Re Bool := do
  let w ← Prog.get
  if Crawl.limitReached conf.toConf level w.line then do
    setEof r true
    pure false
  else do
    saveCheckpoint r w.line
    pure true

/-- One round of the inner loop, with `level` and `url`; `true` when the loop goes on. -/
def innerRound (env : Env Re) (fuel : Nat) (start : Nat → Run Re Unit) (conf : Conf Re) (r : Ref)
    (level : Int) (url : CString) : Run Re (Bool × Int × CString) := do
  let next ← nextUrl r level url
  match next with
  | none => do
    setEof r true
    pure (false, level, url)
  | some (level, url) => do
    let pooled ← newPool env r
    if pooled then do
      let (done, url) ← fetchPage env fuel start conf r level url
      if done then do
        let again ← afterPage conf r level
        pure (again, level, url)
      else pure (false, level, url)
    else pure (false, level, url)

/-- The first loop of `sf_proc_output_unparse`. -/
def skipRecords : Nat → CString → List Byte → CString × List Byte
  | 0, url, bs => (url, bs)
  | n + 1, url, bs =>
    let r := fscanfRecord bs
    skipRecords n (r.url.getD url) r.rest

/-- The second loop, which leaves the last URL in the buffer. -/
def unparseLoop : Nat → CString → List Byte → Run Re Unit
  | 0, _, _ => Prog.halt
  | fuel + 1, url, bs =>
    let r := fscanfRecord bs
    if r.rc = EOF then Prog.modify fun w => { w with unparseUrl := url }
    else do
      let url := r.url.getD url
      Prog.each json [.objectBegin, .key urlKey, .string url.bytes, .objectEnd]
      unparseLoop fuel url r.rest

/-- `sf_proc_output_unparse(s->url_fn, s->out_fd, line)`. -/
def sfProcOutputUnparse (env : Env Re) (fuel : Nat) (r : Ref) : Run Re Unit := do
  let s ← spider r
  let urlFn ← Prog.ofOption s.urlFn
  let w ← Prog.get
  let bytes ← Prog.ofOption (w.file env urlFn)
  let (url, bs) := skipRecords w.line.toNat w.unparseUrl bytes
  around [.objectBegin, .key unparseKey, .arrayBegin] [.arrayEnd, .objectEnd]
    (unparseLoop fuel url bs)

/-- What happens when the test of the limits holds behind the inner loop. -/
def leaveLoop (env : Env Re) (fuel : Nat) (conf : Conf Re) (r : Ref) : Run Re Unit := do
  let s ← spider r
  if s.starturl = none ∧ conf.urlFeedback then sfProcOutputUnparse env fuel r else pure ()

/-- Behind the inner loop: the test of the limits, then `sf_all_spiders_eof`, which looks at the
top-level spider only; otherwise the outer loop goes on. -/
def outerTest (env : Env Re) (fuel : Nat) (conf : Conf Re) (r : Ref) (level : Int)
    (goOn : Run Re Unit) : Run Re Unit := do
  let w ← Prog.get
  if Crawl.limitReached conf.toConf level w.line then leaveLoop env fuel conf r
  else if w.top.eof then pure ()
  else goOn

/-- Both loops, one round of the inner loop for each unit of fuel. -/
def spiderLoop (env : Env Re) (fuel : Nat) (start : Nat → Run Re Unit) (conf : Conf Re) (r : Ref) :
    Nat → Int → CString → Run Re Unit
  | 0, _, _ => Prog.halt
  | n + 1, level, url => do
    let (again, level, url) ← innerRound env fuel start conf r level url
    let goOn := spiderLoop env fuel start conf r n level url
    if again then goOn else outerTest env fuel conf r level goOn

/-- What `sf_proc_start_spider` does between the brackets of its JSON array. -/
def spiderRun (env : Env Re) (fuel : Nat) (start : Nat → Run Re Unit) (conf : Conf Re) (r : Ref) :
    Run Re Unit := do
  update r fun s => { s with pool := none }
  let level ← outside env.garbageLevel
  spiderLoop env fuel start conf r fuel level env.garbageUrl

/-- `sf_proc_start_spider(s)`. A nested spider starts with less fuel. -/
def sfProcStartSpider (env : Env Re) : Nat → Ref → Run Re Unit
  | 0, _ => Prog.halt
  | fuel + 1, r => do
    let s ← spider r
    around [.arrayBegin] [.arrayEnd]
      (spiderRun env fuel (fun o => sfProcStartSpider env fuel (.nested o)) s.conf r)
    update r fun s => { s with patternFp := false }

/-! ## A run with one top-level spider -/

/-- The table of variables: the entry of `sf_proc_init_varhandle`, then those of the
configuration file. -/
def initVars (fuel : Nat) (vars : List (CString × CString)) : Option (VarMem × Option Nat) :=
  ((.empty, .empty) :: vars).foldlM (fun m v => createInsert fuel m.1 m.2 v.1 (some v.2))
    (⟨⟨id, id⟩, fun _ => ⟨.empty, .empty⟩, 0⟩, none)

theorem uniq_bits : 4 ≤ 16 ∧ 16 ≤ 24 := by decide

/-- The data when the top-level spider starts: `sf_global_init(skipline)`, `sf_confset_init` and
`sf_spider_create(0, conf_fn)`. -/
def initWorld (env : Env Re) (fuel : Nat) (confFn : CString) (urlTxt : List Byte)
    (skipline : Int) : Option (World Re) := do
  let table ← sfProcInitUrlEntry fuel env.garbageUrl urlTxt
  let file ← env.confFile 0 confFn
  let (vars, handle) ← initVars fuel file.vars
  let top : Spider Re :=
    ⟨confFn, file.conf, none, some (.ofBytes urlTxtName), true, some 0, handle, true, false, none⟩
  pure
    { vars := vars
      uniq := .init uniq_bits.1 uniq_bits.2 ()
      urls := fun _ => table
      urlsCnt := 1
      urlTxt := urlTxt
      reader := (Reader.fopen env.sticky).skip urlTxt skipline.toNat
      line := skipline
      confset := sfConfsetInit
      top := top
      nested := fun _ => top
      nestedCnt := 0
      strings := fun _ => ⟨.empty, 0, false⟩
      stringCnt := 0
      poolCnt := 0
      spiderLevel := 0
      unparseUrl := .empty
      clock := 1 }

/-- What happens in a run of the program with one top-level spider, and whether it returns. -/
def mainRun (env : Env Re) (fuel : Nat) (confFn : CString) (urlTxt : List Byte) (skipline : Int) :
    List (Event Re) × Bool :=
  match initWorld env fuel confFn urlTxt skipline with
  | none => ([], false)
  | some w =>
    let run := sfProcStartSpider env fuel .top w
    (run.1, run.2.isSome)

/-! ## A site where every page is the same -/

/-- Pages without links, for patterns of one byte. -/
def plainSite (confFile : CString → Option (ConfFile Byte)) (body : List Byte) : Env Byte where
  pcre := bytePcre
  reUrl := 1#8
  reHost := 1#8
  reHostpath := 1#8
  confFile _ := confFile
  files _ _ := none
  fetch _ _ := ⟨true, body, []⟩
  pool _ := true
  popen _ _ := none
  sticky := true
  garbageLevel _ := 0
  garbageUrl := .empty
  beyond := [0#8, 0#8, 0#8, 0#8]

/-- A configuration with one policy for every URL, which stops after `urlCount` records. -/
def plainConf (urlCount : Int) (rules : List (Rule Byte)) : Conf Byte where
  urlLevel := 5
  urlCount := urlCount
  urlFeedback := false
  method := .ofBytes [71#8, 69#8, 84#8]
  postData := .empty
  userAgent := .empty
  urlSuffix := none
  policy := [⟨rules, []⟩]
  range := []
  headers := []

/-- A rule for two matches of the byte `a`, with one uniq key for both. -/
def uniqRule (sfcap : List Capture) : Rule Byte where
  re := 97#8
  urlmatch := false
  hdrmatch := false
  movetoend := true
  repeat_ := 2
  uniq := some (.letter 10)
  jsonNew := none
  sfcap := sfcap
  ns := []
  trigger := []

/-- The rule alone, on pages with this body. -/
def uniqSite (sfcap : List Capture) (body : List Byte) : Env Byte :=
  plainSite (fun _ => some ⟨plainConf 1 [uniqRule sfcap], []⟩) body

/-- The pattern of one byte with a group for the byte behind it. -/
def byteGroup : Pcre Byte :=
  { bytePcre with
    getNamedSubstring := fun _ subject result _ =>
      some (.ofBytes ((subject.drop ((result.2[1]?).getD 0).toNat).take 1)) }

/-- The captured byte is the uniq key, and the text that goes to the pattern file and to the
buffer. -/
def keyRule : Rule Byte :=
  let reference : CString := .ofBytes [40#8, 36#8, 107#8, 41#8]
  { uniqRule [⟨some (.letter 10), some reference, some reference,
      some (.ofBytes [36#8, 107#8]), none⟩] with
    uniq := some reference }

/-- This rule, on pages with two matches of different keys: `abac`. -/
def keySite : Env Byte :=
  { plainSite (fun _ => some ⟨plainConf 1 [keyRule], []⟩) [97#8, 98#8, 97#8, 99#8] with
    pcre := byteGroup }

/-- A queue of one record. -/
def oneRecord : List Byte := Record.encode ⟨0, .letter 0⟩

end SpiderFrame.Page
