import SpiderFrame.Page.Links

/-!
# The rules of a policy (`sf_pcre_perform` in `sf_pcre.c`)

A rule is matched on the URL, the header or the body, up to `repeat` times. A match sets
variables and writes texts (`capture`), then looks up its uniq key, and unless that is known runs
programs and starts nested spiders. At the end of a round the buffer moves behind the match, by
the length of the body whichever buffer it is.
-/

namespace SpiderFrame.Page
open SpiderFrame.Base SpiderFrame.Queue SpiderFrame.Conf

variable {Re : Type}

/-- A pointer into a buffer, by what stands from there on, and the length kept for it. -/
structure Cursor where
  text : List Byte
  len : Int

/-- The three buffers that a rule can be matched on. -/
structure Buffers where
  url : Cursor
  hdr : Cursor
  body : Cursor

/-- `*pbuf` and `*pbuflen` of the rule. -/
def Buffers.of (b : Buffers) (rule : Rule Re) : Cursor :=
  if rule.urlmatch then b.url else if rule.hdrmatch then b.hdr else b.body

/-- `*pbuf += vector[1]` and `*pbuflen = buflen - vector[1]`. -/
def Buffers.move (b : Buffers) (rule : Rule Re) (n : Int) : Buffers :=
  let c := ⟨(b.of rule).text.drop n.toNat, b.body.len - n⟩
  if rule.urlmatch then { b with url := c }
  else if rule.hdrmatch then { b with hdr := c }
  else { b with body := c }

/-- A match: the text it is on, and what `pcre_exec` returned. -/
structure Match where
  subject : List Byte
  result : Int × List Int

def Match.end_ (m : Match) : Int := (m.result.2[1]?).getD 0

/-- `pcre_exec(pcre->re, NULL, *pbuf, *pbuflen, ..)`. A negative length is an error of the call;
a length that is longer than the text reads what is behind it. -/
def exec (env : Env Re) (re : Re) (c : Cursor) : Run Re (Option Match) :=
  if c.len < 0 then pure none
  else if c.text.length < c.len.toNat then Prog.halt
  else
    let subject := c.text.take c.len.toNat
    let result := env.pcre.exec re subject
    pure (if result.1 < 0 then none else some ⟨subject, result⟩)

/-- A call for an attribute that is there. -/
def whenSome {α : Type} (o : Option α) (f : α → Run Re Unit) : Run Re Unit :=
  match o with
  | some a => f a
  | none => pure ()

/-- The variables of a capture that has not matched. -/
def forget (fuel : Nat) (r : Ref) (cap : Capture) : Run Re Unit := do
  whenSome cap.storeAs (deleteVar fuel r)
  whenSome cap.contentAs (deleteVar fuel r)

/-- `content_as`: the captured text without its tags, from the page's pool. -/
def storeContent (fuel : Nat) (r : Ref) (outstr : Option CString) (name : CString) :
    Run Re Unit := do
  let _ ← poolOf r
  let content ←
    match outstr with
    | some outstr => do
      let content ← Prog.ofOption (sfPcreGetcontent outstr)
      pure (some content)
    | none => pure none
  setVar fuel r name content

/-- `out_pattern`: the text goes to `s->pattern_fp` and to the list `outbuf_head`. -/
def writePattern (fuel : Nat) (r : Ref) (pattern : CString) : Run Re CString := do
  let _ ← poolOf r
  let varbuf ← expand fuel r (some pattern)
  let s ← spider r
  if s.patternFp then do
    Prog.log [.pattern varbuf]
    pure varbuf
  else Prog.halt

/-- One capture of a match, with the texts it has written. -/
def capture (env : Env Re) (fuel : Nat) (r : Ref) (re : Re) (m : Match) (cap : Capture) :
    Run Re (List CString) := do
  let capstr ← Prog.ofOption cap.capstr
  let outstr := env.pcre.getNamedSubstring re m.subject m.result capstr
  whenSome cap.storeAs fun name => setVar fuel r name outstr
  whenSome cap.contentAs (storeContent fuel r outstr)
  let texts ←
    match cap.outPattern with
    | some pattern => do
      let varbuf ← writePattern fuel r pattern
      pure [varbuf]
    | none => pure []
  whenSome cap.jsonOut (sfJsonPrintBuf fuel r)
  pure texts

/-- The captures of a match in order. -/
def captures (env : Env Re) (fuel : Nat) (r : Ref) (re : Re) (m : Match) :
    List Capture → Run Re (List CString)
  | [] => pure []
  | cap :: caps => do
    let texts ← capture env fuel r re m cap
    let more ← captures env fuel r re m caps
    pure (texts ++ more)

/-- The uniq key of a match; `true` when it was known. -/
def uniqStep (fuel : Nat) (r : Ref) (id : RuleId) (texts : List CString) (uniq : CString) :
    Run Re Bool := do
  let key ← expand fuel r (some uniq)
  Prog.log [.uniq r id key texts]
  let w ← Prog.get
  if (w.uniq.search key).isSome then do
    let _ ← poolOf r
    Prog.log [.jsonFree]
    pure true
  else do
    Prog.modify fun w => { w with uniq := w.uniq.insert key () }
    pure false

/-- `./program args` in a shell; its first 1000 bytes are the value of `store_as`. -/
def runTrigger (env : Env Re) (fuel : Nat) (r : Ref) (trig : Trigger) : Run Re Unit := do
  let _ ← poolOf r
  let args ← expand fuel r trig.args
  let program ← Prog.ofOption trig.program
  let cmd := CString.ofBytes (46#8 :: 47#8 :: (program.bytes ++ 32#8 :: args.bytes))
  let result ← outside fun n => env.popen n cmd
  match result, trig.storeAs with
  | some result, some name => setVar fuel r name (some (.ofBytes (result.take 1000)))
  | _, _ => pure ()

/-! ## Nested spiders -/

/-- `sf_spider_init(conf_fn)`: NULL without a configuration. The variables of the file go into a
table that the assignment of `s_new->var_handle` drops. -/
def spiderInit (env : Env Re) (confFn : CString) : Run Re (Option Nat) := do
  let file ← outside fun n => env.confFile n confFn
  match file with
  | some file => do
    let w ← Prog.get
    let s : Spider Re := ⟨confFn, file.conf, none, none, false, none, none, false, false, none⟩
    Prog.modify fun w =>
      { w.setSpider s (.nested w.nestedCnt) with nestedCnt := w.nestedCnt + 1 }
    pure (some w.nestedCnt)
  | none => pure none

/-- `url.txt`. -/
def urlTxtName : List Byte := [117#8, 114#8, 108#8, 46#8, 116#8, 120#8, 116#8]

/-- What is in a file. -/
def World.file (w : World Re) (env : Env Re) (fn : CString) : Option (List Byte) :=
  if fn.bytes = urlTxtName then some w.urlTxt else env.files w.clock fn

/-- `sf_proc_init_url_entry(hdl, urlfile)`: NULL when the file cannot be opened. -/
def initUrlEntry (env : Env Re) (fuel : Nat) (hdl : Option Nat) (fn : CString) :
    Run Re (Option Nat) := do
  let w ← Prog.get
  let h := hdl.getD w.urlsCnt
  let table := if hdl.isSome then w.urls h else .init
  Prog.modify fun w =>
    { w with
      urls := Function.update w.urls h table
      urlsCnt := if hdl.isSome then w.urlsCnt else w.urlsCnt + 1
      clock := w.clock + 1 }
  match w.file env fn with
  | none => pure none
  | some bytes => do
    let table ← Prog.ofOption (loadLoop fuel table env.garbageUrl bytes)
    Prog.modify fun w => { w with urls := Function.update w.urls h table }
    pure (some h)

/-- `s_new->starturl = sf_var_exp(s->var_handle, ns->url_exp, s->pool)`. -/
def assignStarturl (fuel : Nat) (r : Ref) (o : Nat) (urlExp : CString) : Run Re CString := do
  let pool ← poolOf r
  let url ← expand fuel r (some urlExp)
  let w ← Prog.get
  Prog.modify fun w =>
    { w with
      strings := Function.update w.strings w.stringCnt ⟨url, pool, true⟩
      stringCnt := w.stringCnt + 1 }
  update (.nested o) fun s => { s with starturl := some w.stringCnt }
  pure url

/-- `ngx_pfree(s->pool, s_new->starturl)`. -/
def freeStarturl (r : Ref) (o : Nat) : Run Re Unit := do
  let pool ← poolOf r
  let s ← spider (.nested o)
  Prog.modify fun w =>
    { w with
      strings := fun p =>
        if s.starturl = some p ∧ (w.strings p).pool = pool then
          { w.strings p with live := false }
        else w.strings p }

/-- `url_fn` and `url_handle` of the object, from the entry's input file or from the parent. -/
def assignInput (env : Env Re) (fuel : Nat) (r : Ref) (o : Nat) (finFn : Option CString) :
    Run Re Unit := do
  let s ← spider r
  match finFn with
  | some fn => do
    let _ ← poolOf r
    update (.nested o) fun s => { s with urlFn := some fn }
    let h ← initUrlEntry env fuel s.urlHandle fn
    update (.nested o) fun s => { s with urlHandle := h }
  | none => update (.nested o) fun s' => { s' with urlHandle := s.urlHandle }

/-- The URLs of an input file. -/
def inputUrls (env : Env Re) (fuel : Nat) (w : World Re) (finFn : Option CString) :
    List CString :=
  ((finFn.bind (w.file env)).bind (loadedUrls fuel env.garbageUrl)).getD []

/-- The spider object for a configuration file, and whether the table had an entry for it. When
there is none, `sf_spider_init` makes one, at the second try if the first fails. -/
def findSpider (env : Env Re) (confFn : CString) : Run Re (Nat × Bool) := do
  let w ← Prog.get
  let h := sfConfsetSearch w.confset confFn
  let s ← h.elim (spiderInit env confFn) fun h => pure (w.confset.data h).body.2.s
  let s ← s.elim (spiderInit env confFn) fun o => pure (some o)
  let o ← Prog.ofOption s
  pure (o, h.isSome)

/-- `sf_proc_start_spider(s_new)`, with what the entry designates. -/
def startNested (env : Env Re) (fuel : Nat) (start : Nat → Run Re Unit) (o : Nat) (ns : NewSpider)
    (url : Option CString) : Run Re Unit := do
  let w ← Prog.get
  let designated :=
    match url with
    | some url => [url]
    | none => inputUrls env fuel w ns.finFn
  Prog.log [.start o designated w]
  start o

/-- The call, one `spider_level` down. -/
def callSpider (env : Env Re) (fuel : Nat) (start : Nat → Run Re Unit) (o : Nat) (ns : NewSpider)
    (url : Option CString) : Run Re Unit := do
  Prog.modify fun w => { w with spiderLevel := w.spiderLevel + 1 }
  startNested env fuel start o ns url
  Prog.modify fun w => { w with spiderLevel := w.spiderLevel - 1 }

/-- `sf_confset_insert(h_new)`. -/
def enterConf (r : Ref) (confFn : CString) (o : Nat) : Run Re Unit := do
  let _ ← poolOf r
  Prog.modify fun w => { w with confset := sfConfsetInsert w.confset confFn ⟨some o, 0⟩ }

/-- An entry from the assignment of its input file on. -/
def runEntry (env : Env Re) (fuel : Nat) (start : Nat → Run Re Unit) (r : Ref) (ns : NewSpider)
    (confFn : CString) (o : Nat) (known : Bool) (url : Option CString) : Run Re Unit := do
  assignInput env fuel r o ns.finFn
  let s ← spider r
  update (.nested o) fun s' => { s' with varHandle := s.varHandle }
  if known then pure () else enterConf r confFn o
  callSpider env fuel start o ns url
  freeStarturl r o

/-- One `new_spider` entry. -/
def newSpider (env : Env Re) (fuel : Nat) (start : Nat → Run Re Unit) (r : Ref)
    (ns : NewSpider) : Run Re Unit := do
  let confFn ← Prog.ofOption ns.confFn
  let (o, known) ← findSpider env confFn
  match ns.urlExp with
  | some urlExp => do
    let url ← assignStarturl fuel r o urlExp
    runEntry env fuel start r ns confFn o known (some url)
  | none => runEntry env fuel start r ns confFn o known none

/-! ## Matches and rules -/

/-- What follows the captures, unless the uniq key was known. -/
def afterMatch (env : Env Re) (fuel : Nat) (start : Nat → Run Re Unit) (r : Ref) (id : RuleId)
    (rule : Rule Re) (texts : List CString) : Run Re Unit := do
  let dup ←
    match rule.uniq with
    | some uniq => uniqStep fuel r id texts uniq
    | none => pure false
  if dup then pure ()
  else do
    Prog.each (runTrigger env fuel r) rule.trigger
    Prog.each (newSpider env fuel start r) rule.ns

/-- The captures of a match and what follows them. -/
def matchBody (env : Env Re) (fuel : Nat) (start : Nat → Run Re Unit) (r : Ref) (id : RuleId)
    (rule : Rule Re) (m : Match) : Run Re Unit := do
  let texts ← captures env fuel r rule.re m rule.sfcap
  afterMatch env fuel start r id rule texts

/-- The work of one match. -/
def oneMatch (env : Env Re) (fuel : Nat) (start : Nat → Run Re Unit) (r : Ref) (id : RuleId)
    (rule : Rule Re) (m : Match) : Run Re Unit :=
  match rule.jsonNew with
  | some name =>
    around [.objectBegin, .key name.bytes, .arrayBegin] [.arrayEnd, .objectEnd]
      (matchBody env fuel start r id rule m)
  | none => matchBody env fuel start r id rule m

/-- `while (repeat++ < pcre->repeat)`, with the rounds left. -/
def repeatLoop (env : Env Re) (fuel : Nat) (start : Nat → Run Re Unit) (r : Ref) (id : RuleId)
    (rule : Rule Re) : Nat → Buffers → Run Re Buffers
  | 0, b => pure b
  | n + 1, b => do
    let found ← exec env rule.re (b.of rule)
    match found with
    | none => do
      Prog.each (forget fuel r) rule.sfcap
      pure b
    | some m => do
      oneMatch env fuel start r id rule m
      repeatLoop env fuel start r id rule n (if rule.movetoend then b.move rule m.end_ else b)

/-- The rules of a policy, from the number `i` on. -/
def ruleLoop (env : Env Re) (fuel : Nat) (start : Nat → Run Re Unit) (r : Ref) (policy : Nat) :
    Nat → List (Rule Re) → Buffers → Run Re Unit
  | _, [], _ => pure ()
  | i, rule :: rules, b => do
    let b ← repeatLoop env fuel start r (policy, i) rule rule.repeat_.toNat b
    ruleLoop env fuel start r policy (i + 1) rules b

/-- `sf_pcre_perform(s, p, url, buf, buflen, hdrbuf, hdrlen)`. -/
def sfPcrePerform (env : Env Re) (fuel : Nat) (start : Nat → Run Re Unit) (r : Ref) (i : Nat)
    (p : Policy Re) (url : CString) (page : Fetched) : Run Re Unit :=
  ruleLoop env fuel start r i 0 p.pcreRoot
    ⟨⟨url.bytes, url.bytes.length⟩, ⟨page.header, page.header.length⟩,
      ⟨page.body, page.body.length⟩⟩

end SpiderFrame.Page
