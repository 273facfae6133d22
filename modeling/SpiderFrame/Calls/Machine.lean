import SpiderFrame.Conf.Confset
import SpiderFrame.Crawl.Spider

/-!
# Calls of `sf_proc_start_spider` (`main.c`, `sf_pcre.c`)

Any number of top-level spiders, each with the nested spiders that its rules start. A thread is the
stack of its calls of `sf_proc_start_spider`, the innermost first. `main` creates the threads one
after the other while those that it has created run. A step is one access to shared data, as in the
model of the top-level spiders; here the queue is any bytes, rules start nested spiders, and each
spider has its streams and its pool.

What a page yields and what its rules do is the environment's: in which order they write texts of
`out_pattern` and come to `new_spider` entries, and what URLs these give. A level that nobody has
stored to is the environment's too. What the strings are that `starturl` points to and the
files of checkpoints are left out; a spider that follows a NULL pointer has no step.
-/

namespace SpiderFrame.Calls
open SpiderFrame.Base SpiderFrame.Queue SpiderFrame.Conf

/-- A top-level spider by its number, or an object of `sf_spider_init` for a nested one. -/
inductive Ref where
  | top (k : Nat)
  | nested (o : Nat)
  deriving DecidableEq

/-- The fields of `sf_spider_t` that calls read and write; of a stream, whether it is not NULL. -/
structure Spider where
  conf : Crawl.Conf
  starturl : Option CString
  urlFdw : Bool
  patternFp : Bool
  eof : Bool
  pool : Option Nat

/-- `sf_newspider_t`, with what its `url_exp` expands to and the URLs of its input file, if it has
them. -/
structure Entry where
  confFn : CString
  url : Option CString
  input : Option (List CString)
  deriving DecidableEq

/-- What a call does next. -/
inductive Pc where
  /-- `s->pool = NULL` -/
  | enter
  /-- the URL: from `starturl`, or by `sf_global_scan_url` -/
  | take
  /-- it returned `EOF`: `s->eof = 1` -/
  | sawEof
  /-- `ngx_destroy_pool` -/
  | pool
  /-- `ngx_create_pool` -/
  | create
  /-- `s->eof = 0` -/
  | clear
  /-- `sf_curl_url` -/
  | fetch
  /-- the call of `sf_pcre_get_href` with `level + 1` -/
  | href (links : List Url)
  /-- its loop, with these URLs still to be offered -/
  | links (todo : List Url)
  /-- `sf_proc_insert_url` between its two sections -/
  | write (url : Url) (todo : List Url)
  /-- the policies -/
  | rules
  /-- an entry for the object `o`: `starturl` and the input file -/
  | assign (o : Nat) (entry : Entry) (known : Bool)
  /-- `ngx_pstrdup` of the name -/
  | copy (o : Nat) (confFn : CString)
  /-- `sf_confset_insert`, with the name from this pool -/
  | insert (o : Nat) (confFn : CString) (pool : Nat)
  /-- `sf_proc_start_spider(s_new)` -/
  | call (o : Nat)
  /-- the test of the limits after a page -/
  | limit
  /-- it was true: `s->eof = 1` -/
  | setEof
  /-- the test of the limits after the inner loop -/
  | outer
  /-- `sf_all_spiders_eof`, at the flag of the spider `k` -/
  | allEof (k : Nat)
  /-- `SAFE_FCLOSE(s->pattern_fp)`, and the return -/
  | close
  deriving DecidableEq

/-- A call of `sf_proc_start_spider(s)`. `stored` says that the call has stored to `level`. -/
structure Frame where
  self : Ref
  pc : Pc
  level : Int
  stored : Bool

/-- The data of the process. `listed` counts the entries of `spider_list`, `keyPool` is the pool of
the string `conf_fn` of the entry for each configuration file, and `threads` are the stacks. -/
structure World where
  spiderCnt : Nat
  created : Nat
  listed : Nat
  spiders : Ref → Spider
  nestedCnt : Nat
  threads : Nat → List Frame
  table : UrlTable
  urlTxt : List Byte
  reader : Reader
  line : Int
  confset : Confset
  keyPool : CString → Nat
  poolCnt : Nat
  destroyed : List Nat

/-- What the environment decides in a step. -/
inductive Act where
  | tick
  | pool (ok : Bool)
  | page (ok : Bool) (links : List Url)
  | pattern
  | entry (entry : Entry)
  | done
  | call (level : Int)

namespace World

variable (w : World)

def setSpider (r : Ref) (s : Spider) : World := { w with spiders := Function.update w.spiders r s }

/-- `sf_global_scan_url(&level, url)`, and the test of its result. -/
def sfGlobalScanUrl (f : Frame) : World × Frame :=
  let (r, reader, line) := Queue.sfGlobalScanUrl w.urlTxt w.reader w.line
  ({ w with reader := reader, line := line },
    { f with
      pc := if r.rc = EOF then .sawEof else .pool
      level := r.level.getD f.level
      stored := f.stored || r.level.isSome })

/-- `ngx_destroy_pool(s->pool)`, if it is not NULL; `s->pool` stays. -/
def destroyPool (r : Ref) : World :=
  { w with destroyed := (w.spiders r).pool.toList ++ w.destroyed }

/-- `s->pool = ngx_create_pool(...)`. -/
def createPool (r : Ref) (ok : Bool) : World :=
  { w.setSpider r { w.spiders r with pool := if ok then some w.poolCnt else none } with
    poolCnt := w.poolCnt + 1 }

/-- `sf_spider_init(conf_fn)` for a configuration. -/
def newSpider (conf : Crawl.Conf) : World :=
  { w.setSpider (.nested w.nestedCnt) ⟨conf, none, false, false, false, none⟩ with
    nestedCnt := w.nestedCnt + 1 }

/-- `sf_confset_search`, and `sf_spider_init` when it finds no object. When that returns NULL it is
called again, for the same file: it returns NULL again, and there is no step. -/
def findSpider (files : CString → Option Crawl.Conf) (confFn : CString) :
    Option (World × Nat × Bool) :=
  let h := sfConfsetSearch w.confset confFn
  match h.bind fun h => (w.confset.data h).body.2.s with
  | some o => some (w, o, h.isSome)
  | none => (files confFn).map fun conf => (w.newSpider conf, w.nestedCnt, h.isSome)

/-- `starturl` of the object and its `url_fn`, from the pool of the page, and its input file. -/
def assign (o : Nat) (entry : Entry) : World :=
  let s := w.spiders (.nested o)
  { w.setSpider (.nested o)
      { s with starturl := if entry.url.isSome then entry.url else s.starturl } with
    table := (entry.input.getD []).foldl (fun table url => (urlSection table url).1) w.table }

/-- `sf_confset_insert(h_new)`, with the name from this pool. -/
def enterConf (confFn : CString) (o pool : Nat) : World :=
  { w with
    confset := sfConfsetInsert w.confset confFn ⟨some o, 0⟩
    keyPool := if (sfConfsetSearch w.confset confFn).isSome then w.keyPool
      else Function.update w.keyPool confFn pool }

end World

/-- One step of a call, and the calls of the thread that take its place. -/
def frameStep (files : CString → Option Crawl.Conf) (w : World) (f : Frame) (act : Act) :
    Option (World × List Frame) :=
  let s := w.spiders f.self
  match f.pc, act with
  | .enter, .tick => some (w.setSpider f.self { s with pool := none }, [{ f with pc := .take }])
  | .take, .tick =>
    match s.starturl with
    | some _ => some (w, [{ f with pc := .pool }])
    | none => some ((w.sfGlobalScanUrl f).1, [(w.sfGlobalScanUrl f).2])
  | .sawEof, .tick => some (w.setSpider f.self { s with eof := true }, [{ f with pc := .outer }])
  | .pool, .tick => some (w.destroyPool f.self, [{ f with pc := .create }])
  | .create, .pool ok =>
    some (w.createPool f.self ok, [{ f with pc := if ok then .clear else .outer }])
  | .clear, .tick => some (w.setSpider f.self { s with eof := false }, [{ f with pc := .fetch }])
  | .fetch, .page ok links =>
    some (w, [{ f with pc := if !ok && s.conf.urlFeedback then .outer else .href links }])
  | .href links, .tick => some (w, [{ f with pc := .links links }])
  | .links [], .tick => some (w, [{ f with pc := .rules }])
  | .links (url :: todo), .tick =>
    let (table, new) := urlSection w.table url.str
    some ({ w with table := table }, [{ f with pc := if new then .write url todo else .links todo }])
  | .write url todo, .tick =>
    if s.urlFdw then
      some ({ w with urlTxt := fileSection w.urlTxt (f.level + 1) url.str },
        [{ f with pc := .links todo }])
    else none
  | .rules, .pattern => if s.patternFp then some (w, [f]) else none
  | .rules, .entry entry =>
    (w.findSpider files entry.confFn).map fun (w, o, known) =>
      (w, [{ f with pc := .assign o entry known }])
  | .rules, .done => some (w, [{ f with pc := .limit }])
  | .assign o entry known, .tick =>
    if (entry.url.isSome || entry.input.isSome) && s.pool.isNone then none
    else
      some (w.assign o entry, [{ f with pc := if known then .call o else .copy o entry.confFn }])
  | .copy o confFn, .tick =>
    s.pool.map fun pool => (w, [{ f with pc := .insert o confFn pool }])
  | .insert o confFn pool, .tick =>
    some (w.enterConf confFn o pool, [{ f with pc := .call o }])
  | .call o, .call level =>
    some (w, [⟨.nested o, .enter, level, false⟩, { f with pc := .rules }])
  | .limit, .tick =>
    some (w, [{ f with pc := if Crawl.limitReached s.conf f.level w.line then .setEof else .take }])
  | .setEof, .tick => some (w.setSpider f.self { s with eof := true }, [{ f with pc := .outer }])
  | .outer, .tick =>
    some (w, [{ f with
      pc := if Crawl.limitReached s.conf f.level w.line then .close else .allEof 0 }])
  | .allEof k, .tick =>
    if k < w.spiderCnt then
      if k < w.listed then
        some (w, [{ f with pc := if (w.spiders (.top k)).eof then .allEof (k + 1) else .take }])
      else none
    else some (w, [{ f with pc := .close }])
  | .close, .tick => some (w.setSpider f.self { s with patternFp := false }, [])
  | _, _ => none

/-! ## Threads -/

def World.setThread (w : World) (k : Nat) (fs : List Frame) : World :=
  { w with threads := Function.update w.threads k fs }

/-- `sf_spider_create(i, conf_fn)`. -/
def World.create (w : World) (conf : Crawl.Conf) (level : Int) : World :=
  { (w.setSpider (.top w.created) ⟨conf, none, true, true, false, none⟩).setThread w.created
      [⟨.top w.created, .enter, level, false⟩] with
    created := w.created + 1 }

/-- A step of the loop of `main` that creates the spiders, and stores each in `spider_list`. -/
def mainStep (conf : Crawl.Conf) (w : World) : Act → Option World
  | .call level =>
    if w.created = w.listed ∧ w.created < w.spiderCnt then some (w.create conf level) else none
  | .tick => if w.listed < w.created then some { w with listed := w.listed + 1 } else none
  | _ => none

/-- One step: of `main`, or of the thread `k`. -/
def step (conf : Crawl.Conf) (files : CString → Option Crawl.Conf) (w : World)
    (move : Option Nat × Act) : Option World :=
  match move.1 with
  | none => mainStep conf w move.2
  | some k =>
    match w.threads k with
    | [] => none
    | f :: rest =>
      (frameStep files w f move.2).map fun next => next.1.setThread k (next.2 ++ rest)

/-- The data behind `sf_global_init` and `sf_confset_init`, for `spiderCnt` spiders. -/
def start (spiderCnt : Nat) (sh : Crawl.Shared) : World where
  spiderCnt := spiderCnt
  created := 0
  listed := 0
  spiders _ := ⟨⟨0, 0, false⟩, none, false, false, false, none⟩
  nestedCnt := 0
  threads _ := []
  table := sh.table
  urlTxt := sh.urlTxt
  reader := sh.reader
  line := sh.line
  confset := sfConfsetInit
  keyPool _ := 0
  poolCnt := 0
  destroyed := []

end SpiderFrame.Calls
