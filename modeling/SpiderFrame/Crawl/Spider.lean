import SpiderFrame.Base.Run
import SpiderFrame.Queue.Load
import SpiderFrame.Queue.Reader

/-!
# The spiders (`main.c`)

Any number of top-level spiders run `sf_proc_start_spider` over one `url.txt`, one table of
URLs and one counter `line`. A step is one access of one spider to shared data: a critical
section, a read of `line`, or a write or read of an `eof` flag. Everything between two such
accesses is the spider's own. Spiders with a `starturl` are not part of the model.

What a page is and where it comes from is the environment's: `ngx_create_pool` and
`sf_curl_url` succeed or fail, and a page yields the URLs that `sf_pcre_get_href` offers to
`sf_proc_insert_url` after range filtering and rewriting, in order. The level of a spider
that has not scanned yet is whatever the stack held.

`Log` records what has happened. No step reads it.
-/

namespace SpiderFrame.Crawl
open SpiderFrame.Base SpiderFrame.Queue

/-- The fields of `sf_conf_t` that decide the course of the loop. -/
structure Conf where
  urlLevel : Int
  urlCount : Int
  urlFeedback : Bool
  deriving DecidableEq

/-- What a spider does next. -/
inductive Pc where
  /-- `sf_global_scan_url` -/
  | scan
  /-- it returned `EOF`: `s->eof = 1` -/
  | sawEof
  /-- `ngx_create_pool` -/
  | pool
  /-- `s->eof = 0` -/
  | clear
  /-- `sf_curl_url` -/
  | fetch
  /-- `sf_pcre_get_href`, with these URLs still to be offered -/
  | links (todo : List Url)
  /-- `sf_proc_insert_url` between its two sections -/
  | write (url : Url) (todo : List Url)
  /-- the policies -/
  | policies
  /-- the test of the limits after a page -/
  | limit
  /-- it was true: `s->eof = 1` -/
  | setEof
  /-- `sf_do_checkpoint(line)` -/
  | checkpoint
  /-- `sf_save_chkpoint(s->conf_fn, line)` -/
  | save
  /-- the test of the limits after the inner loop -/
  | outer
  /-- `sf_all_spiders_eof`, at the flag of the spider `k` -/
  | allEof (k : Nat)
  /-- left the outer loop, by the test of the limits or by `sf_all_spiders_eof` -/
  | left (byLimit : Bool)
  deriving DecidableEq

/-- `sf_spider_t`, with the stack of `sf_proc_start_spider`. `record` is the number of its
last scan in the log. -/
structure Spider where
  pc : Pc
  level : Int
  url : CString
  eof : Bool
  record : Option Nat

/-- A call of `sf_global_scan_url` that did not return `EOF`. -/
structure Scan where
  spider : Nat
  level : Int
  url : CString
  deriving DecidableEq

/-- The scans in order; the records written, with their writers; the URLs offered; and for
each scan that is done with, whether the page went through links and policies. -/
structure Log where
  scanned : List Scan
  appended : List (Nat × Record)
  offered : List Url
  ended : List (Nat × Bool)

/-- The data all spiders share; `reader` is `url_fdr`. -/
structure Shared where
  table : UrlTable
  urlTxt : List Byte
  reader : Reader
  line : Int
  chkpoints : List Int
  log : Log

structure World where
  shared : Shared
  spiders : List Spider

/-- What the environment decides in a step. -/
inductive Act where
  | tick
  | pool (ok : Bool)
  | page (ok : Bool) (links : List Url)
  deriving DecidableEq

/-! ## `sf_global_init` -/

/-- `sf_global_init(skipline)`, for the part that concerns `url.txt`. -/
def sfGlobalInit (sticky : Bool) (fuel : Nat) (garbage : CString) (skipline : Int)
    (bytes : List Byte) : Option Shared :=
  (sfProcInitUrlEntry fuel garbage bytes).map fun table =>
    { table := table
      urlTxt := bytes
      reader := (Reader.fopen sticky).skip bytes skipline.toNat
      line := skipline
      chkpoints := []
      log := ⟨[], [], [], []⟩ }

theorem sfGlobalInit_encodeAll (sticky : Bool) (init : List Record) (skipline : Int) :
    (sfGlobalInit sticky (init.length + 1) .empty skipline (encodeAll init)).isSome := by
  rw [sfGlobalInit, Option.isSome_map]
  exact sfProcInitUrlEntry_encodeAll init .empty

def startSpider (level : Int) : Spider := ⟨.scan, level, .empty, false, none⟩

/-- One spider for each garbage level, started on a file of well-formed records. -/
def start (sticky : Bool) (init : List Record) (skipline : Int) (levels : List Int) : World where
  shared := (sfGlobalInit sticky (init.length + 1) .empty skipline (encodeAll init)).get
    (sfGlobalInit_encodeAll sticky init skipline)
  spiders := levels.map startSpider

/-! ## `sf_proc_start_spider` -/

/-- `sf_global_scan_url(&level, url)` by the spider `i`, and the test of its result. -/
def sfGlobalScanUrl (i : Nat) (sh : Shared) (s : Spider) : Shared × Spider :=
  let (r, reader, line) := Queue.sfGlobalScanUrl sh.urlTxt sh.reader sh.line
  let sh := { sh with reader := reader, line := line }
  let s := { s with level := r.level.getD s.level, url := r.url.getD s.url }
  if r.rc = EOF then (sh, { s with pc := .sawEof })
  else
    ({ sh with log.scanned := sh.log.scanned ++ [⟨i, s.level, s.url⟩] },
      { s with pc := .pool, record := some sh.log.scanned.length })

/-- `level > conf->url_level || line >= conf->url_count`. -/
def limitReached (conf : Conf) (level line : Int) : Bool :=
  level > conf.urlLevel || line ≥ conf.urlCount

/-- `sf_do_checkpoint(line)`. -/
def sfDoCheckpoint (line : Int) : Bool := line.tmod 10 == 0

/-- The record of the spider is done with. -/
def finish (s : Spider) (processed : Bool) (log : Log) : Log :=
  match s.record with
  | none => log
  | some n => { log with ended := log.ended ++ [(n, processed)] }

/-- One step of the spider `i`. -/
def spiderStep (conf : Conf) (spiders : List Spider) (i : Nat) (sh : Shared) (s : Spider)
    (act : Act) : Option (Shared × Spider) :=
  match s.pc, act with
  | .scan, .tick => some (sfGlobalScanUrl i sh s)
  | .sawEof, .tick => some (sh, { s with pc := .outer, eof := true })
  | .pool, .pool true => some (sh, { s with pc := .clear })
  | .pool, .pool false => some ({ sh with log := finish s false sh.log }, { s with pc := .outer })
  | .clear, .tick => some (sh, { s with pc := .fetch, eof := false })
  | .fetch, .page ok links =>
    if !ok && conf.urlFeedback then
      some ({ sh with log := finish s false sh.log }, { s with pc := .outer })
    else some (sh, { s with pc := .links links })
  | .links [], .tick => some (sh, { s with pc := .policies })
  | .links (url :: todo), .tick =>
    let (table, new) := urlSection sh.table url.str
    some ({ sh with table := table, log.offered := sh.log.offered ++ [url] },
      { s with pc := if new then .write url todo else .links todo })
  | .write url todo, .tick =>
    some ({ sh with
        urlTxt := fileSection sh.urlTxt (s.level + 1) url.str
        log.appended := sh.log.appended ++ [(i, ⟨s.level + 1, url⟩)] },
      { s with pc := .links todo })
  | .policies, .tick => some ({ sh with log := finish s true sh.log }, { s with pc := .limit })
  | .limit, .tick =>
    some (sh, { s with pc := if limitReached conf s.level sh.line then .setEof else .checkpoint })
  | .setEof, .tick => some (sh, { s with pc := .outer, eof := true })
  | .checkpoint, .tick => some (sh, { s with pc := if sfDoCheckpoint sh.line then .save else .scan })
  | .save, .tick => some ({ sh with chkpoints := sh.chkpoints ++ [sh.line] }, { s with pc := .scan })
  | .outer, .tick =>
    some (sh, { s with pc := if limitReached conf s.level sh.line then .left true else .allEof 0 })
  | .allEof k, .tick =>
    match spiders[k]? with
    | none => some (sh, { s with pc := .left false })
    | some other => some (sh, { s with pc := if other.eof then .allEof (k + 1) else .scan })
  | _, _ => none

/-- One step of the crawl: the spider that moves and what its environment decides. -/
def step (conf : Conf) (c : World) (act : Nat × Act) : Option World :=
  match c.spiders[act.1]? with
  | none => none
  | some s =>
    (spiderStep conf c.spiders act.1 c.shared s act.2).map fun next =>
      ⟨next.1, c.spiders.set act.1 next.2⟩

/-- `n` steps of the spider `i` in which the environment has nothing to decide. -/
def ticks (i n : Nat) : List (Nat × Act) := List.replicate n (i, .tick)

/-- The states that any interleaving reaches. -/
abbrev Reachable (sticky : Bool) (conf : Conf) (init : List Record) (skipline : Int)
    (levels : List Int) (c : World) : Prop :=
  Reach (step conf) Any (start sticky init skipline levels) c

end SpiderFrame.Crawl
