import SpiderFrame.Base.Prog
import SpiderFrame.Conf.Confset
import SpiderFrame.Crawl.Spider
import SpiderFrame.Json.Printer
import SpiderFrame.Nested.StartUrl
import SpiderFrame.Queue.Rewrite
import SpiderFrame.Var.Map

/-!
# One spider and the spiders it starts

The data of a run with one top-level spider: configurations, spider objects, tables, files and
the strings that `starturl` points to. What comes from outside is in `Env`: the libraries PCRE
and libcurl, other programs, configuration files and other files, and what memory holds that
nobody has written.

A program stops (`Prog.halt`) where the source is undefined: a NULL pointer is followed, a
buffer overflows, a freed string is read. Names in the table of configuration files and
`url_fn` are taken to stay readable when the pool of their page is gone.
-/

namespace SpiderFrame.Page
open SpiderFrame.Base SpiderFrame.Queue SpiderFrame.Hash SpiderFrame.Var SpiderFrame.Conf

/-! ## Configurations -/

/-- `sf_pcre_capture_t`; every attribute may be missing. -/
structure Capture where
  capstr : Option CString
  outPattern : Option CString
  jsonOut : Option CString
  storeAs : Option CString
  contentAs : Option CString

/-- `sf_newspider_t`. -/
structure NewSpider where
  confFn : Option CString
  urlExp : Option CString
  finFn : Option CString

/-- `sf_pcre_trigger_t`. -/
structure Trigger where
  program : Option CString
  args : Option CString
  storeAs : Option CString

/-- `sf_pcre_t`. -/
structure Rule (Re : Type) where
  re : Re
  urlmatch : Bool
  hdrmatch : Bool
  movetoend : Bool
  repeat_ : Int
  uniq : Option CString
  jsonNew : Option CString
  sfcap : List Capture
  ns : List NewSpider
  trigger : List Trigger

/-- `sf_conf_range_t` as `sf_conf_policy_range` loads it, without `url_rewrite`. -/
structure PolicyRange (Re : Type) where
  urlWhite : Re
  urlBlack : Option Re

/-- `sf_conf_policy_t`; a range of a policy is its white pattern. -/
structure Policy (Re : Type) where
  pcreRoot : List (Rule Re)
  policyRange : List Re

/-- `sf_conf_t`. -/
structure Conf (Re : Type) extends Crawl.Conf where
  method : CString
  postData : CString
  userAgent : CString
  urlSuffix : Option CString
  policy : List (Policy Re)
  range : List (Range Re)
  headers : List CString

/-! ## Spiders -/

/-- A spider: the top-level one, or an object of `sf_spider_init` for a nested one. -/
inductive Ref where
  | top
  | nested (o : Nat)
  deriving DecidableEq

/-- `sf_spider_t`. Of a stream that several spiders share, whether it is not NULL. -/
structure Spider (Re : Type) where
  confFn : CString
  conf : Conf Re
  starturl : Option Nat
  urlFn : Option CString
  urlFdw : Bool
  urlHandle : Option Nat
  varHandle : Option Nat
  patternFp : Bool
  eof : Bool
  pool : Option Nat

/-- The keys of `uniq` rules. -/
abbrev Uniq := NameTable 16 8 Unit

/-- The data of the process. `unparseUrl` is the static buffer of `sf_proc_output_unparse`, and
`clock` counts what has come from outside. -/
structure World (Re : Type) where
  vars : VarMem
  uniq : Uniq
  urls : Nat → UrlTable
  urlsCnt : Nat
  urlTxt : List Byte
  reader : Reader
  line : Int
  confset : Confset
  top : Spider Re
  nested : Nat → Spider Re
  nestedCnt : Nat
  strings : Nat → Nested.Text
  stringCnt : Nat
  poolCnt : Nat
  spiderLevel : Int
  unparseUrl : CString
  clock : Nat

namespace World

variable {Re : Type} (w : World Re)

def spider : Ref → Spider Re
  | .top => w.top
  | .nested o => w.nested o

def setSpider (s : Spider Re) : Ref → World Re
  | .top => { w with top := s }
  | .nested o => { w with nested := Function.update w.nested o s }

/-- What `fscanf` on `url_fdr` gets to read. -/
def unread : List Byte := w.reader.ahead w.urlTxt

/-- The string that a pointer leads to, if it was not freed. -/
def text (p : Nat) : Option CString := if (w.strings p).live then some (w.strings p).text else none

end World

/-! ## Outside -/

/-- What `sf_curl_url` asks for. -/
structure Request where
  url : CString
  post : Option CString
  userAgent : CString
  headers : List CString

/-- Whether the fetch succeeded, and what it has left in the two buffers. -/
structure Fetched where
  ok : Bool
  body : List Byte
  header : List Byte

/-- A configuration file: the configuration and its variables. -/
structure ConfFile (Re : Type) where
  conf : Conf Re
  vars : List (CString × CString)

/-- The numbers count what has come from outside before. `files` is what is in a file other than
`url.txt`, `none` when it cannot be opened; `sticky` is the kind of the C library's streams, and
`beyond` are the four bytes behind the string constant `"url"`. -/
structure Env (Re : Type) where
  pcre : Pcre Re
  reUrl : Re
  reHost : Re
  reHostpath : Re
  confFile : Nat → CString → Option (ConfFile Re)
  files : Nat → CString → Option (List Byte)
  fetch : Nat → Request → Fetched
  pool : Nat → Bool
  popen : Nat → CString → Option (List Byte)
  sticky : Bool
  garbageLevel : Nat → Int
  garbageUrl : CString
  beyond : List Byte

/-! ## What happens -/

/-- The place of a rule in a configuration: the number of its policy and its number there. -/
abbrev RuleId := Nat × Nat

/-- A call of the printer or of `sf_json_free_print_buf`; a text written to the pattern file; the
uniq key of a match, with the texts that its captures have written; a page fetched at a
`spider_level`, by the URL before its suffix; a nested run about to start, with the records of
its input file or its URL; a saved checkpoint. -/
inductive Event (Re : Type) where
  | json (op : Json.Op)
  | jsonFree
  | pattern (text : CString)
  | uniq (spider : Ref) (rule : RuleId) (key : CString) (texts : List CString)
  | fetch (level : Int) (url : CString)
  | start (o : Nat) (designated : List CString) (w : World Re)
  | chkpoint (confFn : CString) (line : Int)

/-- A part of the run. -/
abbrev Run (Re : Type) : Type → Type := Prog (World Re) (Event Re)

variable {Re : Type}

def json (op : Json.Op) : Run Re Unit := Prog.log [.json op]

/-- Calls of the printer before and behind a part of the run. -/
def around (before behind : List Json.Op) (m : Run Re Unit) : Run Re Unit := do
  Prog.each json before
  m
  Prog.each json behind

/-- A value from outside, and the clock goes on. -/
def outside {α : Type} (f : Nat → α) : Run Re α := do
  let w ← Prog.get
  Prog.modify fun w => { w with clock := w.clock + 1 }
  pure (f w.clock)

def spider (r : Ref) : Run Re (Spider Re) := do
  let w ← Prog.get
  pure (w.spider r)

/-- A store to a field of a spider. -/
def update (r : Ref) (f : Spider Re → Spider Re) : Run Re Unit :=
  Prog.modify fun w => w.setSpider (f (w.spider r)) r

/-- `s->pool`, to allocate from. -/
def poolOf (r : Ref) : Run Re Nat := do
  let s ← spider r
  Prog.ofOption s.pool

end SpiderFrame.Page
