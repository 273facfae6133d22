import SpiderFrame.Page.Expand

/-!
# Links of a page (`sf_pcre_get_href` in `sf_pcre.c`)

The pattern of URLs is run again and again behind its last match. A group `url` is a whole URL;
a group `hrefurl` is completed by the host or the path of the page's URL, and `/../` and `/./`
are taken out. Each goes to `sf_proc_insert_url_withrange`, which for a spider without a stream
to `url.txt`, as every nested one is, follows a NULL pointer when the URL is new.
-/

namespace SpiderFrame.Page
open SpiderFrame.Base SpiderFrame.Queue

variable {Re : Type}

/-- The text before and behind the first `pat`, as `strstr` finds it. -/
def strstr (pat : List Byte) : List Byte → Option (List Byte × List Byte)
  | [] => none
  | b :: bs =>
    if pat.isPrefixOf (b :: bs) then some ([], (b :: bs).drop pat.length)
    else (strstr pat bs).map fun parts => (b :: parts.1, parts.2)

/-- What stands up to the last `/` of a text, with it. -/
def upToSlash (bs : List Byte) : Option (List Byte) :=
  if bs.contains 47#8 then some (bs.reverse.dropWhile (· != 47#8)).reverse else none

/-- The first loop of `redurceurl`: without a `/` before a `/../` it does not end, and what is
behind has to fit into `temp`. -/
def dropParents : Nat → List Byte → Option (List Byte)
  | 0, _ => none
  | fuel + 1, url =>
    match strstr [47#8, 46#8, 46#8, 47#8] url with
    | none => some url
    | some (before, rest) =>
      if rest.length < 255 then
        (upToSlash before).bind fun front => dropParents fuel (front ++ rest)
      else none

/-- The second loop. -/
def dropDots : Nat → List Byte → Option (List Byte)
  | 0, _ => none
  | fuel + 1, url =>
    match strstr [47#8, 46#8, 47#8] url with
    | none => some url
    | some (before, rest) =>
      if rest.length + 1 < 255 then dropDots fuel (before ++ 47#8 :: rest) else none

/-- `redurceurl(url)`; every round makes the URL shorter. -/
def redurceurl (url : CString) : Option CString :=
  ((dropParents (url.bytes.length + 1) url.bytes).bind fun url => dropDots (url.length + 1) url).map
    CString.ofBytes

/-- A named group of the match of a pattern on a URL: `gethost` and `gethostpath`. -/
def groupOfUrl (pcre : Pcre Re) (re : Re) (group : List Byte) (url : CString) : Option CString :=
  (matched pcre (some re) url).bind fun m =>
    pcre.getNamedSubstring re url.bytes m.2 (.ofBytes group)

/-- The group `host`. -/
def gethost (env : Env Re) (url : CString) : Option CString :=
  groupOfUrl env.pcre env.reHost [104#8, 111#8, 115#8, 116#8] url

/-- The group `hostpath`. -/
def gethostpath (env : Env Re) (url : CString) : Option CString :=
  groupOfUrl env.pcre env.reHostpath [104#8, 111#8, 115#8, 116#8, 112#8, 97#8, 116#8, 104#8] url

/-- `sf_proc_insert_url(url, level, outfile, hUrl)`, when there is a stream to write to. -/
def World.insertUrl (w : World Re) (h : Nat) (level : Int) (url : CString) : World Re :=
  let (table, urlTxt) := sfProcInsertUrl (w.urls h) w.urlTxt level url
  { w with urls := Function.update w.urls h table, urlTxt := urlTxt }

/-- `sf_proc_insert_url_withrange(s, url, level)`. -/
def insertUrl (env : Env Re) (r : Ref) (url : CString) (level : Int) : Run Re Unit := do
  let s ← spider r
  let rewrite ← Prog.ofOption (sfProcUrlRewriteRange env.pcre url s.conf.range)
  match rewrite with
  | none => pure ()
  | some rewrite => do
    let h ← Prog.ofOption s.urlHandle
    let w ← Prog.get
    if ((w.urls h).search rewrite).isNone && !s.urlFdw then Prog.halt
    else Prog.modify fun w => w.insertUrl h level rewrite

/-- The URL of an `hrefurl`, and `none` when the page's URL has no host. -/
def completeUrl (env : Env Re) (href origurl : CString) : Option CString :=
  let host :=
    match href.bytes with
    | 47#8 :: _ => gethost env origurl
    | 63#8 :: _ => some origurl
    | _ => gethostpath env origurl
  host.map fun host => .ofBytes (host.bytes ++ href.bytes)

/-- What the loop does with an `hrefurl`; `false` when it returns. -/
def useHref (env : Env Re) (r : Ref) (level : Int) (href origurl : CString) : Run Re Bool :=
  match strstr [58#8, 47#8, 47#8] href.bytes with
  | some _ => do
    insertUrl env r href level
    pure true
  | none =>
    match completeUrl env href origurl with
    | none => pure false
    | some url => do
      let _ ← poolOf r
      let url ← Prog.ofOption (redurceurl url)
      insertUrl env r url level
      pure true

/-- The loop of `sf_pcre_get_href` on the rest of the page; `freed` when `outstr` points to a
string of an earlier round. -/
def hrefLoop (env : Env Re) (r : Ref) (level : Int) (origurl : CString) :
    Nat → List Byte → Bool → Run Re Unit
  | 0, _, _ => Prog.halt
  | fuel + 1, buf, freed =>
    let m := env.pcre.exec env.reUrl buf
    let group := fun name => env.pcre.getNamedSubstring env.reUrl buf m (.ofBytes name)
    let rest := buf.drop ((m.2[1]?).getD 0).toNat
    if m.1 < 0 then pure ()
    else
      let url := group [117#8, 114#8, 108#8]
      if url = none ∧ freed then Prog.halt
      else
        match url.filter (·.bytes ≠ []) with
        | some url => do
          insertUrl env r url level
          hrefLoop env r level origurl fuel rest true
        | none =>
          match group [104#8, 114#8, 101#8, 102#8, 117#8, 114#8, 108#8] with
          | some href => do
            let goOn ← useHref env r level href origurl
            if goOn then hrefLoop env r level origurl fuel rest true else pure ()
          | none => if url = none then hrefLoop env r level origurl fuel rest false else Prog.halt

/-- `sf_pcre_get_href(s, level, buf, buflen, origurl)`. -/
def sfPcreGetHref (env : Env Re) (fuel : Nat) (r : Ref) (level : Int) (buf : List Byte)
    (origurl : CString) : Run Re Unit :=
  hrefLoop env r level origurl fuel buf false

end SpiderFrame.Page
