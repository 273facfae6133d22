import SpiderFrame.Base.Regex
import SpiderFrame.Page.Links
import SpiderFrame.Queue.Record

/-!
# The patterns of `sf_pcre.c`

`PATTERN_URL`, `PATTERN_HOST` and `PATTERN_HOSTPATH` as regular expressions, and PCRE as a matcher
of such expressions. The patterns begin with `(?im)`: letters match in both cases, and there is
no `^` or `$` for which lines would matter. `.` is any byte but a newline.
-/

namespace SpiderFrame.Url
open SpiderFrame.Base SpiderFrame.Queue SpiderFrame.Page

/-- A compiled pattern: the expression, and the numbers of its named groups. -/
structure Pattern where
  regex : Regex Byte
  names : List (List Byte × Nat)

/-- The code of a match is one more than the number of its last group. A named group with a
smaller number that was not taken is empty. -/
def regexPcre : Pcre Pattern where
  exec re subject :=
    match re.regex.search subject with
    | none => (-1, [])
    | some (start, t) =>
      ((t.groups.map Prod.fst).foldr max 0 + 1, [start, subject.length - t.rest.length])
  getNamedSubstring re subject m name :=
    match re.names.lookup name.bytes, re.regex.search subject with
    | some n, some (_, t) =>
      if (n : Int) < m.1 then some (.ofBytes ((t.groups.lookup n).getD [])) else none
    | _, _ => none

/-! ## Pieces -/

def byte (b : Byte) : Regex Byte := .letter (· == b)

/-- A small letter in both cases. -/
def caseless (b : Byte) : Regex Byte := .letter fun c => c == b || c == b - 32#8

def word (bs : List Byte) : Regex Byte := bs.foldr (fun b r => .seq (caseless b) r) .empty

/-- `\w`. -/
def isWord (b : Byte) : Bool :=
  isDigit b || (65#8 ≤ b && b ≤ 90#8) || (97#8 ≤ b && b ≤ 122#8) || b == 95#8

/-- `[\w\.-]`. -/
def hostByte (b : Byte) : Bool := isWord b || b == 46#8 || b == 45#8

/-- `[\w\-\.,%]` and `[\w\-\.,%#&+=]`. -/
def pathByte (b : Byte) : Bool := hostByte b || b == 44#8 || b == 37#8
def queryByte (b : Byte) : Bool :=
  pathByte b || b == 35#8 || b == 38#8 || b == 43#8 || b == 61#8

/-- `[^'"\s]`. -/
def linkByte (b : Byte) : Bool := b != 39#8 && b != 34#8 && !isSpace b

/-- `http` and `https`. -/
def http : List Byte := [104#8, 116#8, 116#8, 112#8]
def https : List Byte := [104#8, 116#8, 116#8, 112#8, 115#8]

/-- `(http|https)`. -/
def schemeRegex : Regex Byte := .group 2 (.alt (word http) (word https))

/-- `://` before the rest of a pattern. -/
def slashes (r : Regex Byte) : Regex Byte :=
  .seq (byte 58#8) (.seq (byte 47#8) (.seq (byte 47#8) r))

/-- `[\w\.-]+`. -/
def hostRegex : Regex Byte := .plus (.letter hostByte)

/-- `(:\d+)?`. -/
def portRegex : Regex Byte := .opt (.group 3 (.seq (byte 58#8) (.plus (.letter isDigit))))

/-! ## Patterns -/

/-- `url` and `hrefurl`. -/
def urlName : List Byte := [117#8, 114#8, 108#8]
def hrefurlName : List Byte := [104#8, 114#8, 101#8, 102#8, 117#8, 114#8, 108#8]

/-- `(http|https)://[\w\.\-]+(:\d+)?(/[\w\-\.,%]*)*(\??[\w\-\.,%#&+=]*)`. -/
def absoluteUrl : Regex Byte :=
  .seq schemeRegex (slashes (.seq hostRegex (.seq portRegex
    (.seq (.star (.group 4 (.seq (byte 47#8) (.star (.letter pathByte)))))
      (.group 5 (.seq (.opt (byte 63#8)) (.star (.letter queryByte))))))))

/-- `href\s*=\s*['\"](?<hrefurl>([^'\"\s]*))`. -/
def hrefUrl : Regex Byte :=
  .seq (word [104#8, 114#8, 101#8, 102#8]) (.seq (.star (.letter isSpace)) (.seq (byte 61#8)
    (.seq (.star (.letter isSpace)) (.seq (.letter fun b => b == 39#8 || b == 34#8)
      (.group 6 (.group 7 (.star (.letter linkByte))))))))

def patternUrl : Pattern where
  regex := .alt (.group 1 absoluteUrl) hrefUrl
  names := [(urlName, 1), (hrefurlName, 6)]

/-- `(http|https):\/\/[\w\.-]+(:\d+)?`. -/
def siteRegex : Regex Byte := .seq schemeRegex (slashes (.seq hostRegex portRegex))

def patternHost : Pattern where
  regex := .group 1 siteRegex
  names := [([104#8, 111#8, 115#8, 116#8], 1)]

/-- `(http|https):\/\/[\w\.-]+(:\d+)?\/?.*\/`. -/
def directoryRegex : Regex Byte :=
  .seq schemeRegex (slashes (.seq hostRegex (.seq portRegex (.seq (.opt (byte 47#8))
    (.seq (.star (.letter (· != 10#8))) (byte 47#8))))))

def patternHostpath : Pattern where
  regex := .group 1 directoryRegex
  names := [([104#8, 111#8, 115#8, 116#8, 112#8, 97#8, 116#8, 104#8], 1)]

/-- The patterns of the program, in a world outside. -/
def withPatterns (env : Env Pattern) : Env Pattern :=
  { env with
    pcre := regexPcre
    reUrl := patternUrl
    reHost := patternHost
    reHostpath := patternHostpath }

/-- A site where every page is the same. -/
def patternSite (fetched : Fetched) : Env Pattern where
  pcre := regexPcre
  reUrl := patternUrl
  reHost := patternHost
  reHostpath := patternHostpath
  confFile _ _ := none
  files _ _ := none
  fetch _ _ := fetched
  pool _ := true
  popen _ _ := none
  sticky := true
  garbageLevel _ := 0
  garbageUrl := .empty
  beyond := [0#8, 0#8, 0#8, 0#8]

/-! ## Named groups of a match -/

/-- A named group that is not behind the last group of the match. -/
theorem named_of_search (re : Pattern) {name text : List Byte} {k n : Nat} {t : Try Byte}
    (clean : 0#8 ∉ name) (named : re.names.lookup name = some k)
    (search : re.regex.search text = some (n, t))
    (reached : k ≤ (t.groups.map Prod.fst).foldr max 0) :
    regexPcre.getNamedSubstring re text (regexPcre.exec re text) (.ofBytes name) =
      some (.ofBytes ((t.groups.lookup k).getD [])) := by
  have bytes : (CString.ofBytes name).bytes = name :=
    congrArg CString.bytes (CString.ofBytes_bytes ⟨name, clean⟩)
  simp only [regexPcre, search, bytes, named]
  rw [if_pos (by omega)]

/-- A pattern that is one group, in which the match leaves a rest of the text. -/
theorem named_of_starts {r : Regex Byte} {name : List Byte} {url : CString} {rest : List Byte}
    {text : CString} (clean : 0#8 ∉ name) (starts : r.Starts url.bytes rest)
    (whole : url.bytes = text.bytes ++ rest) :
    groupOfUrl regexPcre ⟨.group 1 r, [(name, 1)]⟩ name url = some text := by
  obtain ⟨groups, found⟩ := Regex.search_group (n := 1) starts
  have front : url.bytes.take (url.bytes.length - rest.length) = text.bytes := by
    rw [whole, List.length_append, Nat.add_sub_cancel, List.take_left]
  rw [front] at found
  have fetched := named_of_search ⟨.group 1 r, [(name, 1)]⟩ clean List.lookup_cons_self found
    (le_max_left _ _)
  have match_ : matched regexPcre (some ⟨.group 1 r, [(name, 1)]⟩) url =
      some (_, regexPcre.exec ⟨.group 1 r, [(name, 1)]⟩ url.bytes) := if_pos (by
    simp only [regexPcre, found]
    omega)
  rw [groupOfUrl, match_, Option.bind_some, fetched, List.lookup_cons_self, Option.getD_some,
    CString.ofBytes_bytes]

end SpiderFrame.Url
