import SpiderFrame.CString

/-!
# The library PCRE

What the spiders use of it: a compiled pattern is run on a text, and the text of a named group
is fetched from a match. The library is not part of the repository, so both are parameters.
-/

namespace SpiderFrame

/-- `pcre_exec(re, NULL, subject, length, 0, 0, vector, SF_MAX_URL_VECTOR)` returns a code, which
is negative when there is no match, and fills the vector of offsets.
`pcre_get_named_substring(re, subject, vector, rc, name, &outstr)` sets `outstr`, or fails and
leaves it alone. -/
structure Pcre (Re : Type) where
  exec : Re → List Byte → Int × List Int
  getNamedSubstring : Re → List Byte → Int × List Int → CString → Option CString

/-- The pattern of one byte: it matches the first place where the byte stands, and has no
groups. -/
def bytePcre : Pcre Byte where
  exec b subject :=
    if b ∈ subject then (1, [subject.idxOf b, subject.idxOf b + 1]) else (-1, [])
  getNamedSubstring _ _ _ _ := none

/-- The first byte of a pattern, as the byte to look for. -/
def byteCompile (pattern : Option CString) : Option Byte := pattern.bind fun p => p.bytes.head?

end SpiderFrame
