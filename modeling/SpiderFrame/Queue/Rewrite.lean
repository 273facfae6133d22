import Mathlib.Data.List.Flatten
import SpiderFrame.Base.Template
import SpiderFrame.Pcre
import SpiderFrame.Queue.Table

/-!
# Ranges and rewritten URLs (`sf_proc.c`)

A link goes through the ranges of the configuration before it is queued. A black pattern that
matches drops it; the first white pattern that matches builds the URL that is queued from its
template `url_rewrite`, in which `(#name)` stands for a group of the match. A link that no
range takes is dropped, and without ranges the link itself is queued.

The new URL is written into 1024 bytes of zeroes, so from 1024 bytes on it is undefined. So is
a template in which an unknown group follows a known one, as the text of the known one is
freed twice: then there is no result (`none`).
-/

namespace SpiderFrame.Queue
open SpiderFrame.Base

variable {Re : Type}

/-- `sf_conf_range_t`. -/
structure Range (Re : Type) where
  urlWhite : Option Re
  urlBlack : Option Re
  urlRewrite : Option CString

/-- The text written so far, and whether `outstr` points to a string that has been freed. -/
structure Rewriting where
  dststr : List Byte
  freed : Bool

/-- `(#name)` as `(`, `#` and `)`. -/
abbrev rewritePieces : List Byte → List (Piece Byte) := pieces 40#8 35#8 41#8 none

/-- One round of the loop of `sf_rewrite_exp`. -/
def rewritePiece (named : CString → Option CString) (r : Rewriting) :
    Piece Byte → Option Rewriting
  | .reference name =>
    match named (.ofBytes name) with
    | some outstr => some ⟨r.dststr ++ outstr.bytes, true⟩
    | none =>
      if r.freed then none
      else some ⟨r.dststr ++ (Piece.reference name).text 40#8 35#8 41#8, false⟩
  | p => some { r with dststr := r.dststr ++ p.text 40#8 35#8 41#8 }

/-- The string in the buffer, when it fits with its NUL. -/
def buffered (bytes : List Byte) : Option CString :=
  if bytes.length < 1024 then some (.ofBytes bytes) else none

/-- `sf_rewrite_exp` for the match `m`. -/
def sfRewriteExp (pcre : Pcre Re) (varexp : Option CString) (re : Re) (buf : CString)
    (m : Int × List Int) : Option CString :=
  match varexp with
  | none => buffered buf.bytes
  | some varexp =>
    ((rewritePieces varexp.bytes).foldlM
      (rewritePiece (pcre.getNamedSubstring re buf.bytes m)) ⟨[], false⟩).bind
        fun r => buffered r.dststr

/-- A pattern that is there and matches, and its match. -/
def matched (pcre : Pcre Re) (re : Option Re) (url : CString) : Option (Re × (Int × List Int)) :=
  re.bind fun re =>
    let m := pcre.exec re url.bytes
    if 0 ≤ m.1 then some (re, m) else none

/-- The first range whose white pattern matches, with the pattern and its match. -/
def whiteRange (pcre : Pcre Re) (url : CString) (ranges : List (Range Re)) :
    Option (Range Re × Re × (Int × List Int)) :=
  ranges.findSome? fun range => (matched pcre range.urlWhite url).map (range, ·)

/-- `sf_proc_url_rewrite_range`: `none` is undefined, `some none` is `NULL`. -/
def sfProcUrlRewriteRange (pcre : Pcre Re) (url : CString) (ranges : List (Range Re)) :
    Option (Option CString) :=
  if ranges.isEmpty then some (some url)
  else if ranges.any fun range => (matched pcre range.urlBlack url).isSome then some none
  else
    match whiteRange pcre url ranges with
    | none => some none
    | some (range, re, m) => (sfRewriteExp pcre range.urlRewrite re url m).map some

/-- `sf_proc_insert_url_withrange`. -/
def sfProcInsertUrlWithrange (pcre : Pcre Re) (ranges : List (Range Re)) (t : UrlTable)
    (urlTxt : List Byte) (level : Int) (url : CString) : Option (UrlTable × List Byte) :=
  (sfProcUrlRewriteRange pcre url ranges).map fun rewrite =>
    match rewrite with
    | none => (t, urlTxt)
    | some rewrite => sfProcInsertUrl t urlTxt level rewrite

/-! ## What a rewritten URL is made of -/

/-- What a piece of a template puts into the URL. -/
def pieceText (named : CString → Option CString) : Piece Byte → List Byte
  | .reference name =>
    ((named (.ofBytes name)).map CString.bytes).getD
      ((Piece.reference name).text 40#8 35#8 41#8)
  | p => p.text 40#8 35#8 41#8

/-- The texts that the URL is put together from: the pieces of the template of the range that
takes the link, or the link. -/
def urlTexts (pcre : Pcre Re) (ranges : List (Range Re)) (url : CString) : List (List Byte) :=
  match whiteRange pcre url ranges with
  | some (⟨_, _, some varexp⟩, re, m) =>
    (rewritePieces varexp.bytes).map (pieceText (pcre.getNamedSubstring re url.bytes m))
  | _ => [url.bytes]

section Step

variable {named : CString → Option CString} {r r' : Rewriting} {p : Piece Byte} {name : List Byte}

theorem rewritePiece_plain (plain : p.name? = none) :
    rewritePiece named r p = some { r with dststr := r.dststr ++ p.text 40#8 35#8 41#8 } := by
  cases p with
  | reference name => cases plain
  | letter a => rfl
  | unclosed as => rfl

theorem rewritePiece_known {outstr : CString} (known : named (.ofBytes name) = some outstr) :
    rewritePiece named r (.reference name) = some ⟨r.dststr ++ outstr.bytes, true⟩ := by
  simp only [rewritePiece, known]

theorem rewritePiece_unknown (unknown : named (.ofBytes name) = none) :
    rewritePiece named r (.reference name) = if r.freed then none
      else some ⟨r.dststr ++ (Piece.reference name).text 40#8 35#8 41#8, false⟩ := by
  simp only [rewritePiece, unknown]

theorem rewritePiece_text (h : rewritePiece named r p = some r') :
    r'.dststr = r.dststr ++ pieceText named p := by
  cases p with
  | letter a => cases h; rfl
  | unclosed text => cases h; rfl
  | reference name =>
    cases known : named (.ofBytes name) with
    | some outstr =>
      rw [rewritePiece_known known] at h
      cases h
      simp [pieceText, known]
    | none =>
      rw [rewritePiece_unknown known] at h
      split at h
      · cases h
      · cases h
        simp [pieceText, known]

end Step

theorem rewritePieces_text {named : CString → Option CString} {ps : List (Piece Byte)} :
    ∀ {r r' : Rewriting}, ps.foldlM (rewritePiece named) r = some r' →
      r'.dststr = r.dststr ++ (ps.map (pieceText named)).flatten := by
  induction ps with
  | nil => intro r r' h; cases h; simp
  | cons p ps ih =>
    intro r r' h
    rw [List.foldlM_cons] at h
    cases first : rewritePiece named r p with
    | none => rw [first] at h; cases h
    | some r₁ =>
      rw [first] at h
      rw [ih h, rewritePiece_text first]
      simp

/-- No text of a C string's template, nor of a group, holds a NUL. -/
theorem pieceText_noNul (named : CString → Option CString) {p : Piece Byte}
    (h : 0#8 ∉ p.text 40#8 35#8 41#8) : 0#8 ∉ pieceText named p := by
  cases p with
  | letter a => exact h
  | unclosed text => exact h
  | reference name =>
    unfold pieceText
    cases known : named (.ofBytes name) with
    | none => simpa [known] using h
    | some outstr => simpa [known] using outstr.noNul

theorem buffered_bytes {bytes : List Byte} {url : CString} (noNul : 0#8 ∉ bytes)
    (h : buffered bytes = some url) : url.bytes = bytes := by
  unfold buffered at h
  split at h
  · cases h
    exact congrArg CString.bytes (CString.ofBytes_bytes ⟨bytes, noNul⟩)
  · cases h

/-- **A queued URL is its texts, one after the other.** -/
theorem rewrite_texts {pcre : Pcre Re} {ranges : List (Range Re)} {url rewrite : CString}
    (h : sfProcUrlRewriteRange pcre url ranges = some (some rewrite)) :
    rewrite.bytes = (urlTexts pcre ranges url).flatten := by
  unfold sfProcUrlRewriteRange at h
  split at h
  · rename_i none_
    cases h
    rw [List.isEmpty_iff.1 none_]
    simp [urlTexts, whiteRange]
  · split at h
    · cases h
    · split at h
      · cases h
      · rename_i range re m found
        obtain ⟨white, black, varexp⟩ := range
        obtain ⟨url', made, same⟩ := Option.map_eq_some_iff.1 h
        cases same
        cases varexp with
        | none =>
          rw [buffered_bytes url.noNul made]
          simp [urlTexts, found]
        | some varexp =>
          obtain ⟨r, run, made⟩ := Option.bind_eq_some_iff.1 made
          have text := rewritePieces_text run
          rw [List.nil_append] at text
          have clean : 0#8 ∉ r.dststr := by
            rw [text]
            intro inside
            obtain ⟨l, hl, inside⟩ := List.mem_flatten.1 inside
            obtain ⟨p, hp, rfl⟩ := List.mem_map.1 hl
            exact pieceText_noNul _ (fun h => varexp.noNul (Piece.text_subset hp h)) inside
          rw [buffered_bytes clean made, text]
          simp [urlTexts, found]

end SpiderFrame.Queue
