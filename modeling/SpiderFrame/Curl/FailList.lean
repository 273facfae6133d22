import Mathlib.Data.List.Perm.Basic
import SpiderFrame.Base.Run
import SpiderFrame.CString

/-!
# The list of failed URLs (`sf_curl.c`)

When the three attempts of a call of `sf_curl_url` have failed, it writes the URL and a newline
to `fail_list`, which all spiders share. These are two calls of `fprintf`, each of them atomic,
and the URL is the format of the first: `%%` in it prints one `%`, and any other conversion asks
for an argument that is not there. Where that is undefined the model has no text any more.

While no URL with a `%` is written and no other spider is between its two calls, the text
is made of whole lines (`Lines`), and they are the URLs that were given up
(`fail_list_faithful`).
-/

namespace SpiderFrame.Curl
open SpiderFrame.Base

/-- `fprintf(fp, format)` without arguments; `none` is undefined behaviour. -/
def fprintfFormat : List Byte → Option (List Byte)
  | [] => some []
  | 37#8 :: 37#8 :: format => (fprintfFormat format).map (37#8 :: ·)
  | b :: format => if b = 37#8 then none else (fprintfFormat format).map (b :: ·)

/-- Where a spider is: outside `sf_curl_url`, before the next of `retry` attempts, or before
one of the two writes to `fail_list`. -/
inductive Call where
  | idle
  | attempt (url : CString) (retry : Nat)
  | failed (url : CString)
  | newline (url : CString)

/-- The text that the run has appended to `fail_list`, the spiders, and the URLs whose three
attempts have failed. -/
structure Fetches where
  failList : Option (List Byte)
  calls : List Call
  exhausted : List CString

/-- A call begins, and `curl_easy_setopt` accepts its options or not; `curl_easy_perform`
returns; a write is made. -/
inductive Act where
  | call (url : CString) (ready : Bool)
  | perform (ok : Bool)
  | write

/-- One step of the spider `i`. -/
def callStep (w : Fetches) (act : Nat × Act) : Option Fetches :=
  match w.calls[act.1]?, act.2 with
  | some .idle, .call url ready =>
    some { w with calls := w.calls.set act.1 (if ready then .attempt url 3 else .idle) }
  | some (.attempt url (retry + 1)), .perform ok =>
    if ok then some { w with calls := w.calls.set act.1 .idle }
    else if retry = 0 then
      some { w with
        calls := w.calls.set act.1 (.failed url)
        exhausted := w.exhausted ++ [url] }
    else some { w with calls := w.calls.set act.1 (.attempt url retry) }
  | some (.failed url), .write =>
    some { w with
      failList := w.failList.bind fun text => (fprintfFormat url.bytes).map (text ++ ·)
      calls := w.calls.set act.1 (.newline url) }
  | some (.newline _), .write =>
    some { w with
      failList := w.failList.map (· ++ [10#8])
      calls := w.calls.set act.1 .idle }
  | _, _ => none

/-- `n` spiders before their first call. -/
def startFetches (n : Nat) : Fetches := ⟨some [], List.replicate n .idle, []⟩

/-! ## Whole lines -/

def line (url : CString) : List Byte := url.bytes ++ [10#8]

/-- The URL that a spider has still to write. -/
def unwritten : Call → Option CString
  | .failed url => some url
  | _ => none

/-- The URL that stands in the file without its newline. -/
def unended : Call → Option CString
  | .newline url => some url
  | _ => none

/-- The text is a sequence of lines, a permutation of the URLs given up. -/
def Faithful (w : Fetches) : Prop :=
  ∃ lines : List CString, w.failList = some (lines.flatMap line) ∧ lines.Perm w.exhausted

/-- No spider is between the failure of its last attempt and its newline. -/
def Quiet (w : Fetches) : Prop :=
  ∀ call ∈ w.calls, unwritten call = none ∧ unended call = none

instance (w : Fetches) : Decidable (Quiet w) :=
  inferInstanceAs (Decidable (∀ call ∈ w.calls, unwritten call = none ∧ unended call = none))

/-- A spider that writes a URL finds the file at the start of a line, and the URL has no `%`. -/
def Careful (w : Fetches) (act : Nat × Act) : Prop :=
  ∀ url ∈ w.calls[act.1]?.bind unwritten,
    37#8 ∉ url.bytes ∧ ∀ call ∈ w.calls, unended call = none

instance (w : Fetches) (act : Nat × Act) : Decidable (Careful w act) :=
  inferInstanceAs (Decidable (∀ url ∈ w.calls[act.1]?.bind unwritten,
    37#8 ∉ url.bytes ∧ ∀ call ∈ w.calls, unended call = none))

/-- Whole lines, and at most one line without its newline; what is written or still to be
written is what was given up. -/
structure Lines (w : Fetches) (lines : List CString) : Prop where
  text : w.failList =
    some (lines.flatMap line ++ (w.calls.filterMap unended).flatMap CString.bytes)
  one : (w.calls.filterMap unended).length ≤ 1
  account : (lines ++ (w.calls.filterMap unended ++ w.calls.filterMap unwritten)).Perm w.exhausted

theorem fprintfFormat_plain : ∀ {format : List Byte}, 37#8 ∉ format →
    fprintfFormat format = some format
  | [], _ => rfl
  | b :: format, plain => by
    rw [List.mem_cons, not_or] at plain
    have rest := fprintfFormat_plain plain.2
    unfold fprintfFormat
    split
    · rename_i same
      cases same
    · rename_i same
      cases same
      exact absurd rfl plain.1
    · rename_i same
      cases same
      rw [if_neg (Ne.symm plain.1), rest]
      rfl

/-- What one spider contributes before and after its step. -/
theorem filterMap_set (f : Call → Option CString) {calls : List Call} {i : Nat} {old : Call}
    (new : Call) (here : calls[i]? = some old) :
    ∃ rest, (calls.filterMap f).Perm ((f old).toList ++ rest) ∧
      ((calls.set i new).filterMap f).Perm ((f new).toList ++ rest) := by
  obtain ⟨inside, value⟩ := List.getElem?_eq_some_iff.1 here
  refine ⟨(calls.eraseIdx i).filterMap f, ?_, ?_⟩
  · have parts := (List.getElem_cons_eraseIdx_perm inside).filterMap f
    rw [value, List.filterMap_cons] at parts
    cases e : f old <;> simpa [e] using parts.symm
  · have parts := (List.set_perm_cons_eraseIdx inside new).filterMap f
    rw [List.filterMap_cons] at parts
    cases e : f new <;> simpa [e] using parts

/-- A list of one place at most is determined by its members. -/
theorem flatMap_perm_one {l l' : List CString} (perm : l.Perm l') (one : l.length ≤ 1) :
    l.flatMap CString.bytes = l'.flatMap CString.bytes := by
  match l, one with
  | [], _ => rw [List.nil_perm.1 perm]
  | [a], _ => rw [List.singleton_perm.1 perm]

/-- What a step does to the file and to the URLs given up. -/
inductive Effect (w w' : Fetches) : Call → Call → Prop
  | moves {old new} (before : unwritten old = none ∧ unended old = none)
      (after : unwritten new = none ∧ unended new = none) (text : w'.failList = w.failList)
      (exhausted : w'.exhausted = w.exhausted) : Effect w w' old new
  | gives_up {old} (url) (before : unwritten old = none ∧ unended old = none)
      (text : w'.failList = w.failList) (exhausted : w'.exhausted = w.exhausted ++ [url]) :
      Effect w w' old (.failed url)
  | writes (url) (text : w'.failList =
        w.failList.bind fun text => (fprintfFormat url.bytes).map (text ++ ·))
      (exhausted : w'.exhausted = w.exhausted) : Effect w w' (.failed url) (.newline url)
  | ends (url) (text : w'.failList = w.failList.map (· ++ [10#8]))
      (exhausted : w'.exhausted = w.exhausted) : Effect w w' (.newline url) .idle

theorem callStep_effect {w w' : Fetches} {act : Nat × Act} (h : callStep w act = some w') :
    ∃ old new, w.calls[act.1]? = some old ∧ w'.calls = w.calls.set act.1 new ∧
      Effect w w' old new := by
  unfold callStep at h
  split at h
  · rename_i url ready here _
    cases h
    refine ⟨_, _, here, rfl, .moves ⟨rfl, rfl⟩ ?_ rfl rfl⟩
    cases ready <;> exact ⟨rfl, rfl⟩
  · rename_i url retry ok here _
    split at h
    · cases h
      exact ⟨_, _, here, rfl, .moves ⟨rfl, rfl⟩ ⟨rfl, rfl⟩ rfl rfl⟩
    · split at h
      · cases h
        exact ⟨_, _, here, rfl, .gives_up url ⟨rfl, rfl⟩ rfl rfl⟩
      · cases h
        exact ⟨_, _, here, rfl, .moves ⟨rfl, rfl⟩ ⟨rfl, rfl⟩ rfl rfl⟩
  · rename_i url here _
    cases h
    exact ⟨_, _, here, rfl, .writes url rfl rfl⟩
  · rename_i url here _
    cases h
    exact ⟨_, _, here, rfl, .ends url rfl rfl⟩
  · cases h

section

variable {w w' : Fetches} {lines : List CString} {url : CString}

/-- The file stays, and some URLs are given up. -/
theorem Lines.givesUp (inv : Lines w lines) (new : List CString)
    (sameOpen : (w'.calls.filterMap unended).Perm (w.calls.filterMap unended))
    (more : (w'.calls.filterMap unwritten).Perm (w.calls.filterMap unwritten ++ new))
    (sameText : w'.failList = w.failList) (grown : w'.exhausted = w.exhausted ++ new) :
    Lines w' lines where
  text := by
    rw [sameText, inv.text, flatMap_perm_one sameOpen (sameOpen.length_eq ▸ inv.one)]
  one := by
    rw [sameOpen.length_eq]
    exact inv.one
  account := by
    rw [grown]
    apply ((sameOpen.append more).append_left lines).trans
    rw [← List.append_assoc, ← List.append_assoc, List.append_assoc lines]
    exact inv.account.append_right new

/-- A URL is written where no line is open. -/
theorem Lines.writes (inv : Lines w lines) (closed : w.calls.filterMap unended = [])
    (own : w'.calls.filterMap unended = [url])
    (less : (url :: w'.calls.filterMap unwritten).Perm (w.calls.filterMap unwritten))
    (newText : w'.failList = w.failList.map (· ++ url.bytes))
    (same : w'.exhausted = w.exhausted) : Lines w' lines where
  text := by
    rw [newText, inv.text, closed, own]
    simp
  one := by
    rw [own]
    exact Nat.le_refl 1
  account := by
    have account := inv.account
    rw [closed] at account
    rw [same, own]
    exact (less.append_left lines).trans account

/-- The newline of the open line. -/
theorem Lines.ends (inv : Lines w lines) (own : w.calls.filterMap unended = [url])
    (closed : w'.calls.filterMap unended = [])
    (rest : (w'.calls.filterMap unwritten).Perm (w.calls.filterMap unwritten))
    (newText : w'.failList = w.failList.map (· ++ [10#8]))
    (same : w'.exhausted = w.exhausted) : Lines w' (lines ++ [url]) where
  text := by
    rw [newText, inv.text, own, closed]
    simp [line]
  one := by
    rw [closed]
    exact Nat.zero_le 1
  account := by
    have account := inv.account
    rw [own] at account
    rw [same, closed, List.append_assoc, List.nil_append]
    exact ((rest.append_left [url]).append_left lines).trans account

end

/-- **A careful step keeps the lines whole.** -/
theorem lines_step {w w' : Fetches} {act : Nat × Act} {lines : List CString}
    (inv : Lines w lines) (careful : Careful w act) (h : callStep w act = some w') :
    ∃ lines', Lines w' lines' := by
  obtain ⟨old, new, here, calls, effect⟩ := callStep_effect h
  obtain ⟨opens, openOld, openNew⟩ := filterMap_set unended new here
  obtain ⟨rest, restOld, restNew⟩ := filterMap_set unwritten new here
  rw [← calls] at openNew restNew
  cases effect with
  | moves before after sameText same =>
    rw [before.1] at restOld
    rw [before.2] at openOld
    rw [after.1] at restNew
    rw [after.2] at openNew
    refine ⟨lines, inv.givesUp [] (openNew.trans openOld.symm) ?_ sameText (by simpa using same)⟩
    rw [List.append_nil]
    exact restNew.trans restOld.symm
  | gives_up url before sameText grown =>
    rw [before.1] at restOld
    rw [before.2] at openOld
    refine ⟨lines, inv.givesUp [url] (openNew.trans openOld.symm) ?_ sameText grown⟩
    exact (restNew.trans (restOld.symm.append_left [url])).trans List.perm_append_comm
  | writes url newText same =>
    obtain ⟨plain, noneOpen⟩ := careful url (by rw [here]; rfl)
    have closed : w.calls.filterMap unended = [] := List.filterMap_eq_nil_iff.2 noneOpen
    have noRest : opens = [] := by
      rw [closed] at openOld
      exact List.nil_perm.1 openOld
    rw [noRest] at openNew
    refine ⟨lines, inv.writes closed (List.perm_singleton.1 openNew)
      ((restNew.append_left [url]).trans restOld.symm) ?_ same⟩
    rw [newText, fprintfFormat_plain plain]
    exact Option.map_eq_bind.symm
  | ends url newText same =>
    have noRest : opens = [] := by
      have bound := openOld.length_eq
      have single : (unended (.newline url)).toList.length = 1 := rfl
      have one := inv.one
      rw [List.length_append, single] at bound
      exact List.length_eq_zero_iff.1 (by omega)
    rw [noRest] at openOld openNew
    exact ⟨lines ++ [url], inv.ends (List.perm_singleton.1 openOld) (List.perm_nil.1 openNew)
      (restNew.trans restOld.symm) newText same⟩

theorem lines_start (n : Nat) : Lines (startFetches n) [] := by
  have idle : ∀ f : Call → Option CString, f .idle = none →
      (List.replicate n Call.idle).filterMap f = [] := by
    intro f hf
    apply List.filterMap_eq_nil_iff.2
    intro call hc
    rw [List.eq_of_mem_replicate hc, hf]
  refine ⟨?_, ?_, ?_⟩ <;> simp [startFetches, idle unended rfl, idle unwritten rfl]

/-- **In a run of careful steps the file is the list of the URLs given up, line by line.** -/
theorem fail_list_faithful {n : Nat} {acts : List (Nat × Act)} {w : Fetches}
    (careful : Along callStep Careful (startFetches n) acts)
    (run : exec callStep (startFetches n) acts = some w) (quiet : Quiet w) : Faithful w := by
  obtain ⟨lines, text, -, account⟩ : ∃ lines, Lines w lines := by
    refine Reach.invariant (I := fun w => ∃ lines, Lines w lines) (careful.reach run)
      ⟨[], lines_start n⟩ fun c act c' _ inv allowed taken => ?_
    obtain ⟨lines, inv⟩ := inv
    exact lines_step inv allowed taken
  have closed : w.calls.filterMap unended = [] :=
    List.filterMap_eq_nil_iff.2 fun call hc => (quiet call hc).2
  have written : w.calls.filterMap unwritten = [] :=
    List.filterMap_eq_nil_iff.2 fun call hc => (quiet call hc).1
  refine ⟨lines, ?_, ?_⟩
  · rw [text, closed]
    simp
  · rw [closed, written] at account
    simpa using account

/-! ## Two spiders, and a URL with `%` -/

/-- A call of the spider `i` whose three attempts fail, up to its first write. -/
def giveUp (i : Nat) (url : CString) : List (Nat × Act) :=
  (i, .call url true) :: List.replicate 3 (i, .perform false)

/-- The second spider fails between the calls of the first, and each writes its line at once. -/
def turns : List (Nat × Act) :=
  giveUp 0 (.letter 0) ++ giveUp 1 (.letter 1) ++
    [(1, .write), (1, .write), (0, .write), (0, .write)]

def turnsEnd : Fetches where
  failList := some [98#8, 10#8, 97#8, 10#8]
  calls := [.idle, .idle]
  exhausted := [.letter 0, .letter 1]

theorem turns_run : exec callStep (startFetches 2) turns = some turnsEnd := rfl

theorem fail_list_faithful_turns :
    Along callStep Careful (startFetches 2) turns ∧ Faithful turnsEnd := by
  have careful : Along callStep Careful (startFetches 2) turns := by decide
  exact ⟨careful, fail_list_faithful careful turns_run (by decide)⟩

/-- The URL `%%`. -/
def percents : CString := ⟨[37#8, 37#8], by decide⟩

/-- The text of a URL that was given up. -/
def percentsEnd : Fetches where
  failList := some [37#8, 10#8]
  calls := [.idle]
  exhausted := [percents]

/-- `fprintf` takes `%%` for a format and writes one `%`. -/
theorem fail_list_prints_format : ¬ ∀ (n : Nat) (acts : List (Nat × Act)) (w : Fetches),
    exec callStep (startFetches n) acts = some w → Quiet w → Faithful w := by
  intro claim
  have run : exec callStep (startFetches 1)
      (giveUp 0 percents ++ [(0, .write), (0, .write)]) = some percentsEnd := rfl
  obtain ⟨lines, text, perm⟩ := claim 1 _ percentsEnd run (by decide)
  rw [List.perm_singleton.1 perm] at text
  cases text

end SpiderFrame.Curl
