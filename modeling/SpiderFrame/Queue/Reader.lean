import SpiderFrame.Queue.Record

/-!
# The stream `url_fdr`

All spiders read `url.txt` through one stream, which has a position and an end-of-file indicator. A
call of `fscanf` that runs into the end of the file sets the indicator; the `\n` of
`SF_URL_OUT_PATTERN` reads on behind the last record, so the scan of that record already does. No
function of the program clears it.

Whether the indicator is `sticky` is up to the C library. In C99 it is: once it is set, `fscanf`
returns `EOF` and reads nothing, however the file has grown since. Older libraries read on. Results
that do not say which are about both.
-/

namespace SpiderFrame.Queue

/-- A stream: where it stands, its end-of-file indicator, and the kind of its library. -/
structure Reader where
  pos : Nat
  eof : Bool
  sticky : Bool
  deriving DecidableEq

namespace Reader

/-- `fopen("url.txt", "r")`. -/
def fopen (sticky : Bool) : Reader := ⟨0, false, sticky⟩

/-- Nothing is read any more. -/
def blocked (r : Reader) : Bool := r.sticky && r.eof

/-- What the next call gets to read, of a file with these bytes. -/
def ahead (r : Reader) (bytes : List Byte) : List Byte :=
  if r.blocked then [] else bytes.drop r.pos

/-- The stream behind a call that has left `rest`. A call looks at the byte behind what it has read,
so it has run into the end of the file if it has left nothing. -/
def leave (r : Reader) (bytes rest : List Byte) : Reader :=
  if r.blocked then r
  else { r with pos := bytes.length - rest.length, eof := r.eof || rest.isEmpty }

/-- `fscanf(url_fdr, SF_URL_OUT_PATTERN, &level, url)`. -/
def fscanf (r : Reader) (bytes : List Byte) : Scanned × Reader :=
  let scanned := fscanfRecord (r.ahead bytes)
  (scanned, r.leave bytes scanned.rest)

/-- The loop of `sf_global_init`, over the first `n` records. -/
def skip (bytes : List Byte) : Nat → Reader → Reader
  | 0, r => r
  | n + 1, r => skip bytes n (r.fscanf bytes).2

end Reader

/-- `sf_global_scan_url(&level, url)`: what it returns and stores, the stream, and `line`. -/
def sfGlobalScanUrl (bytes : List Byte) (r : Reader) (line : Int) : Scanned × Reader × Int :=
  let (scanned, r) := r.fscanf bytes
  (scanned, r, if scanned.rc > 0 then line + 1 else line)

/-- The bytes behind the first `n` records. -/
def skipLines : Nat → List Byte → List Byte
  | 0, bs => bs
  | n + 1, bs => skipLines n (fscanfRecord bs).rest

/-! ## What a call does to the stream -/

namespace Reader

variable {r : Reader} {bytes rest : List Byte}

@[simp] theorem ahead_blocked (h : r.blocked = true) (bytes : List Byte) : r.ahead bytes = [] :=
  if_pos h

@[simp] theorem ahead_open (h : r.blocked = false) (bytes : List Byte) :
    r.ahead bytes = bytes.drop r.pos := if_neg (by simp [h])

theorem blocked_eof (h : r.blocked = true) : r.eof = true := (Bool.and_eq_true_iff.1 h).2

theorem leave_blocked (h : r.blocked = true) (bytes rest : List Byte) :
    r.leave bytes rest = r := if_pos h

theorem leave_open (h : r.blocked = false) (bytes rest : List Byte) :
    r.leave bytes rest =
      { r with pos := bytes.length - rest.length, eof := r.eof || rest.isEmpty } :=
  if_neg (by simp [h])

@[simp] theorem leave_sticky (r : Reader) (bytes rest : List Byte) :
    (r.leave bytes rest).sticky = r.sticky := by
  unfold leave
  split <;> rfl

/-- The indicator is never cleared. -/
theorem leave_eof (h : r.eof = true) (bytes rest : List Byte) :
    (r.leave bytes rest).eof = true := by
  unfold leave
  split
  · exact h
  · simp [h]

theorem leave_inFile (h : r.pos ≤ bytes.length) (rest : List Byte) :
    (r.leave bytes rest).pos ≤ bytes.length := by
  unfold leave
  split
  · exact h
  · exact Nat.sub_le _ _

/-- No call goes back. -/
theorem pos_le_leave (inFile : r.pos ≤ bytes.length) (tail : rest <:+ r.ahead bytes) :
    r.pos ≤ (r.leave bytes rest).pos := by
  cases blocked : r.blocked with
  | true => rw [leave_blocked blocked]
  | false =>
    rw [ahead_open blocked] at tail
    have shorter := tail.length_le
    rw [List.length_drop] at shorter
    rw [leave_open blocked]
    show r.pos ≤ bytes.length - rest.length
    omega

/-- A call that does not move has left all that was ahead. -/
theorem rest_of_pos (inFile : r.pos ≤ bytes.length) (tail : rest <:+ r.ahead bytes)
    (same : (r.leave bytes rest).pos = r.pos) : rest = r.ahead bytes := by
  cases blocked : r.blocked with
  | true =>
    rw [ahead_blocked blocked] at tail ⊢
    exact List.suffix_nil.1 tail
  | false =>
    apply tail.eq_of_length
    rw [leave_open blocked] at same
    have position : bytes.length - rest.length = r.pos := same
    have shorter := tail.length_le
    rw [ahead_open blocked, List.length_drop] at shorter ⊢
    omega

/-- A call that leaves something, and all of it, has done nothing. -/
theorem leave_ahead (inFile : r.pos ≤ bytes.length) (some_ : r.ahead bytes ≠ []) :
    r.leave bytes (r.ahead bytes) = r := by
  cases blocked : r.blocked with
  | true => exact leave_blocked blocked _ _
  | false =>
    rw [leave_open blocked, List.isEmpty_eq_false_iff.2 some_, Bool.or_false,
      ahead_open blocked, List.length_drop, Nat.sub_sub_self inFile]

/-- A call that comes to the end of the file leaves the stream there, with the indicator set. -/
theorem leave_nil (atEnd : r.ahead bytes = []) (inFile : r.pos ≤ bytes.length) :
    r.leave bytes [] = { r with eof := true } := by
  cases blocked : r.blocked with
  | true =>
    rw [leave_blocked blocked]
    have set := blocked_eof blocked
    cases r
    simp_all
  | false =>
    rw [ahead_open blocked] at atEnd
    have same : bytes.length = r.pos := Nat.le_antisymm (List.drop_eq_nil_iff.1 atEnd) inFile
    rw [leave_open blocked]
    simp [same]

/-- Behind a call, the stream stands before what the call has left. -/
theorem drop_leave (tail : rest <:+ r.ahead bytes) (open_ : r.blocked = false) :
    bytes.drop (r.leave bytes rest).pos = rest := by
  have whole : rest <:+ bytes := by
    rw [ahead_open open_] at tail
    exact tail.trans (List.drop_suffix _ _)
  rw [leave_open open_]
  exact (List.suffix_iff_eq_drop.1 whole).symm

/-! ## Skipping -/

/-- In a file that nobody writes, the indicator is set at the end of the file only. -/
structure AtRest (bytes : List Byte) (r : Reader) : Prop where
  inFile : r.pos ≤ bytes.length
  atEnd : r.eof = true → bytes.drop r.pos = []

theorem AtRest.fscanf (h : AtRest bytes r) : AtRest bytes (r.fscanf bytes).2 ∧
    bytes.drop (r.fscanf bytes).2.pos = (fscanfRecord (bytes.drop r.pos)).rest := by
  cases blocked : r.blocked with
  | true =>
    have nothing := h.atEnd (blocked_eof blocked)
    have same : (r.fscanf bytes).2 = r := leave_blocked blocked _ _
    rw [same, nothing]
    exact ⟨h, rfl⟩
  | false =>
    have tail := fscanfRecord_suffix (r.ahead bytes)
    have behind : bytes.drop (r.fscanf bytes).2.pos = (fscanfRecord (r.ahead bytes)).rest :=
      drop_leave tail blocked
    rw [← ahead_open blocked]
    refine ⟨⟨leave_inFile h.inFile _, fun set => ?_⟩, behind⟩
    rw [behind]
    have set' : (r.eof || (fscanfRecord (r.ahead bytes)).rest.isEmpty) = true := by
      rw [← set]
      exact (congrArg Reader.eof (leave_open blocked bytes _)).symm
    rcases Bool.or_eq_true_iff.1 set' with before | nothing
    · rw [ahead_open blocked, h.atEnd before] at tail ⊢
      rfl
    · exact List.isEmpty_iff.1 nothing

theorem AtRest.skip (n : Nat) : ∀ {r : Reader}, AtRest bytes r →
    AtRest bytes (skip bytes n r) ∧
      bytes.drop (Reader.skip bytes n r).pos = skipLines n (bytes.drop r.pos) := by
  induction n with
  | zero => exact fun h => ⟨h, rfl⟩
  | succ n ih =>
    intro r h
    obtain ⟨next, behind⟩ := h.fscanf
    rw [skipLines, ← behind]
    exact ih next

theorem atRest_fopen (sticky : Bool) (bytes : List Byte) : AtRest bytes (fopen sticky) :=
  ⟨Nat.zero_le _, fun set => absurd set Bool.false_ne_true⟩

@[simp] theorem skip_sticky (n : Nat) (r : Reader) : (skip bytes n r).sticky = r.sticky := by
  induction n generalizing r with
  | zero => rfl
  | succ n ih => exact (ih _).trans (leave_sticky _ _ _)

end Reader

end SpiderFrame.Queue
