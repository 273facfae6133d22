import SpiderFrame.CString

/-!
# The JSON printer and its buffer (`sf_json.c`)

`json_print_raw` of libjson keeps two flags: whether an array or an object was just begun, and
whether a key was just printed. It hands the text on in chunks, of six bytes at most, and
ignores what the callback returns. The callback appends a chunk to `json_buf`, or refuses it
when the buffer would get longer than `JSON_MAX_BUF_LEN`. This is eight more than the array holds
behind the length; what lies there is taken to be free.
-/

namespace SpiderFrame.Json

/-- The types of `json_type` that the spider prints, with their data. -/
inductive Op where
  | arrayBegin
  | objectBegin
  | arrayEnd
  | objectEnd
  | key (data : List Byte)
  | string (data : List Byte)
  deriving DecidableEq

/-- `json_printer`, for its raw mode. -/
structure Printer where
  enterObject : Bool
  afterKey : Bool
  deriving DecidableEq

/-- `json_print_init`. -/
def printInit : Printer := ⟨true, false⟩

def hexLetter (n : Byte) : Byte := if n < 10#8 then 48#8 + n else 87#8 + n

/-- `character_escape[c]` for `c` below 36. -/
def characterEscape (c : Byte) : List Byte :=
  if c = 8#8 then [92#8, 98#8]
  else if c = 9#8 then [92#8, 116#8]
  else if c = 10#8 then [92#8, 110#8]
  else if c = 12#8 then [92#8, 102#8]
  else if c = 13#8 then [92#8, 114#8]
  else if c = 34#8 then [92#8, 34#8]
  else if c < 32#8 then [92#8, 117#8, 48#8, 48#8, hexLetter (c >>> 4), hexLetter (c &&& 15#8)]
  else [c]

/-- The chunk for one byte of a string. -/
def printByte (c : Byte) : List Byte :=
  if c < 36#8 then characterEscape c else if c = 92#8 then [92#8, 92#8] else [c]

/-- `print_string`. -/
def printString (data : List Byte) : List (List Byte) :=
  [34#8] :: (data.map printByte ++ [[34#8]])

/-- The comma before a value or a key that is not the first. -/
def comma (p : Printer) : List (List Byte) :=
  if !p.enterObject && !p.afterKey then [[44#8]] else []

/-- `json_print_raw(printer, type, data, length)`: the chunks. -/
def printRaw (p : Printer) : Op → List (List Byte) × Printer
  | .arrayBegin => (comma p ++ [[91#8]], ⟨true, false⟩)
  | .objectBegin => (comma p ++ [[123#8]], ⟨true, false⟩)
  | .arrayEnd => ([[93#8]], ⟨false, false⟩)
  | .objectEnd => ([[125#8]], ⟨false, false⟩)
  | .key data => (comma p ++ (printString data ++ [[58#8]]), ⟨false, true⟩)
  | .string data => (comma p ++ printString data, ⟨false, false⟩)

/-- The chunks of a sequence of calls. -/
def printAll : Printer → List Op → List (List Byte) × Printer
  | p, [] => ([], p)
  | p, op :: ops =>
    ((printRaw p op).1 ++ (printAll (printRaw p op).2 ops).1, (printAll (printRaw p op).2 ops).2)

/-- What the calls print when every chunk is taken. -/
def textOf (p : Printer) (ops : List Op) : List Byte := (printAll p ops).1.flatten

theorem printAll_append (p : Printer) (a b : List Op) :
    printAll p (a ++ b) = ((printAll p a).1 ++ (printAll (printAll p a).2 b).1,
      (printAll (printAll p a).2 b).2) := by
  induction a generalizing p with
  | nil => rfl
  | cons op a ih => simp [printAll, ih]

theorem textOf_append (p : Printer) (a b : List Op) :
    textOf p (a ++ b) = textOf p a ++ textOf (printAll p a).2 b := by
  simp [textOf, printAll_append]

/-! ## `json_buf` -/

/-- `JSON_MAX_BUF_LEN`: `SF_MAX_VAR_SIZE + sizeof(size_t)`. -/
def jsonMaxBufLen : Nat := 131080

/-- Whether `sf_json_print_buf_callback` takes the chunk. -/
def fits (buf chunk : List Byte) : Bool := buf.length + chunk.length ≤ jsonMaxBufLen

/-- `sf_json_print_buf_callback(json_buf, s, length)`. -/
def printBufCallback (buf chunk : List Byte) : List Byte :=
  if fits buf chunk then buf ++ chunk else buf

/-- The text in `json_buf` after these chunks. -/
def bufferAfter (buf : List Byte) (chunks : List (List Byte)) : List Byte :=
  chunks.foldl printBufCallback buf

/-- No chunk is taken after one was refused. -/
def NoneAfterRefusal (buf : List Byte) : List (List Byte) → Prop
  | [] => True
  | chunk :: chunks =>
    if fits buf chunk then NoneAfterRefusal (buf ++ chunk) chunks
    else ∀ chunk ∈ chunks, fits buf chunk = false

/-- Every chunk is taken. -/
def NoneRefused (buf : List Byte) : List (List Byte) → Prop
  | [] => True
  | chunk :: chunks => fits buf chunk = true ∧ NoneRefused (buf ++ chunk) chunks

theorem bufferAfter_refused {buf : List Byte} {chunks : List (List Byte)}
    (h : ∀ chunk ∈ chunks, fits buf chunk = false) : bufferAfter buf chunks = buf := by
  induction chunks with
  | nil => rfl
  | cons chunk chunks ih =>
    rw [List.forall_mem_cons] at h
    rw [bufferAfter, List.foldl_cons, printBufCallback, h.1, if_neg Bool.false_ne_true]
    exact ih h.2

/-- Then the buffer is the beginning of all the text. -/
theorem bufferAfter_prefix {chunks : List (List Byte)} : ∀ {buf : List Byte},
    NoneAfterRefusal buf chunks → bufferAfter buf chunks <+: buf ++ chunks.flatten := by
  induction chunks with
  | nil => intro buf _; simp [bufferAfter]
  | cons chunk chunks ih =>
    intro buf h
    unfold NoneAfterRefusal at h
    split at h
    · rename_i taken
      rw [bufferAfter, List.foldl_cons, printBufCallback, if_pos taken, List.flatten_cons,
        ← List.append_assoc]
      exact ih h
    · rename_i refused
      have same : bufferAfter buf (chunk :: chunks) = buf := by
        apply bufferAfter_refused
        rw [List.forall_mem_cons]
        exact ⟨Bool.eq_false_iff.2 refused, h⟩
      rw [same]
      exact List.prefix_append _ _

theorem NoneAfterRefusal.take {chunks : List (List Byte)} (n : Nat) : ∀ {buf : List Byte},
    NoneAfterRefusal buf chunks → NoneAfterRefusal buf (chunks.take n) := by
  induction chunks generalizing n with
  | nil => intro buf h; simpa using h
  | cons chunk chunks ih =>
    intro buf h
    cases n with
    | zero => trivial
    | succ n =>
      rw [List.take_succ_cons]
      unfold NoneAfterRefusal at h ⊢
      split at h
      · rename_i taken
        rw [if_pos taken]
        exact ih n h
      · rename_i refused
        rw [if_neg refused]
        exact fun chunk inside => h chunk (List.mem_of_mem_take inside)

theorem bufferAfter_whole {chunks : List (List Byte)} : ∀ {buf : List Byte},
    NoneRefused buf chunks → bufferAfter buf chunks = buf ++ chunks.flatten := by
  induction chunks with
  | nil => intro buf _; simp [bufferAfter]
  | cons chunk chunks ih =>
    intro buf h
    rw [bufferAfter, List.foldl_cons, printBufCallback, if_pos h.1, List.flatten_cons,
      ← List.append_assoc]
    exact ih h.2

end SpiderFrame.Json
