import SpiderFrame.Json.Printer
import SpiderFrame.Libjson.Parser

/-!
# The printer (`libjson/json.c`)

`json_print_pretty` and `json_print_raw` get one event after the other and hand the text on in chunks. What
their callback returns is ignored. A comma stands before a value that is not the first and not behind a
key; the pretty form has every value and every key of an array or an object on a line of its own.
-/

namespace SpiderFrame.Libjson
open SpiderFrame.Json (hexLetter printString comma)

/-- `json_printer`, but for its callback. -/
structure Printer where
  indentstr : List Byte
  indentlevel : Int
  afterkey : Bool
  enterObject : Bool
  first : Bool
  deriving DecidableEq

/-- `json_print_init(printer, callback, userdata)`. -/
def jsonPrintInit : Printer := ⟨[9#8], 0, false, true, true⟩

/-- `character_escape[c]`. -/
def characterEscape (c : Byte) : List Byte :=
  if c < 36#8 then Json.characterEscape c
  else if c = 92#8 then [92#8, 92#8]
  else if c < 127#8 then [c]
  else [92#8, 117#8, 48#8, 48#8, hexLetter (c >>> 4), hexLetter (c &&& 15#8)]

/-- `print_binary_string`. -/
def printBinaryString (data : List Byte) : List (List Byte) :=
  [34#8] :: (data.map characterEscape ++ [[34#8]])

/-- `print_indent`. -/
def printIndent (p : Printer) : List (List Byte) :=
  [10#8] :: List.replicate p.indentlevel.toNat p.indentstr

def JsonType.ends (type : JsonType) : Bool := type = .arrayEnd || type = .objectEnd

/-- What stands before a value or a key. -/
def separator (pretty : Bool) (p : Printer) (type : JsonType) : List (List Byte) :=
  (if !p.enterObject && !p.afterkey && !type.ends then
    [44#8] :: (if pretty then printIndent p else [])
  else []) ++
  if pretty && (p.enterObject && !p.first && !type.ends) then printIndent p else []

theorem separator_ends (pretty : Bool) (p : Printer) {type : JsonType} (h : type.ends = true) :
    separator pretty p type = [] := by
  simp [separator, h]

/-- The printer behind a value. -/
def Printer.settled (p : Printer) : Printer :=
  { p with first := false, enterObject := false, afterkey := false }

/-- `json_print_mode(printer, type, data, length, pretty)`: the chunks. -/
def jsonPrintMode (pretty : Bool) (p : Printer) (e : Event) : List (List Byte) × Printer :=
  let q := p.settled
  let (chunks, q) : List (List Byte) × Printer :=
    match e.type with
    | .arrayBegin => ([[91#8]], { q with indentlevel := q.indentlevel + 1, enterObject := true })
    | .objectBegin => ([[123#8]], { q with indentlevel := q.indentlevel + 1, enterObject := true })
    | .arrayEnd | .objectEnd =>
      let q := { q with indentlevel := q.indentlevel - 1 }
      ((if pretty && !p.enterObject then printIndent q else []) ++
        [if e.type = .objectEnd then [125#8] else [93#8]], q)
    | .int | .float => ([e.data], q)
    | .litNull => ([[110#8, 117#8, 108#8, 108#8]], q)
    | .litTrue => ([[116#8, 114#8, 117#8, 101#8]], q)
    | .litFalse => ([[102#8, 97#8, 108#8, 115#8, 101#8]], q)
    | .key => (printString e.data ++ [if pretty then [58#8, 32#8] else [58#8]], { q with afterkey := true })
    | .string => (printString e.data, q)
    | .bstring => (printBinaryString e.data, q)
    | .none => ([], q)
  (separator pretty p e.type ++ chunks, q)

/-- The chunks of a sequence of events. -/
def printEvents (pretty : Bool) : Printer → List Event → List (List Byte) × Printer
  | p, [] => ([], p)
  | p, e :: es =>
    let (chunks, q) := jsonPrintMode pretty p e
    let (more, q) := printEvents pretty q es
    (chunks ++ more, q)

theorem printEvents_cons (pretty : Bool) (p : Printer) (e : Event) (es : List Event) :
    printEvents pretty p (e :: es) =
      ((jsonPrintMode pretty p e).1 ++ (printEvents pretty (jsonPrintMode pretty p e).2 es).1,
        (printEvents pretty (jsonPrintMode pretty p e).2 es).2) :=
  rfl

theorem printEvents_append (pretty : Bool) (p : Printer) (es es' : List Event) :
    printEvents pretty p (es ++ es') =
      ((printEvents pretty p es).1 ++ (printEvents pretty (printEvents pretty p es).2 es').1,
        (printEvents pretty (printEvents pretty p es).2 es').2) := by
  induction es generalizing p with
  | nil => rfl
  | cons e es ih => rw [List.cons_append, printEvents_cons, ih, printEvents_cons, List.append_assoc]

/-! ## The raw printer of the spider -/

/-- The event of a call of the spider. -/
def eventOf : Json.Op → Event
  | .arrayBegin => ⟨.arrayBegin, []⟩
  | .objectBegin => ⟨.objectBegin, []⟩
  | .arrayEnd => ⟨.arrayEnd, []⟩
  | .objectEnd => ⟨.objectEnd, []⟩
  | .key data => ⟨.key, data⟩
  | .string data => ⟨.string, data⟩

/-- What the raw mode looks at. -/
def Printer.raw (p : Printer) : Json.Printer := ⟨p.enterObject, p.afterkey⟩

theorem separator_raw (p : Printer) {type : JsonType} (value : type.ends = false) :
    separator false p type = comma p.raw := by
  simp [separator, value, comma, Printer.raw]

/-- **A call of `json_print_raw`** prints what the model of the spider's printer says. -/
theorem jsonPrintMode_raw (p : Printer) (op : Json.Op) :
    (jsonPrintMode false p (eventOf op)).1 = (Json.printRaw p.raw op).1 ∧
      (jsonPrintMode false p (eventOf op)).2.raw = (Json.printRaw p.raw op).2 := by
  cases op with
  | arrayBegin => exact ⟨congrArg (· ++ _) (separator_raw p rfl), rfl⟩
  | objectBegin => exact ⟨congrArg (· ++ _) (separator_raw p rfl), rfl⟩
  | arrayEnd => exact ⟨by simp [jsonPrintMode, eventOf, separator, JsonType.ends, Json.printRaw], rfl⟩
  | objectEnd => exact ⟨by simp [jsonPrintMode, eventOf, separator, JsonType.ends, Json.printRaw], rfl⟩
  | key data => exact ⟨congrArg (· ++ _) (separator_raw p rfl), rfl⟩
  | string data => exact ⟨congrArg (· ++ _) (separator_raw p rfl), rfl⟩

/-- **The spider's calls print the chunks of `json_print_raw`.** -/
theorem printEvents_raw (p : Printer) (ops : List Json.Op) :
    (printEvents false p (ops.map eventOf)).1 = (Json.printAll p.raw ops).1 ∧
      (printEvents false p (ops.map eventOf)).2.raw = (Json.printAll p.raw ops).2 := by
  induction ops generalizing p with
  | nil => exact ⟨rfl, rfl⟩
  | cons op ops ih =>
    obtain ⟨chunks, printer⟩ := jsonPrintMode_raw p op
    obtain ⟨more, last⟩ := ih (jsonPrintMode false p (eventOf op)).2
    rw [printer] at more last
    rw [List.map_cons, printEvents_cons, Json.printAll]
    refine ⟨?_, last⟩
    dsimp only
    rw [chunks, more]

end SpiderFrame.Libjson
