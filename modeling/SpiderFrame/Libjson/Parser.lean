import Mathlib.Algebra.Group.Nat.Defs
import SpiderFrame.Libjson.Tables

/-!
# The parser (`libjson/json.c`)

`json_parser_string` reads a text byte by byte, in as many pieces as the caller likes, and hands what it
has read to a callback. How the stack and the buffer get their memory is a parameter (`Growth`), with
`growth` for what `state_grow` and `buffer_grow` do. What the parser is like after an error is left out.
-/

namespace SpiderFrame.Libjson

/-- `json_type`. -/
inductive JsonType
  | none | arrayBegin | objectBegin | arrayEnd | objectEnd | int | float | string | key | litTrue
  | litFalse | litNull | bstring
  deriving DecidableEq

/-- `json_error`, and what a callback of the caller returns. -/
inductive JsonError
  | noMemory | badChar | popEmpty | popUnexpectedMode | nestingLimit | dataLimit | commentNotAllowed
  | unexpectedChar | unicodeMissingLowSurrogate | unicodeUnexpectedLowSurrogate | commaOutOfStructure
  | callback | utf8
  | user (code : Int)
  deriving DecidableEq

/-- The errors of the text itself. -/
def JsonError.ofText : JsonError → Bool
  | .badChar | .popEmpty | .popUnexpectedMode | .commentNotAllowed | .unexpectedChar
  | .unicodeMissingLowSurrogate | .unicodeUnexpectedLowSurrogate | .commaOutOfStructure | .utf8 => true
  | _ => false

/-- The errors of the memory and of the limits. -/
def JsonError.ofMemory : JsonError → Bool
  | .noMemory | .nestingLimit | .dataLimit => true
  | _ => false

/-- What a callback gets: a type and data. -/
structure Event where
  type : JsonType
  data : List Byte
  deriving DecidableEq

inductive Mode
  | array | object
  deriving DecidableEq

/-- `json_config`. -/
structure Config where
  bufferInitialSize : Nat
  maxNesting : Nat
  maxData : Nat
  allowCComments : Bool
  allowYamlComments : Bool

/-- How the memory for one more mode, and for one more byte and the NUL behind it, is made sure of. -/
structure Growth (κ : Type) where
  stack : κ → Nat → Except JsonError κ
  buffer : κ → Nat → Except JsonError κ

/-- `json_parser`: the stack from its top, the buffer up to its offset, and the rest of the memory. -/
structure Parser (κ σ : Type) where
  userdata : σ
  state : St
  saveState : St
  expectingKey : Bool
  utf8MultibyteLeft : Nat
  unicodeMulti : Nat
  type : JsonType
  stack : List Mode
  buffer : List Byte
  memory : κ

/-! ## Memory -/

/-- The sizes of the stack and of the buffer, and what `realloc` will answer; from the end of the list
on it has the memory. -/
structure Sizes where
  stackSize : Nat
  bufferSize : Nat
  answers : List Bool

/-- `parser_realloc(parser, ptr, size)`: no memory for no bytes. -/
def Sizes.realloc (m : Sizes) (size : Nat) : Bool × Sizes :=
  (decide (size ≠ 0) && m.answers.headD true, { m with answers := m.answers.tail })

/-- `state_grow(parser)`. -/
def stateGrow (cfg : Config) (m : Sizes) : Except JsonError Sizes :=
  let newsize := m.stackSize * 2 % 2 ^ 32
  if cfg.maxNesting ≠ 0 then .error .nestingLimit
  else
    match m.realloc newsize with
    | (true, m) => .ok { m with stackSize := newsize }
    | (false, _) => .error .noMemory

/-- `buffer_grow(parser)`. -/
def bufferGrow (cfg : Config) (m : Sizes) : Except JsonError Sizes :=
  let max := cfg.maxData
  if max > 0 ∧ m.bufferSize = max then .error .dataLimit
  else
    let newsize := m.bufferSize * 2 % 2 ^ 32
    let newsize := if max > 0 ∧ newsize > max then max else newsize
    match m.realloc newsize with
    | (true, m) => .ok { m with bufferSize := newsize }
    | (false, _) => .error .noMemory

/-- The checks of `state_push` and `buffer_push`. -/
def growth (cfg : Config) : Growth Sizes where
  stack m offset := if offset ≥ m.stackSize then stateGrow cfg m else .ok m
  buffer m offset := if offset + 1 ≥ m.bufferSize then bufferGrow cfg m else .ok m

section Parsing

variable {κ σ : Type} (cfg : Config) (g : Growth κ) (cb : σ → Event → Except JsonError σ)

/-- `state_push(parser, mode)`. -/
def statePush (p : Parser κ σ) (mode : Mode) : Except JsonError (Parser κ σ) :=
  (g.stack p.memory p.stack.length).map fun m => { p with memory := m, stack := mode :: p.stack }

/-- `state_pop(parser, mode)`. -/
def statePop (p : Parser κ σ) (mode : Mode) : Except JsonError (Parser κ σ) :=
  match p.stack with
  | [] => .error .popEmpty
  | m :: stack => if m = mode then .ok { p with stack := stack } else .error .popUnexpectedMode

/-- `buffer_push(parser, c)`. -/
def bufferPush (p : Parser κ σ) (c : Byte) : Except JsonError (Parser κ σ) :=
  (g.buffer p.memory p.buffer.length).map fun m => { p with memory := m, buffer := p.buffer ++ [c] }

/-- `do_callback(parser, type)`, and `do_callback_withbuf(parser, type)` with the buffer as its data. -/
def doCallback (p : Parser κ σ) (type : JsonType) (data : List Byte) : Except JsonError (Parser κ σ) :=
  (cb p.userdata ⟨type, data⟩).map fun u => { p with userdata := u }

/-- The `case` labels of `do_buffer`. -/
def JsonType.isData : JsonType → Bool
  | .key | .string | .float | .int | .litNull | .litTrue | .litFalse => true
  | _ => false

/-- `do_buffer(parser)`. -/
def doBuffer (p : Parser κ σ) : Except JsonError (Parser κ σ) :=
  if p.type.isData then (doCallback cb p p.type p.buffer).map fun p => { p with buffer := [] }
  else .ok { p with buffer := [] }

/-- `hex(c)`. -/
def hex (c : Byte) : Nat :=
  if 48#8 ≤ c ∧ c ≤ 57#8 then c.toNat - 48
  else if 65#8 ≤ c ∧ c ≤ 70#8 then c.toNat - 55
  else if 97#8 ≤ c ∧ c ≤ 102#8 then c.toNat - 87
  else 255

/-- A byte of `(char) n`. -/
def char (n : Nat) : Byte := BitVec.ofNat 8 n

/-- `decode_unicode_char(parser)`: the buffer and `unicode_multi`. -/
def decodeUnicodeChar (p : Parser κ σ) : Except JsonError (Parser κ σ) :=
  let kept := p.buffer.take (p.buffer.length - 4)
  let b := fun i => (p.buffer.drop (p.buffer.length - 4)).getD i 0#8
  let uval := hex (b 0) <<< 12 ||| hex (b 1) <<< 8 ||| hex (b 2) <<< 4 ||| hex (b 3)
  if p.unicodeMulti = 0 ∧ uval < 0x80 then .ok { p with buffer := kept ++ [char uval] }
  else if p.unicodeMulti ≠ 0 then
    if uval &&& 0xfc00 ≠ 0xdc00 then .error .unicodeMissingLowSurrogate
    else
      let uval := 0x10000 + (p.unicodeMulti &&& 0x3ff) <<< 10 + (uval &&& 0x3ff)
      .ok { p with
        buffer := kept ++ [char (uval >>> 18 ||| 0xf0), char (uval >>> 12 &&& 0x3f ||| 0x80),
          char (uval >>> 6 &&& 0x3f ||| 0x80), char (uval &&& 0x3f ||| 0x80)]
        unicodeMulti := 0 }
  else if uval &&& 0xfc00 = 0xdc00 then .error .unicodeUnexpectedLowSurrogate
  else if uval &&& 0xfc00 = 0xd800 then .ok { p with buffer := kept, unicodeMulti := uval }
  else if uval < 0x800 then
    .ok { p with buffer := kept ++ [char (uval >>> 6 ||| 0xc0), char (uval &&& 0x3f ||| 0x80)] }
  else
    .ok { p with
      buffer := kept ++ [char (uval >>> 12 ||| 0xe0), char (uval >>> 6 &&& 0x3f ||| 0x80),
        char (uval >>> 0 &&& 0x3f ||| 0x80)] }

/-- The `switch` of `buffer_push_escape`. -/
def escapeChar (next : Byte) : Byte :=
  if next = 98#8 then 8#8
  else if next = 102#8 then 12#8
  else if next = 110#8 then 10#8
  else if next = 114#8 then 13#8
  else if next = 116#8 then 9#8
  else if next = 34#8 then 34#8
  else if next = 47#8 then 47#8
  else if next = 92#8 then 92#8
  else 0#8

/-- `save_state > STATE__A` is false. -/
def St.atMostA : St → Bool
  | .go | .ok | .o | .k | .co | .v | .a => true
  | _ => false

/-! ## Actions -/

def actUc (p : Parser κ σ) : Except JsonError (Parser κ σ) :=
  (decodeUnicodeChar p).map fun p => { p with state := if p.unicodeMulti ≠ 0 then .d1 else .s }

def actYb (p : Parser κ σ) : Except JsonError (Parser κ σ) :=
  if cfg.allowYamlComments then .ok { p with saveState := p.state } else .error .commentNotAllowed

def actCb (p : Parser κ σ) : Except JsonError (Parser κ σ) :=
  if cfg.allowCComments then .ok { p with saveState := p.state } else .error .commentNotAllowed

def actCe (p : Parser κ σ) : Except JsonError (Parser κ σ) :=
  .ok { p with state := if p.saveState.atMostA then p.saveState else .ok }

def actOb (p : Parser κ σ) : Except JsonError (Parser κ σ) := do
  let p ← doCallback cb p .objectBegin []
  let p ← statePush g p .object
  .ok { p with expectingKey := true }

def actOe (p : Parser κ σ) : Except JsonError (Parser κ σ) := do
  let p ← statePop p .object
  let p ← doCallback cb p .objectEnd []
  .ok { p with expectingKey := false }

def actAb (p : Parser κ σ) : Except JsonError (Parser κ σ) := do
  let p ← doCallback cb p .arrayBegin []
  statePush g p .array

def actAe (p : Parser κ σ) : Except JsonError (Parser κ σ) := do
  let p ← statePop p .array
  doCallback cb p .arrayEnd []

def actSe (p : Parser κ σ) : Except JsonError (Parser κ σ) :=
  (doCallback cb p (if p.expectingKey then .key else .string) p.buffer).map fun p =>
    { p with buffer := [], state := if p.expectingKey then .co else .ok, expectingKey := false }

def actSp (p : Parser κ σ) : Except JsonError (Parser κ σ) :=
  match p.stack with
  | [] => .error .commaOutOfStructure
  | .object :: _ => .ok { p with expectingKey := true, state := .k }
  | .array :: _ => .ok { p with state := .v }

/-- The call of an entry of `actions_map`, after `do_buffer` where the entry says so. -/
def call (p : Parser κ σ) : Act → Except JsonError (Parser κ σ)
  | .sp => do actSp (← doBuffer cb p)
  | .ab => actAb g cb p
  | .ae => do actAe cb (← doBuffer cb p)
  | .ob => actOb g cb p
  | .oe => do actOe cb (← doBuffer cb p)
  | .cb => do actCb cfg (← doBuffer cb p)
  | .yb => do actYb cfg (← doBuffer cb p)
  | .ce => actCe p
  | .se => actSe cb p
  | .uc => actUc p
  | .ks | .fa | .tr | .nu | .de | .df | .mx | .zx | .ix => .ok p

/-- The state of an entry of `actions_map`, if the call does not set it. -/
def Act.state : Act → Option St
  | .ks => some .v
  | .ab => some .a
  | .ae => some .ok
  | .ob => some .o
  | .oe => some .ok
  | .cb => some .c1
  | .yb => some .y1
  | .fa | .tr | .nu => some .ok
  | .de => some .x1
  | .df => some .r1
  | .mx => some .m0
  | .zx => some .z0
  | .ix => some .i0
  | .sp | .ce | .se | .uc => none

/-- The type of an entry of `actions_map`. -/
def Act.type : Act → JsonType
  | .fa => .litFalse
  | .tr => .litTrue
  | .nu => .litNull
  | .de | .df => .float
  | .mx | .zx | .ix => .int
  | _ => .none

/-- `do_action(parser, next_state)`. -/
def doAction (p : Parser κ σ) (act : Act) : Except JsonError (Parser κ σ) :=
  (call cfg g cb p act).map fun p => { p with state := act.state.getD p.state, type := act.type }

/-! ## The loop -/

/-- The class of a byte, with the bytes of a character that are left. -/
def nextClass (left : Nat) (ch : Byte) : Except JsonError (Cls × Nat) :=
  if left > 0 then
    if utf8Continuation ch then .ok (.other, left - 1) else .error .utf8
  else
    match utf8Header ch with
    | none => .error .utf8
    | some 0 =>
      match characterClass ch with
      | some cls => .ok (cls, 0)
      | none => .error .badChar
    | some left => .ok (.other, left)

/-- The byte goes into the buffer, or what it stands for behind a backslash. -/
def keep (p : Parser κ σ) (ch : Byte) : Policy → Except JsonError (Parser κ σ)
  | .ignore => .ok p
  | .append => bufferPush g p ch
  | .escape => bufferPush g p (escapeChar ch)

/-- The body of the loop of `json_parser_string`, behind the class of the byte. -/
def step (p : Parser κ σ) (ch : Byte) (cls : Cls) : Except JsonError (Parser κ σ) :=
  match transition p.state cls with
  | .error => .error .unexpectedChar
  | .goto st => (keep g p ch (bufferPolicy p.state cls)).map fun p => { p with state := st }
  | .act act => do
    let p ← keep g p ch (bufferPolicy p.state cls)
    doAction cfg g cb p act

section

variable {p : Parser κ σ} {ch : Byte} {cls : Cls}

theorem step_error (entry : transition p.state cls = .error) :
    step cfg g cb p ch cls = .error .unexpectedChar := by
  rw [step, entry]

theorem step_goto {st : St} (entry : transition p.state cls = .goto st) :
    step cfg g cb p ch cls =
      (keep g p ch (bufferPolicy p.state cls)).map fun p => { p with state := st } := by
  rw [step, entry]

theorem step_act {act : Act} (entry : transition p.state cls = .act act) :
    step cfg g cb p ch cls =
      (keep g p ch (bufferPolicy p.state cls)).bind fun p => doAction cfg g cb p act := by
  rw [step, entry]
  rfl

end

/-- The body of the loop of `json_parser_string`. -/
def putChar (p : Parser κ σ) (ch : Byte) : Except JsonError (Parser κ σ) := do
  let (cls, left) ← nextClass p.utf8MultibyteLeft ch
  step cfg g cb { p with utf8MultibyteLeft := left } ch cls

/-- `json_parser_string` from the index `i` on: what it returns, and `*processed`. -/
def parseFrom (p : Parser κ σ) (i : Nat) : List Byte → Except JsonError (Parser κ σ) × Nat
  | [] => (.ok p, i)
  | ch :: s =>
    match putChar cfg g cb p ch with
    | .ok p => parseFrom p (i + 1) s
    | .error e => (.error e, i)

/-- `json_parser_string(parser, s, length, processed)`. -/
def jsonParserString (p : Parser κ σ) (s : List Byte) : Except JsonError (Parser κ σ) × Nat :=
  parseFrom cfg g cb p 0 s

/-- `json_parser_is_done(parser)`. -/
def jsonParserIsDone (p : Parser κ σ) : Bool := p.stack.isEmpty && p.state != .go

/-- The parser of `json_parser_init`, with this memory. -/
def initial (u : σ) (memory : κ) : Parser κ σ :=
  ⟨u, .go, .go, false, 0, 0, .none, [], [], memory⟩

end Parsing

/-- The memory of `json_parser_init`. -/
def initSizes (cfg : Config) (answers : List Bool) : Sizes :=
  let stackSize := if cfg.maxNesting > 0 then cfg.maxNesting else 256
  let bufferSize := if cfg.bufferInitialSize > 0 then cfg.bufferInitialSize else 4096
  let bufferSize := if cfg.maxData > 0 ∧ bufferSize > cfg.maxData then cfg.maxData else bufferSize
  ⟨stackSize, bufferSize, answers⟩

/-- `json_parser_init(parser, config, callback, userdata)`; `answers` starts with those of `calloc`. -/
def jsonParserInit {σ : Type} (cfg : Config) (u : σ) (answers : List Bool) :
    Except JsonError (Parser Sizes σ) :=
  match answers with
  | false :: _ => .error .noMemory
  | _ :: false :: _ => .error .noMemory
  | _ => .ok (initial u (initSizes cfg answers.tail.tail))

end SpiderFrame.Libjson
