import SpiderFrame.Libjson.Protocol

/-!
# Building a tree of the events (`libjson/json.c`)

`json_parser_dom_callback` keeps a stack of the arrays and objects that have begun, each with the key that
waits for its value, and calls three functions of the program. An access outside of the memory of the stack,
to an element below its bottom or to a key that was freed has no meaning. `dom_push` grows the stack to a
number of bytes that should be a number of elements; so the callback is sound as long as fewer than 1024
arrays and objects lie in each other, and a limit on nesting below 1024 is what makes sure of it.
-/

namespace SpiderFrame.Libjson
open SpiderFrame.Base

/-- The functions that are given to `json_parser_dom_init`, over the program's own memory and values. NULL is
`none`. -/
structure Builder (μ α : Type) where
  createStructure : μ → Nat → Bool → Option α × μ
  createData : μ → JsonType → List Byte → Option α × μ
  append : μ → α → Option (List Byte) → α → Int × μ

/-- `key` and `key_length` of a `struct stack_elem`. -/
inductive Key
  | null
  | held (data : List Byte)
  | freed

/-- `struct stack_elem`. -/
structure StackElem (α : Type) where
  val : α
  key : Key

def sizeofStackElem : Nat := 24

/-- `json_parser_dom` and the program's memory: the stack from its top, `stack_size`, the bytes that the
stack has, and what the allocator is going to answer. -/
structure Dom (μ α : Type) where
  memory : μ
  stack : List (StackElem α)
  stackSize : Nat
  bytes : Nat
  rootStructure : Option α
  answers : List Bool

variable {μ α : Type}

/-- `json_parser_dom_init(dom, create_structure, create_data, append)`, when `calloc` does not fail. -/
def domInit (memory : μ) (answers : List Bool) : Dom μ α :=
  ⟨memory, [], 1024, 1024 * sizeofStackElem, none, answers⟩

/-- What `calloc` or `realloc` answers. -/
def Dom.alloc (d : Dom μ α) : Bool × Dom μ α := (d.answers.headD true, { d with answers := d.answers.tail })

/-- `ctx->stack[ctx->stack_offset]` is written. -/
def Dom.write (d : Dom μ α) (val : α) : Except JsonError (Dom μ α) :=
  if (d.stack.length + 1) * sizeofStackElem ≤ d.bytes then .ok { d with stack := ⟨val, .null⟩ :: d.stack }
  else .error noMeaning

/-- `dom_push(ctx, val)`, with whether it returns 0. -/
def domPush (d : Dom μ α) (val : α) : Except JsonError (Bool × Dom μ α) :=
  if d.stack.length = d.stackSize then
    let newsize := d.stackSize * 2 % 2 ^ 32
    match d.alloc with
    | (false, d) => .ok (false, d)
    | (true, d) => ({ d with stackSize := newsize, bytes := newsize }.write val).map fun d => (true, d)
  else (d.write val).map fun d => (true, d)

/-- The 1024 elements of `json_parser_dom_init`. -/
def Dom.Fresh (d : Dom μ α) : Prop := d.stackSize = 1024 ∧ d.bytes = 1024 * sizeofStackElem

theorem domPush_below {d : Dom μ α} (fresh : d.Fresh) (few : d.stack.length < 1024) (val : α) :
    domPush d val = .ok (true, { d with stack := ⟨val, .null⟩ :: d.stack }) := by
  have room : (d.stack.length + 1) * sizeofStackElem ≤ d.bytes := by
    rw [fresh.2]
    exact Nat.mul_le_mul_right _ few
  unfold domPush Dom.write
  rw [if_neg (by rw [fresh.1]; exact Nat.ne_of_lt few), if_pos room]
  rfl

theorem Dom.alloc_granted {d : Dom μ α} (granted : ∀ a ∈ d.answers, a = true) :
    d.alloc = (true, { d with answers := d.answers.tail }) := by
  unfold Dom.alloc
  cases answers : d.answers with
  | nil => rfl
  | cons a as =>
    rw [granted a (answers ▸ List.mem_cons_self)]
    rfl

/-- `dom_push` asks for 2048 bytes, and writes an element behind 24576. -/
theorem domPush_full {d : Dom μ α} (fresh : d.Fresh) (full : d.stack.length = 1024)
    (granted : ∀ a ∈ d.answers, a = true) (val : α) : domPush d val = .error noMeaning := by
  unfold domPush Dom.write
  rw [if_pos (full.trans fresh.1.symm), Dom.alloc_granted granted]
  dsimp only
  rw [full, fresh.1, if_neg (by decide)]
  rfl

/-- `dom_pop(ctx, val)`. -/
def domPop (d : Dom μ α) : Except JsonError (α × Dom μ α) :=
  match d.stack with
  | [] => .error noMeaning
  | top :: rest => .ok (top.val, { d with stack := rest })

/-- The key, when `append` gets it. -/
def Key.read : Key → Except JsonError (Option (List Byte))
  | .null => .ok none
  | .held data => .ok (some data)
  | .freed => .error noMeaning

/-- `free(stack->key)`. -/
def Key.free : Key → Except JsonError Key
  | .null => .ok .null
  | .held _ => .ok .freed
  | .freed => .error noMeaning

/-- `&(ctx->stack[ctx->stack_offset - 1])`, and what is below. -/
def Dom.top (d : Dom μ α) : Except JsonError (StackElem α × List (StackElem α)) :=
  match d.stack with
  | [] => .error noMeaning
  | top :: rest => .ok (top, rest)

section

variable (b : Builder μ α)

/-- `ctx->append(stack->val, stack->key, stack->key_length, v)`. -/
def Dom.append (d : Dom μ α) (stack : StackElem α) (v : α) : Except JsonError (Int × Dom μ α) :=
  stack.key.read.map fun key =>
    let (ret, memory) := b.append d.memory stack.val key v
    (ret, { d with memory })

/-- `JSON_ARRAY_BEGIN` and `JSON_OBJECT_BEGIN`. What `dom_push` returns is ignored. -/
def domBegin (d : Dom μ α) (isObject : Bool) : Except JsonError (Dom μ α) :=
  match b.createStructure d.memory d.stack.length isObject with
  | (none, _) => .error .callback
  | (some v, memory) => (domPush { d with memory } v).map (·.2)

/-- `JSON_ARRAY_END` and `JSON_OBJECT_END`. What `append` returns is ignored. -/
def domEnd (d : Dom μ α) : Except JsonError (Dom μ α) := do
  let (v, d) ← domPop d
  match d.stack with
  | [] => .ok { d with rootStructure := some v }
  | stack :: rest =>
    let (_, d) ← d.append b stack v
    let key ← stack.key.free
    .ok { d with stack := { stack with key } :: rest }

/-- `JSON_KEY`. -/
def domKey (d : Dom μ α) (data : List Byte) : Except JsonError (Dom μ α) := do
  let (stack, rest) ← d.top
  match d.alloc with
  | (false, _) => .error .noMemory
  | (true, d) => .ok { d with stack := { stack with key := .held data } :: rest }

/-- The values that are not arrays or objects. -/
def domData (d : Dom μ α) (type : JsonType) (data : List Byte) : Except JsonError (Dom μ α) := do
  let (stack, rest) ← d.top
  match b.createData d.memory type data with
  | (none, _) => .error .callback
  | (some v, memory) =>
    let (ret, d) ← { d with memory }.append b stack v
    if ret ≠ 0 then .error .callback
    else
      let key ← stack.key.free
      .ok { d with stack := { stack with key } :: rest }

/-- `json_parser_dom_callback(userdata, type, data, length)`. -/
def domCallback (d : Dom μ α) (e : Event) : Except JsonError (Dom μ α) :=
  match e.type with
  | .arrayBegin => domBegin b d false
  | .objectBegin => domBegin b d true
  | .arrayEnd | .objectEnd => domEnd b d
  | .key => domKey d e.data
  | .string | .int | .float | .litNull | .litTrue | .litFalse => domData b d e.type e.data
  | .none | .bstring => .ok d

end

/-! ## Errors -/

/-- The errors of `json_parser_dom_callback`, and the one that stands for what has no meaning. -/
def DomError (e : JsonError) : Prop := e = .callback ∨ e = .noMemory ∨ e = noMeaning

theorem write_errors (d : Dom μ α) (val : α) : Meets (fun _ => True) DomError (d.write val) := by
  unfold Dom.write
  split
  · exact .ok trivial
  · exact .error (.inr (.inr rfl))

theorem append_errors (b : Builder μ α) (d : Dom μ α) (s : StackElem α) (v : α) :
    Meets (fun _ => True) DomError (d.append b s v) := by
  unfold Dom.append Key.read
  split
  · exact .ok trivial
  · exact .ok trivial
  · exact .error (.inr (.inr rfl))

theorem free_errors (key : Key) : Meets (fun _ => True) DomError key.free := by
  cases key with
  | freed => exact .error (.inr (.inr rfl))
  | null | held => exact .ok trivial

theorem domBegin_errors (b : Builder μ α) (d : Dom μ α) (isObject : Bool) :
    Meets (fun _ => True) DomError (domBegin b d isObject) := by
  unfold domBegin domPush
  split
  · exact .error (.inl rfl)
  · dsimp only
    split
    · split
      · exact .ok trivial
      · exact ((write_errors _ _).map (R := fun _ => True) fun _ _ => trivial).map fun _ _ => trivial
    · exact ((write_errors _ _).map (R := fun _ => True) fun _ _ => trivial).map fun _ _ => trivial

theorem domEnd_errors (b : Builder μ α) (d : Dom μ α) : Meets (fun _ => True) DomError (domEnd b d) := by
  unfold domEnd domPop
  cases d.stack with
  | nil => exact .error (.inr (.inr rfl))
  | cons top rest =>
    cases rest with
    | nil => exact .ok trivial
    | cons s ss =>
      exact (append_errors b _ s _).bind fun _ _ => (free_errors s.key).bind fun _ _ => .ok trivial

theorem domKey_errors (d : Dom μ α) (data : List Byte) : Meets (fun _ => True) DomError (domKey d data) := by
  unfold domKey Dom.top
  cases d.stack with
  | nil => exact .error (.inr (.inr rfl))
  | cons top rest =>
    dsimp only [bind, Except.bind]
    split
    · exact .error (.inr (.inl rfl))
    · exact .ok trivial

theorem domData_errors (b : Builder μ α) (d : Dom μ α) (type : JsonType) (data : List Byte) :
    Meets (fun _ => True) DomError (domData b d type data) := by
  unfold domData Dom.top
  cases d.stack with
  | nil => exact .error (.inr (.inr rfl))
  | cons top rest =>
    dsimp only [bind, Except.bind]
    split
    · exact .error (.inl rfl)
    · refine (append_errors b _ top _).bind fun made _ => ?_
      split
      · exact .error (.inl rfl)
      · exact (free_errors top.key).bind fun _ _ => .ok trivial

theorem domCallback_errors (b : Builder μ α) (d : Dom μ α) (e : Event) :
    Meets (fun _ => True) DomError (domCallback b d e) := by
  unfold domCallback
  split
  · exact domBegin_errors b d false
  · exact domBegin_errors b d true
  · exact domEnd_errors b d
  · exact domEnd_errors b d
  · exact domKey_errors d e.data
  · exact domData_errors b d e.type e.data
  · exact domData_errors b d e.type e.data
  · exact domData_errors b d e.type e.data
  · exact domData_errors b d e.type e.data
  · exact domData_errors b d e.type e.data
  · exact domData_errors b d e.type e.data
  · exact .ok trivial
  · exact .ok trivial

/-! ## Soundness below 1024 -/

/-- The key of an array or an object in which a value may come (`ready`) or not. -/
def Key.Fits (m : Mode) (ready : Bool) : Key → Prop
  | .null => m = .array ∨ ready = false
  | .held _ => m = .object ∧ ready = true
  | .freed => m = .object ∧ ready = false

/-- The stack of the callback for these modes: a key waits in every object around the innermost. -/
inductive Stacked : List Mode → List (StackElem α) → Prop
  | nil : Stacked [] []
  | cons {m ms} {s : StackElem α} {ss} (key : s.key.Fits m true) (rest : Stacked ms ss) :
    Stacked (m :: ms) (s :: ss)

/-- The stack of the callback after these events. -/
def Nesting.Stack : Nesting → List (StackElem α) → Prop
  | .inside m ready around, s :: ss => s.key.Fits m ready ∧ Stacked around ss
  | .inside _ _ _, [] => False
  | _, ss => ss = []

/-- What holds of the callback's data along events in order. -/
structure Dom.Sound (n : Nesting) (d : Dom μ α) : Prop where
  stack : n.Stack d.stack
  size : d.Fresh

theorem Stacked.length {ms : List Mode} {ss : List (StackElem α)} (h : Stacked ms ss) :
    ss.length = ms.length := by
  induction h with
  | nil => rfl
  | cons key rest ih => exact congrArg (· + 1) ih

theorem Nesting.Stack.length {n : Nesting} {ss : List (StackElem α)} (h : n.Stack ss) :
    ss.length = n.stack.length := by
  cases n with
  | before =>
    obtain rfl : ss = [] := h
    rfl
  | after =>
    obtain rfl : ss = [] := h
    rfl
  | inside m ready around =>
    cases ss with
    | nil => exact h.elim
    | cons s ss => exact congrArg (· + 1) h.2.length

/-- A key that waits is read, and then freed. -/
theorem Key.Fits.used {m : Mode} {key : Key} (h : key.Fits m true) :
    ∃ data key', key.read = .ok data ∧ key.free = .ok key' ∧ key'.Fits m m.free := by
  cases key with
  | null =>
    have array : m = .array := h.resolve_right (by decide)
    exact ⟨none, .null, rfl, rfl, .inl array⟩
  | held data =>
    obtain ⟨object, -⟩ := h
    subst object
    exact ⟨some data, .freed, rfl, rfl, rfl, rfl⟩
  | freed => exact nomatch h.2

section

variable {b : Builder μ α} {d : Dom μ α} {n n' : Nesting}

/-- Where an array or an object may begin, its place is above all the others. -/
theorem Nesting.begin_stack {mode : Mode} {ss : List (StackElem α)} (h : n.Stack ss)
    (next : n.begin mode = some n') : n' = .inside mode mode.free n.stack ∧ Stacked n.stack ss := by
  cases n with
  | before =>
    obtain rfl : ss = [] := h
    exact ⟨(Option.some.inj next).symm, .nil⟩
  | after => cases next
  | inside m ready around =>
    cases ready with
    | false => cases next
    | true =>
      cases ss with
      | nil => exact h.elim
      | cons s ss => exact ⟨(Option.some.inj next).symm, .cons h.1 h.2⟩

theorem Dom.Sound.begins (h : d.Sound n) (few : n.stack.length < 1024) {mode : Mode}
    (next : n.begin mode = some n') (isObject : Bool) :
    Meets (Dom.Sound n') (fun e => e ≠ noMeaning) (domBegin b d isObject) := by
  obtain ⟨stack, size⟩ := h
  obtain ⟨rfl, around⟩ := Nesting.begin_stack stack next
  unfold domBegin
  split
  · exact .error (by decide)
  · rename_i v memory _
    rw [domPush_below (d := { d with memory }) size (by rw [stack.length]; exact few) v]
    refine .ok ⟨⟨?_, around⟩, size⟩
    cases mode with
    | array => exact .inl rfl
    | object => exact .inr rfl

/-- The innermost array or object gets a value. -/
theorem Dom.append_used {m : Mode} {s : StackElem α} (key : s.key.Fits m true) (v : α) :
    ∃ ret memory key', d.append b s v = .ok (ret, { d with memory }) ∧ s.key.free = .ok key' ∧
      key'.Fits m m.free := by
  obtain ⟨data, key', read, free, fits⟩ := key.used
  unfold Dom.append
  rw [read]
  exact ⟨_, _, key', rfl, free, fits⟩

theorem Dom.Sound.ends (h : d.Sound n) {mode : Mode} (next : n.end_ mode = some n') :
    Meets (Dom.Sound n') (fun e => e ≠ noMeaning) (domEnd b d) := by
  obtain ⟨stack, size⟩ := h
  cases n with
  | before | after => cases next
  | inside m ready around =>
    have behind : Nesting.behind around = n' := by
      change (if m = mode ∧ ready = m.free then some (Nesting.behind around) else none) = some n' at next
      split at next
      · exact Option.some.inj next
      · cases next
    subst behind
    cases whole : d.stack with
    | nil =>
      rw [whole] at stack
      exact stack.elim
    | cons s ss =>
      rw [whole] at stack
      unfold domEnd domPop
      rw [whole]
      cases stack.2 with
      | nil => exact .ok ⟨rfl, size⟩
      | @cons m' ms s' ss key rest =>
        obtain ⟨ret, memory, key', appended, free, fits⟩ :=
          Dom.append_used (b := b) (d := { d with stack := s' :: ss }) key s.val
        change Meets _ _ (({ d with stack := s' :: ss }.append b s' s.val).bind _)
        rw [appended]
        change Meets _ _ (s'.key.free.bind _)
        rw [free]
        exact .ok ⟨⟨fits, rest⟩, size⟩

theorem Dom.Sound.key (h : d.Sound n) (next : n.next .key = some n') (data : List Byte) :
    Meets (Dom.Sound n') (fun e => e ≠ noMeaning) (domKey d data) := by
  obtain ⟨stack, size⟩ := h
  unfold Nesting.next at next
  dsimp only at next
  split at next
  · rename_i around
    cases next
    cases whole : d.stack with
    | nil =>
      rw [whole] at stack
      exact stack.elim
    | cons s ss =>
      rw [whole] at stack
      unfold domKey Dom.top
      rw [whole]
      dsimp only [bind, Except.bind]
      cases answer : d.alloc with
      | mk given d' =>
        obtain rfl : d' = { d with answers := d.answers.tail } := (Prod.mk.inj answer).2.symm
        cases given with
        | false => exact .error (by decide)
        | true => exact .ok ⟨⟨⟨rfl, rfl⟩, stack.2⟩, size⟩
  · cases next

theorem Dom.Sound.data {m : Mode} {around : List Mode} (h : d.Sound (.inside m true around))
    (type : JsonType) (data : List Byte) :
    Meets (Dom.Sound (.behind (m :: around))) (fun e => e ≠ noMeaning) (domData b d type data) := by
  obtain ⟨stack, size⟩ := h
  cases whole : d.stack with
  | nil =>
    rw [whole] at stack
    exact stack.elim
  | cons s ss =>
    rw [whole] at stack
    unfold domData Dom.top
    rw [whole]
    dsimp only [bind, Except.bind]
    cases b.createData d.memory type data with
    | mk v memory =>
      cases v with
      | none => exact .error (by decide)
      | some v =>
        obtain ⟨ret, memory', key', appended, free, fits⟩ :=
          Dom.append_used (b := b) (d := { d with memory, stack := s :: ss }) stack.1 v
        change Meets _ _ (({ d with memory, stack := s :: ss }.append b s v).bind _)
        rw [appended]
        change Meets _ _ (if ret ≠ 0 then _ else s.key.free.bind _)
        split
        · exact .error (by decide)
        · rw [free]
          exact .ok ⟨⟨fits, stack.2⟩, size⟩

/-- **One event.** -/
theorem Dom.Sound.event (h : d.Sound n) (few : n.stack.length < 1024) {e : Event}
    (next : n.next e.type = some n') :
    Meets (Dom.Sound n') (fun e => e ≠ noMeaning) (domCallback b d e) := by
  obtain ⟨type, data⟩ := e
  have value : ∀ m around, n = .inside m true around → some (Nesting.behind (m :: around)) = some n' →
      Meets (Dom.Sound n') (fun e => e ≠ noMeaning) (domData b d type data) := by
    rintro m around rfl same
    cases same
    exact h.data type data
  cases type with
  | arrayBegin => exact h.begins few next false
  | objectBegin => exact h.begins few next true
  | arrayEnd => exact h.ends next
  | objectEnd => exact h.ends next
  | key => exact h.key next data
  | string | int | float | litTrue | litFalse | litNull =>
    unfold Nesting.next at next
    dsimp only at next
    split at next
    · exact value _ _ rfl next
    · cases next
  | none | bstring => cases next

end

/-- With fewer than 1024 levels allowed, the callback is sound for every text. -/
theorem dom_sound {cfg : Config} (limit : 0 < cfg.maxNesting ∧ cfg.maxNesting < 1024) (b : Builder μ α)
    (mem : μ) (domAnswers answers : List Bool) (s : List Byte) :
    readBytes cfg (growth cfg) (domCallback b) (initial (domInit mem domAnswers) (initSizes cfg answers)) s ≠
      .error noMeaning := by
  have keeps : Keeps (growth cfg) (domCallback b)
      (fun m k => m.stackSize = cfg.maxNesting ∧ k ≤ cfg.maxNesting) Dom.Sound
      (fun e => e ≠ noMeaning) := by
    refine ⟨?_, ofText_ne_user 0, ?_, fun m k h => ⟨h.1, Nat.le_of_succ_le h.2⟩, ?_⟩
    · intro m n n' d e room sound next
      exact sound.event (Nat.lt_of_le_of_lt room.2 limit.2) next
    · intro m k room
      unfold growth stateGrow
      dsimp only
      split
      · rw [if_pos (Nat.ne_of_gt limit.1)]
        exact .error (by decide)
      · rename_i below
        exact .ok ⟨room.1, by omega⟩
    · intro m k bytes room
      unfold growth bufferGrow
      dsimp only
      split
      · split
        · exact .error (by decide)
        · split
          · rename_i m' asked
            obtain rfl := (Prod.mk.inj asked).2
            exact .ok room
          · exact .error (by decide)
      · exact .ok room
  have room : (initSizes cfg answers).stackSize = cfg.maxNesting ∧ 0 ≤ cfg.maxNesting :=
    ⟨if_pos limit.1, Nat.zero_le _⟩
  have start : (domInit mem domAnswers : Dom μ α).Sound .before := ⟨rfl, rfl, rfl⟩
  intro stopped
  exact (keeps.readBytes room start s).failure stopped rfl

/-! ## At 1024 levels -/

/-- A program that does not look at what it is told. -/
def blind : Builder Unit Unit := ⟨fun _ _ _ => (some (), ()), fun _ _ _ => (some (), ()), fun _ _ _ _ => (0, ())⟩

section

variable {cfg : Config} {k : Nat}

/-- Room for `k` modes, and more of it up to 1024. -/
structure Wide (cfg : Config) (m : Sizes) (k : Nat) : Prop where
  unlimited : cfg.maxNesting = 0 → m.answers = [] ∧ 0 < m.stackSize ∧ k ≤ m.stackSize ∧ m.stackSize ≤ 2048
  limited : 0 < cfg.maxNesting → 1024 ≤ m.stackSize

theorem Wide.push {m : Sizes} (h : Wide cfg m k) (few : k < 1024) :
    ∃ m', (growth cfg).stack m k = .ok m' ∧ Wide cfg m' (k + 1) := by
  unfold growth
  dsimp only
  rcases Nat.eq_zero_or_pos cfg.maxNesting with none_ | some_
  · obtain ⟨answers, pos, within, most⟩ := h.unlimited none_
    by_cases full : k ≥ m.stackSize
    · have size : m.stackSize * 2 % 2 ^ 32 = m.stackSize * 2 := Nat.mod_eq_of_lt (by omega)
      have asked : m.realloc (m.stackSize * 2) = (true, { m with answers := [] }) := by
        unfold Sizes.realloc
        rw [answers, decide_eq_true (by omega)]
        rfl
      unfold stateGrow
      dsimp only
      rw [if_pos full, if_neg (not_not_intro none_), size, asked]
      refine ⟨_, rfl, fun _ => ⟨rfl, ?_, ?_, ?_⟩, fun some_ => absurd none_ (Nat.ne_of_gt some_)⟩
      all_goals
        dsimp only
        omega
    · rw [if_neg full]
      exact ⟨m, rfl, fun _ => ⟨answers, pos, by omega, most⟩, h.limited⟩
  · have room := h.limited some_
    rw [if_neg (by omega)]
    exact ⟨m, rfl, fun none_ => absurd none_ (Nat.ne_of_gt some_), h.limited⟩

/-- The parser and the callback behind `k` brackets. -/
structure Opened (cfg : Config) (k : Nat) (p : Parser Sizes (Dom Unit Unit)) : Prop where
  state : p.state = .go ∨ p.state = .a
  left : p.utf8MultibyteLeft = 0
  modes : p.stack.length = k
  memory : Wide cfg p.memory k
  stack : p.userdata.stack.length = k
  size : p.userdata.Fresh
  answers : p.userdata.answers = []

theorem Opened.bracket {p : Parser Sizes (Dom Unit Unit)} (h : Opened cfg k p) :
    putChar cfg (growth cfg) (domCallback blind) p 91#8 =
      doAction cfg (growth cfg) (domCallback blind) p .ab := by
  have same : { p with utf8MultibyteLeft := 0 } = p := by rw [← h.left]
  have entry : transition p.state .lsqrb = .act .ab ∧ bufferPolicy p.state .lsqrb = .ignore := by
    rcases h.state with state | state <;> rw [state] <;> exact ⟨rfl, rfl⟩
  unfold putChar
  rw [h.left, show nextClass 0 91#8 = .ok (.lsqrb, 0) by decide]
  change step _ _ _ { p with utf8MultibyteLeft := 0 } _ _ = _
  rw [same, step_act _ _ _ entry.1, entry.2]
  rfl

/-- One more bracket. -/
theorem Opened.more {p : Parser Sizes (Dom Unit Unit)} (h : Opened cfg k p) (few : k < 1024) :
    ∃ q, putChar cfg (growth cfg) (domCallback blind) p 91#8 = .ok q ∧ Opened cfg (k + 1) q := by
  obtain ⟨m, pushed, wide⟩ := h.memory.push few
  let d : Dom Unit Unit := { p.userdata with memory := (), stack := ⟨(), .null⟩ :: p.userdata.stack }
  have begun : domCallback blind p.userdata ⟨.arrayBegin, []⟩ = .ok d := by
    change (domPush { p.userdata with memory := () } ()).map _ = _
    rw [domPush_below h.size (by rw [h.stack]; exact few)]
    rfl
  refine ⟨{ p with userdata := d, memory := m, stack := .array :: p.stack, state := .a, type := .none }, ?_, ?_⟩
  · rw [h.bracket]
    unfold doAction call actAb doCallback statePush
    rw [begun]
    change Except.map _ (((growth cfg).stack p.memory p.stack.length).map _) = _
    rw [h.modes, pushed]
    rfl
  · exact ⟨.inr rfl, h.left, congrArg (· + 1) h.modes, wide, congrArg (· + 1) h.stack, h.size, h.answers⟩

/-- The element behind 1024 others. -/
theorem Opened.last {p : Parser Sizes (Dom Unit Unit)} (h : Opened cfg 1024 p) :
    putChar cfg (growth cfg) (domCallback blind) p 91#8 = .error noMeaning := by
  have begun : domCallback blind p.userdata ⟨.arrayBegin, []⟩ = .error noMeaning := by
    change (domPush { p.userdata with memory := () } ()).map _ = _
    rw [domPush_full h.size h.stack (h.answers ▸ List.forall_mem_nil _)]
    rfl
  rw [h.bracket]
  unfold doAction call actAb doCallback
  rw [begun]
  rfl

theorem opened (cfg : Config) (k : Nat) (wide : cfg.maxNesting = 0 ∨ 1024 ≤ cfg.maxNesting) (le : k ≤ 1024) :
    ∃ p, readBytes cfg (growth cfg) (domCallback blind) (initial (domInit () []) (initSizes cfg []))
      (List.replicate k 91#8) = .ok p ∧ Opened cfg k p := by
  induction k with
  | zero =>
    refine ⟨_, rfl, .inl rfl, rfl, rfl, ⟨fun none_ => ?_, fun some_ => ?_⟩, rfl, ⟨rfl, rfl⟩, rfl⟩
    · have size : (initSizes cfg []).stackSize = 256 := if_neg (by omega)
      refine ⟨rfl, ?_, Nat.zero_le _, ?_⟩
      · change 0 < (initSizes cfg []).stackSize
        omega
      · change (initSizes cfg []).stackSize ≤ 2048
        omega
    · have size : (initSizes cfg []).stackSize = cfg.maxNesting := if_pos some_
      change 1024 ≤ (initSizes cfg []).stackSize
      omega
  | succ k ih =>
    obtain ⟨p, read, opened⟩ := ih (Nat.le_of_succ_le le)
    obtain ⟨q, more, opened⟩ := opened.more le
    refine ⟨q, ?_, opened⟩
    rw [List.replicate_succ', readBytes_append_ok read, readBytes_cons, more]
    rfl

end

/-- **`json_parser_dom_callback` is sound for every text, every program and every answer of the allocator if
and only if the configuration allows fewer than 1024 levels**: the limit is looked at behind the callback, and
no limit is set by default. -/
theorem dom_sound_iff (cfg : Config) :
    (∀ (μ α : Type) (b : Builder μ α) (mem : μ) (domAnswers answers : List Bool) (pieces : List (List Byte)),
      (processFile cfg (growth cfg) (domCallback b) (initial (domInit mem domAnswers)
        (initSizes cfg answers)) pieces).1 ≠ .error noMeaning) ↔
      0 < cfg.maxNesting ∧ cfg.maxNesting < 1024 := by
  constructor
  · intro sound
    by_contra wide
    obtain ⟨p, read, opened⟩ := opened cfg 1024 (by omega) (Nat.le_refl _)
    refine sound Unit Unit blind () [] [] [List.replicate 1024 91#8 ++ [91#8]] ?_
    rw [processFile_result, List.flatten_singleton, readBytes_append_ok read, readBytes_cons, opened.last]
    rfl
  · intro limit μ α b mem domAnswers answers pieces
    rw [processFile_result]
    exact dom_sound limit b mem domAnswers answers pieces.flatten

end SpiderFrame.Libjson
