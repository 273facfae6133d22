import SpiderFrame.Libjson.Limits
import SpiderFrame.Libjson.Unbounded

/-!
# The order of the events

Whatever the text is like, with comments or without, a callback gets the events of values that lie in each
other, and in an object the events of a key and of a value in turn (`Nesting.next`). An invariant that the
callback keeps along such events holds in every run of the parser.
-/

namespace SpiderFrame.Libjson
open SpiderFrame.Base

/-! ## Events in order -/

/-- In an array a value may always come; in an object only behind a key. -/
def Mode.free (m : Mode) : Bool := m = .array

/-- Where a run is: before the array or the object that is the text, behind it, or inside of one, with those
around it. -/
inductive Nesting
  | before
  | inside (mode : Mode) (ready : Bool) (around : List Mode)
  | after
  deriving DecidableEq

namespace Nesting

/-- The modes in the stack of the parser. -/
def stack : Nesting → List Mode
  | .inside m _ around => m :: around
  | _ => []

/-- Behind a value that lies in these. -/
def behind : List Mode → Nesting
  | [] => .after
  | m :: around => .inside m m.free around

/-- An array or an object begins. -/
def begin (mode : Mode) : Nesting → Option Nesting
  | .before => some (.inside mode mode.free [])
  | .inside m true around => some (.inside mode mode.free (m :: around))
  | _ => none

/-- An array or an object ends; in an object no key waits for its value. -/
def end_ (mode : Mode) : Nesting → Option Nesting
  | .inside m ready around => if m = mode ∧ ready = m.free then some (behind around) else none
  | _ => none

/-- The event is in order. -/
def next (n : Nesting) : JsonType → Option Nesting
  | .arrayBegin => n.begin .array
  | .objectBegin => n.begin .object
  | .arrayEnd => n.end_ .array
  | .objectEnd => n.end_ .object
  | .key =>
    match n with
    | .inside .object false around => some (.inside .object true around)
    | _ => none
  | .int | .float | .string | .litTrue | .litFalse | .litNull =>
    match n with
    | .inside m true around => some (behind (m :: around))
    | _ => none
  | .none | .bstring => none

end Nesting

/-! ## The states of the parser -/

inductive Kind
  | start | behind | name | colon | value | array | string | number | literal | comment
  deriving DecidableEq

def St.kind : St → Kind
  | .go => .start
  | .ok => .behind
  | .o | .k => .name
  | .co => .colon
  | .v => .value
  | .a => .array
  | .s | .e0 | .u1 | .u2 | .u3 | .u4 | .d1 | .d2 => .string
  | .m0 | .z0 | .i0 | .r1 | .r2 | .x1 | .x2 | .x3 => .number
  | .t1 | .t2 | .t3 | .f1 | .f2 | .f3 | .f4 | .n1 | .n2 | .n3 => .literal
  | .c1 | .c2 | .c3 | .y1 => .comment

/-- The types of a number or a literal that waits for what ends it. -/
def JsonType.waits : JsonType → Bool
  | .int | .float | .litTrue | .litFalse | .litNull => true
  | _ => false

/-- The events so far, by the state, `expecting_key` and the type of what waits. -/
inductive Kind.Fits : Kind → Bool → JsonType → Nesting → Prop
  | start : Fits .start false .none .before
  | after (around : List Mode) : Fits .behind false .none (.behind around)
  | waiting (m : Mode) (around : List Mode) {type : JsonType} (waits : type.waits = true) :
    Fits .behind false type (.inside m true around)
  | name (around : List Mode) : Fits .name true .none (.inside .object false around)
  | colon (around : List Mode) : Fits .colon false .none (.inside .object true around)
  | value (m : Mode) (around : List Mode) : Fits .value false .none (.inside m true around)
  | array (around : List Mode) : Fits .array false .none (.inside .array true around)
  | key (around : List Mode) : Fits .string true .none (.inside .object false around)
  | string (m : Mode) (around : List Mode) : Fits .string false .none (.inside m true around)
  | number (m : Mode) (around : List Mode) {type : JsonType} (waits : type.waits = true) :
    Fits .number false type (.inside m true around)
  | literal (m : Mode) (around : List Mode) : Fits .literal false .none (.inside m true around)

/-- The kind of the state behind a comment. -/
def St.resumed (st : St) : Kind := if st.atMostA then st.kind else .behind

section

variable {κ σ : Type}

def Parser.kind (p : Parser κ σ) : Kind :=
  if p.state.kind = .comment then p.saveState.resumed else p.state.kind

/-- The events that the parser has sent, by what it is like. -/
structure Parser.In (p : Parser κ σ) (n : Nesting) : Prop where
  stack : n.stack = p.stack
  fits : p.kind.Fits p.expectingKey p.type n
  comment : p.state.kind = .comment → p.type = .none

end

/-! ## The table -/

/-- The kinds of the states between which a byte leads without an action. -/
def Kind.onward (k k' : Kind) : Bool :=
  k = k' || (k, k') ∈ [(Kind.name, Kind.string), (.value, .string), (.array, .string), (.value, .literal),
    (.array, .literal), (.number, .behind)]

/-- The kinds of the states in which an action is taken. -/
def Act.kinds : Act → List Kind
  | .ks => [.colon]
  | .sp => [.behind, .number]
  | .ab | .ob => [.start, .value, .array]
  | .ae => [.array, .behind, .number]
  | .oe => [.name, .behind, .number]
  | .cb | .yb => [.start, .behind, .name, .colon, .value, .array, .number]
  | .ce => [.comment]
  | .fa | .tr | .nu => [.literal]
  | .de | .df => [.number]
  | .se | .uc => [.string]
  | .mx | .zx | .ix => [.value, .array]

def entryKinds (st : St) : Next → Bool
  | .error => true
  | .goto st' => st.kind.onward st'.kind
  | .act act => act.kinds.contains st.kind

theorem entry_kinds : ∀ st cls, entryKinds st (transition st cls) = true := by decide +kernel

theorem Kind.onward_cases {k k' : Kind} (edge : k.onward k' = true) :
    k = k' ∨ (k = .name ∧ k' = .string) ∨ (k = .value ∧ k' = .string) ∨ (k = .array ∧ k' = .string) ∨
      (k = .value ∧ k' = .literal) ∨ (k = .array ∧ k' = .literal) ∨ (k = .number ∧ k' = .behind) := by
  unfold Kind.onward at edge
  simpa only [Bool.or_eq_true, decide_eq_true_eq, List.mem_cons, Prod.mk.injEq, List.not_mem_nil,
    or_false] using edge

theorem Kind.onward_comment {k k' : Kind} (edge : k.onward k' = true) : k = .comment ↔ k' = .comment := by
  rcases k.onward_cases edge with rfl | ⟨rfl, rfl⟩ | ⟨rfl, rfl⟩ | ⟨rfl, rfl⟩ | ⟨rfl, rfl⟩ | ⟨rfl, rfl⟩ |
    ⟨rfl, rfl⟩
  · exact Iff.rfl
  all_goals decide

theorem Kind.Fits.onward {k k' : Kind} {key : Bool} {type : JsonType} {n : Nesting}
    (h : k.Fits key type n) (edge : k.onward k' = true) : k'.Fits key type n := by
  rcases k.onward_cases edge with rfl | ⟨rfl, rfl⟩ | ⟨rfl, rfl⟩ | ⟨rfl, rfl⟩ | ⟨rfl, rfl⟩ | ⟨rfl, rfl⟩ |
    ⟨rfl, rfl⟩
  · exact h
  · cases h with
    | name around => exact .key around
  · cases h with
    | value m around => exact .string m around
  · cases h with
    | array around => exact .string .array around
  · cases h with
    | value m around => exact .literal m around
  · cases h with
    | array around => exact .literal .array around
  · cases h with
    | number m around waits => exact .waiting m around waits

/-- The kind of the state once what waits is sent. -/
def Kind.sent : Kind → Kind
  | .number => .behind
  | k => k

/-- Either a number or a literal waits, or nothing does. -/
theorem Kind.Fits.sent {k : Kind} {key : Bool} {type : JsonType} {n : Nesting} (h : k.Fits key type n) :
    (type = .none ∧ k.sent.Fits key .none n) ∨
      (type.waits = true ∧ key = false ∧ k.sent = .behind ∧ ∃ m around, n = .inside m true around) := by
  cases h with
  | start => exact .inl ⟨rfl, .start⟩
  | after around => exact .inl ⟨rfl, .after around⟩
  | waiting m around waits => exact .inr ⟨waits, rfl, rfl, m, around, rfl⟩
  | name around => exact .inl ⟨rfl, .name around⟩
  | colon around => exact .inl ⟨rfl, .colon around⟩
  | value m around => exact .inl ⟨rfl, .value m around⟩
  | array around => exact .inl ⟨rfl, .array around⟩
  | key around => exact .inl ⟨rfl, .key around⟩
  | string m around => exact .inl ⟨rfl, .string m around⟩
  | number m around waits => exact .inr ⟨waits, rfl, rfl, m, around, rfl⟩
  | literal m around => exact .inl ⟨rfl, .literal m around⟩

theorem JsonType.waits_sent {type : JsonType} (waits : type.waits = true) (m : Mode) (around : List Mode) :
    type.isData = true ∧ (Nesting.inside m true around).next type = some (.behind (m :: around)) := by
  cases type <;> first | exact ⟨rfl, rfl⟩ | exact Bool.noConfusion waits

theorem Nesting.behind_stack (around : List Mode) : (Nesting.behind around).stack = around := by
  cases around <;> rfl

/-- Where nothing waits behind a value. -/
theorem Kind.Fits.of_behind {key : Bool} {n : Nesting} (h : Kind.Fits .behind key .none n) :
    key = false ∧ n = .behind n.stack := by
  cases h with
  | after around => exact ⟨rfl, by rw [Nesting.behind_stack]⟩
  | waiting m around waits => exact Bool.noConfusion waits

/-- Where an array or an object may begin. -/
theorem Kind.Fits.opens {k : Kind} {key : Bool} {type : JsonType} {n : Nesting}
    (h : k.Fits key type n) (kind : k ∈ [Kind.start, .value, .array]) :
    key = false ∧ ∀ mode, n.begin mode = some (.inside mode mode.free n.stack) := by
  cases h with
  | start => exact ⟨rfl, fun _ => rfl⟩
  | value m around => exact ⟨rfl, fun _ => rfl⟩
  | array around => exact ⟨rfl, fun _ => rfl⟩
  | _ => simp only [List.mem_cons, reduceCtorEq, List.not_mem_nil, or_false] at kind

/-- Where a scalar value may begin. -/
theorem Kind.Fits.scalar {k : Kind} {key : Bool} {type : JsonType} {n : Nesting}
    (h : k.Fits key type n) (kind : k ∈ [Kind.value, .array, .number, .literal]) :
    key = false ∧ ∃ m around, n = .inside m true around := by
  cases h with
  | value m around => exact ⟨rfl, m, around, rfl⟩
  | array around => exact ⟨rfl, .array, around, rfl⟩
  | number m around => exact ⟨rfl, m, around, rfl⟩
  | literal m around => exact ⟨rfl, m, around, rfl⟩
  | _ => simp only [List.mem_cons, reduceCtorEq, List.not_mem_nil, or_false] at kind

/-- Where an array ends. -/
theorem Kind.Fits.closes_array {k : Kind} {key : Bool} {n : Nesting} {around : List Mode}
    (h : k.Fits key .none n) (kind : k = .array ∨ k = .behind) (stack : n.stack = .array :: around) :
    key = false ∧ n.next .arrayEnd = some (.behind around) := by
  rcases kind with rfl | rfl
  · cases h with
    | array around' =>
      cases stack
      exact ⟨rfl, rfl⟩
  · obtain ⟨key, same⟩ := h.of_behind
    rw [same, stack]
    exact ⟨key, rfl⟩

/-- Where an object ends. -/
theorem Kind.Fits.closes_object {k : Kind} {key : Bool} {n : Nesting} {around : List Mode}
    (h : k.Fits key .none n) (kind : k = .name ∨ k = .behind) (stack : n.stack = .object :: around) :
    n.next .objectEnd = some (.behind around) := by
  rcases kind with rfl | rfl
  · cases h with
    | name around' =>
      cases stack
      rfl
  · rw [h.of_behind.2, stack]
    rfl

theorem Kind.Fits.before {k : Kind} {key : Bool} {type : JsonType} (h : k.Fits key type .before) :
    k = .start := by
  generalize same : Nesting.before = n at h
  cases h with
  | start => rfl
  | after around => cases around <;> cases same
  | _ => cases same

theorem kind_start : ∀ st : St, st.kind = .start → st = .go := by decide

theorem resumed_sent : ∀ st : St, st.kind ∈ Act.cb.kinds → st.resumed = st.kind.sent := by decide

theorem resumed_comment : ∀ st : St, st.resumed ≠ .comment := by decide

theorem resumed_kind : ∀ st : St, (if st.atMostA then st else .ok).kind = st.resumed := by decide

/-! ## Callbacks -/

section

variable {κ σ : Type} {cfg : Config} {g : Growth κ} {cb : σ → Event → Except JsonError σ}
  {M : κ → Nat → Prop} {I : Nesting → σ → Prop} {E : JsonError → Prop} {p : Parser κ σ} {n : Nesting}

/-- The callback keeps `I` along events in order, where `M` holds of the memory for so many modes. The parser
stops with the errors `E`. -/
structure Keeps (g : Growth κ) (cb : σ → Event → Except JsonError σ) (M : κ → Nat → Prop)
    (I : Nesting → σ → Prop) (E : JsonError → Prop) : Prop where
  event : ∀ m n n' u e, M m n.stack.length → I n u → n.next e.type = some n' → Meets (I n') E (cb u e)
  text : ∀ e, e.ofText = true → E e
  push : ∀ m k, M m k → Meets (M · (k + 1)) E (g.stack m k)
  pop : ∀ m k, M m (k + 1) → M m k
  put : ∀ m k bytes, M m k → Meets (M · k) E (g.buffer m bytes)

/-- What holds after these events. -/
def Parser.Told (M : κ → Nat → Prop) (I : Nesting → σ → Prop) (p : Parser κ σ) (n : Nesting) : Prop :=
  M p.memory n.stack.length ∧ I n p.userdata

/-- The events so far are in order, and the parser is in a state for them. -/
def Parser.Keeping (M : κ → Nat → Prop) (I : Nesting → σ → Prop) (p : Parser κ σ) : Prop :=
  ∃ n, p.Told M I n ∧ p.In n

theorem Keeps.doCallback (keeps : Keeps g cb M I E) (here : p.Told M I n) {type : JsonType}
    (data : List Byte) {n' : Nesting} (next : n.next type = some n') :
    Meets (fun q => ∃ u, I n' u ∧ q = { p with userdata := u }) E (doCallback cb p type data) := by
  unfold Libjson.doCallback
  exact (keeps.event p.memory n n' p.userdata ⟨type, data⟩ here.1 here.2 next).map
    fun u kept => ⟨u, kept, rfl⟩

/-- What a parser is like once what waits is sent. -/
def Parser.Sent (M : κ → Nat → Prop) (I : Nesting → σ → Prop) (p : Parser κ σ) (k : Kind) (n : Nesting)
    (q : Parser κ σ) : Prop :=
  ∃ u n', (M p.memory n'.stack.length ∧ I n' u) ∧ n'.stack = n.stack ∧
    k.sent.Fits p.expectingKey .none n' ∧ q = { p with userdata := u, buffer := [] }

/-- What waits is sent before the action. -/
theorem Keeps.doBuffer (keeps : Keeps g cb M I E) (here : p.Told M I n) {k : Kind}
    (fits : k.Fits p.expectingKey p.type n) : Meets (p.Sent M I k n) E (doBuffer cb p) := by
  unfold Libjson.doBuffer
  rcases fits.sent with ⟨none_, fits⟩ | ⟨waits, key, kind, m, around, rfl⟩
  · rw [if_neg (by rw [none_]; exact Bool.false_ne_true)]
    exact .ok ⟨p.userdata, n, here, rfl, fits, rfl⟩
  · obtain ⟨data, next⟩ := p.type.waits_sent waits m around
    rw [if_pos data]
    refine (keeps.doCallback here p.buffer next).map fun q told => ?_
    obtain ⟨u, kept, rfl⟩ := told
    refine ⟨u, .behind (m :: around), ⟨here.1, kept⟩, rfl, ?_, rfl⟩
    rw [kind, key]
    exact .after (m :: around)

theorem Keeps.statePush (keeps : Keeps g cb M I E) (room : M p.memory p.stack.length) (mode : Mode) :
    Meets (fun q => ∃ m, M m (p.stack.length + 1) ∧ q = { p with memory := m, stack := mode :: p.stack }) E
      (statePush g p mode) :=
  (keeps.push p.memory p.stack.length room).map fun m more => ⟨m, more, rfl⟩

theorem Keeps.keep (keeps : Keeps g cb M I E) {k : Nat} (room : M p.memory k) (ch : Byte)
    (policy : Policy) :
    Meets (fun q => ∃ m buf, M m k ∧ q = { p with memory := m, buffer := buf }) E (keep g p ch policy) := by
  have put : ∀ c, Meets (fun q => ∃ m buf, M m k ∧ q = { p with memory := m, buffer := buf }) E
      (bufferPush g p c) := fun c =>
    (keeps.put p.memory k p.buffer.length room).map fun m more => ⟨m, _, more, rfl⟩
  cases policy with
  | ignore => exact .ok ⟨p.memory, p.buffer, room, rfl⟩
  | append => exact put ch
  | escape => exact put _

/-- The state behind an action: its kind, and the events so far. -/
def Parser.Goes (M : κ → Nat → Prop) (I : Nesting → σ → Prop) (act : Act) (q : Parser κ σ) : Prop :=
  Parser.Keeping M I { q with state := act.state.getD q.state, type := act.type }

theorem Parser.Goes.of {q : Parser κ σ} {act : Act} {k : Kind} (here : q.Told M I n)
    (stack : n.stack = q.stack) (kind : (act.state.getD q.state).kind = k) (notComment : k ≠ .comment)
    (fits : k.Fits q.expectingKey act.type n) : q.Goes M I act := by
  refine ⟨n, here, stack, ?_, ?_⟩
  · unfold Parser.kind
    dsimp only
    rw [kind, if_neg notComment]
    exact fits
  · intro comment
    exact absurd (kind.symm.trans comment) notComment

theorem Parser.kind_of (notComment : p.state.kind ≠ .comment) : p.kind = p.state.kind := if_neg notComment

/-- Only the buffer and `unicode_multi` change. -/
theorem Keeps.decode (keeps : Keeps g cb M I E) (p : Parser κ σ) :
    Meets (fun q => ∃ buf multi, q = { p with buffer := buf, unicodeMulti := multi }) E
      (decodeUnicodeChar p) := by
  unfold decodeUnicodeChar
  dsimp only
  split
  · exact .ok ⟨_, _, rfl⟩
  · split
    · split
      · exact .error (keeps.text _ rfl)
      · exact .ok ⟨_, _, rfl⟩
    · split
      · exact .error (keeps.text _ rfl)
      · split
        · exact .ok ⟨_, _, rfl⟩
        · split <;> exact .ok ⟨_, _, rfl⟩

/-- An action that begins a comment, once what waits is sent. -/
theorem Parser.Goes.comments {q : Parser κ σ} {u : σ} {n' : Nesting} {act : Act} {st : St}
    (from_ : p.state.kind ∈ Act.cb.kinds) (here : M p.memory n'.stack.length ∧ I n' u) (stack : n'.stack = p.stack)
    (fits : p.state.kind.sent.Fits p.expectingKey .none n') (state : act.state = some st)
    (comment : st.kind = .comment) (type : act.type = .none)
    (same : q = { p with userdata := u, buffer := [], saveState := p.state }) : q.Goes M I act := by
  subst same
  refine ⟨n', here, stack, ?_, fun _ => type⟩
  unfold Parser.kind
  dsimp only
  rw [state, Option.getD_some, if_pos comment, resumed_sent p.state from_, type]
  exact fits

section Actions

variable (keeps : Keeps g cb M I E) (here : p.Told M I n) (stack : n.stack = p.stack)
  (fits : p.state.kind.Fits p.expectingKey p.type n)
include keeps here stack fits

theorem Keeps.sp (from_ : p.state.kind ∈ Act.sp.kinds) : Meets (Parser.Goes M I .sp) E (call cfg g cb p .sp) := by
  refine (keeps.doBuffer here fits).bind fun q sent => ?_
  obtain ⟨u, n', kept, same, fits, rfl⟩ := sent
  have kind : p.state.kind.sent = .behind := by
    simp only [Act.kinds, List.mem_cons, List.not_mem_nil, or_false] at from_
    rcases from_ with kind | kind <;> rw [kind] <;> rfl
  rw [kind] at fits
  obtain ⟨key, place⟩ := fits.of_behind
  rw [same, stack] at place
  unfold actSp
  dsimp only
  split
  · exact .error (keeps.text _ rfl)
  · rename_i around inside
    rw [inside] at place
    refine .ok (.of (k := .name) (n := n') kept (same.trans stack) rfl (by decide) ?_)
    rw [place]
    exact .name around
  · rename_i around inside
    rw [inside] at place
    refine .ok (.of (k := .value) (n := n') kept (same.trans stack) rfl (by decide) ?_)
    dsimp only
    rw [place, key]
    exact .value .array around

theorem Keeps.ab (from_ : p.state.kind ∈ Act.ab.kinds) : Meets (Parser.Goes M I .ab) E (call cfg g cb p .ab) := by
  obtain ⟨key, begins⟩ := fits.opens from_
  have next : n.next .arrayBegin = some (.inside .array true n.stack) := begins .array
  refine (keeps.doCallback here [] next).bind fun q told => ?_
  obtain ⟨u, kept, rfl⟩ := told
  have room : M p.memory p.stack.length := stack ▸ here.1
  refine (Keeps.statePush keeps (p := { p with userdata := u }) room .array).mono fun q pushed => ?_
  obtain ⟨m, more, rfl⟩ := pushed
  refine .of (k := .array) ⟨stack ▸ more, kept⟩ (congrArg _ stack) rfl (by decide) ?_
  dsimp only
  rw [key]
  exact .array n.stack

theorem Keeps.ob (from_ : p.state.kind ∈ Act.ob.kinds) : Meets (Parser.Goes M I .ob) E (call cfg g cb p .ob) := by
  obtain ⟨key, begins⟩ := fits.opens from_
  have next : n.next .objectBegin = some (.inside .object false n.stack) := begins .object
  refine (keeps.doCallback here [] next).bind fun q told => ?_
  obtain ⟨u, kept, rfl⟩ := told
  have room : M p.memory p.stack.length := stack ▸ here.1
  refine (Keeps.statePush keeps (p := { p with userdata := u }) room .object).bind fun q pushed => ?_
  obtain ⟨m, more, rfl⟩ := pushed
  exact .ok (.of (k := .name) ⟨stack ▸ more, kept⟩ (congrArg _ stack) rfl (by decide) (.name n.stack))

theorem Keeps.ae (from_ : p.state.kind ∈ Act.ae.kinds) : Meets (Parser.Goes M I .ae) E (call cfg g cb p .ae) := by
  refine (keeps.doBuffer here fits).bind fun q sent => ?_
  obtain ⟨u, n', kept, same, fits, rfl⟩ := sent
  have kind : p.state.kind.sent = .array ∨ p.state.kind.sent = .behind := by
    simp only [Act.kinds, List.mem_cons, List.not_mem_nil, or_false] at from_
    rcases from_ with kind | kind | kind <;> rw [kind] <;> decide
  unfold actAe statePop
  dsimp only
  split
  · exact .error (keeps.text _ rfl)
  · rename_i m around inside
    split
    · rename_i array
      subst array
      have whole := same.trans (stack.trans inside)
      obtain ⟨key, next⟩ := fits.closes_array kind whole
      have room : M p.memory (Nesting.behind around).stack.length := by
        have most := kept.1
        rw [whole] at most
        rw [Nesting.behind_stack]
        exact keeps.pop _ _ most
      refine (Keeps.doCallback keeps (p := { p with userdata := u, buffer := [], stack := around }) kept []
        next).mono fun q told => ?_
      obtain ⟨u, kept, rfl⟩ := told
      refine .of (k := .behind) ⟨room, kept⟩ (Nesting.behind_stack around) rfl (by decide) ?_
      dsimp only
      rw [key]
      exact .after around
    · exact .error (keeps.text _ rfl)

theorem Keeps.oe (from_ : p.state.kind ∈ Act.oe.kinds) : Meets (Parser.Goes M I .oe) E (call cfg g cb p .oe) := by
  refine (keeps.doBuffer here fits).bind fun q sent => ?_
  obtain ⟨u, n', kept, same, fits, rfl⟩ := sent
  have kind : p.state.kind.sent = .name ∨ p.state.kind.sent = .behind := by
    simp only [Act.kinds, List.mem_cons, List.not_mem_nil, or_false] at from_
    rcases from_ with kind | kind | kind <;> rw [kind] <;> decide
  unfold actOe statePop
  dsimp only
  split
  · exact .error (keeps.text _ rfl)
  · rename_i m around inside
    split
    · rename_i object
      subst object
      have whole := same.trans (stack.trans inside)
      have next := fits.closes_object kind whole
      have room : M p.memory (Nesting.behind around).stack.length := by
        have most := kept.1
        rw [whole] at most
        rw [Nesting.behind_stack]
        exact keeps.pop _ _ most
      refine (Keeps.doCallback keeps (p := { p with userdata := u, buffer := [], stack := around }) kept []
        next).bind fun q told => ?_
      obtain ⟨u, kept, rfl⟩ := told
      exact .ok (.of (k := .behind) ⟨room, kept⟩ (Nesting.behind_stack around) rfl (by decide) (.after around))
    · exact .error (keeps.text _ rfl)

theorem Keeps.se (from_ : p.state.kind ∈ Act.se.kinds) : Meets (Parser.Goes M I .se) E (call cfg g cb p .se) := by
  rw [List.mem_singleton.1 from_] at fits
  change Meets _ E (actSe cb p)
  unfold actSe
  generalize flag : p.expectingKey = key at fits
  generalize p.type = type at fits
  cases fits with
  | key around =>
    have next : (Nesting.inside .object false around).next .key = some (.inside .object true around) := rfl
    refine (keeps.doCallback here p.buffer next).map fun q told => ?_
    obtain ⟨u, kept, rfl⟩ := told
    refine .of (k := .colon) (n := .inside .object true around) ⟨here.1, kept⟩ stack ?_ (by decide) (.colon around)
    dsimp only
    rw [flag]
    rfl
  | string m around =>
    have next : (Nesting.inside m true around).next .string = some (.behind (m :: around)) := rfl
    refine (keeps.doCallback here p.buffer next).map fun q told => ?_
    obtain ⟨u, kept, rfl⟩ := told
    refine .of (k := .behind) (n := .behind (m :: around)) ⟨here.1, kept⟩ stack ?_ (by decide) (.after (m :: around))
    dsimp only
    rw [flag]
    rfl

end Actions

/-- Only a comment ends in the states of a comment. -/
theorem Act.not_comment : ∀ act : Act, act ≠ .ce → Kind.comment ∉ act.kinds := by
  rintro ⟨⟩ other <;> first | exact absurd rfl other | decide

/-- **An action.** -/
theorem Keeps.call (keeps : Keeps g cb M I E) (here : p.Told M I n) (in_ : p.In n) {act : Act}
    (from_ : p.state.kind ∈ act.kinds) : Meets (Parser.Goes M I act) E (call cfg g cb p act) := by
  obtain ⟨stack, fits, comment⟩ := in_
  have plain : act ≠ .ce → p.state.kind.Fits p.expectingKey p.type n := by
    intro other
    have notComment : p.state.kind ≠ .comment := fun is => act.not_comment other (is ▸ from_)
    rw [← p.kind_of notComment]
    exact fits
  cases act with
  | ks =>
    have fits := plain (by decide)
    rw [List.mem_singleton.1 from_] at fits
    refine .ok (.of (k := .value) here stack rfl (by decide) ?_)
    generalize p.expectingKey = key at fits
    generalize p.type = type at fits
    cases fits with
    | colon around => exact .value .object around
  | sp => exact keeps.sp here stack (plain (by decide)) from_
  | ab => exact keeps.ab here stack (plain (by decide)) from_
  | ae => exact keeps.ae here stack (plain (by decide)) from_
  | ob => exact keeps.ob here stack (plain (by decide)) from_
  | oe => exact keeps.oe here stack (plain (by decide)) from_
  | cb =>
    refine (keeps.doBuffer here (plain (by decide))).bind fun q sent => ?_
    obtain ⟨u, n', kept, same, fits, rfl⟩ := sent
    unfold actCb
    split
    · exact .ok (.comments from_ kept (same.trans stack) fits rfl rfl rfl rfl)
    · exact .error (keeps.text _ rfl)
  | yb =>
    refine (keeps.doBuffer here (plain (by decide))).bind fun q sent => ?_
    obtain ⟨u, n', kept, same, fits, rfl⟩ := sent
    unfold actYb
    split
    · exact .ok (.comments from_ kept (same.trans stack) fits rfl rfl rfl rfl)
    · exact .error (keeps.text _ rfl)
  | ce =>
    have inside := List.mem_singleton.1 from_
    unfold Parser.kind at fits
    rw [if_pos inside, comment inside] at fits
    exact .ok (.of here stack (resumed_kind p.saveState) (resumed_comment p.saveState) fits)
  | se => exact keeps.se here stack (plain (by decide)) from_
  | uc =>
    have fits := plain (by decide)
    rw [List.mem_singleton.1 from_] at fits
    refine (keeps.decode p).map fun q same => ?_
    obtain ⟨buf, multi, rfl⟩ := same
    have none_ : p.type = .none := by
      generalize p.expectingKey = key at fits
      generalize p.type = type at fits
      cases fits <;> rfl
    rw [none_] at fits
    refine .of (k := .string) here stack ?_ (by decide) fits
    change (if multi ≠ 0 then St.d1 else St.s).kind = .string
    split <;> rfl
  | fa | tr | nu =>
    obtain ⟨key, m, around, rfl⟩ := (plain (by decide)).scalar (by rw [List.mem_singleton.1 from_]; decide)
    refine .ok (.of (k := .behind) here stack rfl (by decide) ?_)
    rw [key]
    exact .waiting m around rfl
  | de | df =>
    obtain ⟨key, m, around, rfl⟩ := (plain (by decide)).scalar (by rw [List.mem_singleton.1 from_]; decide)
    refine .ok (.of (k := .number) here stack rfl (by decide) ?_)
    rw [key]
    exact .number m around rfl
  | mx | zx | ix =>
    have starts : p.state.kind ∈ [Kind.value, .array, .number, .literal] := by
      simp only [Act.kinds, List.mem_cons, List.not_mem_nil, or_false] at from_
      rcases from_ with kind | kind <;> rw [kind] <;> decide
    obtain ⟨key, m, around, rfl⟩ := (plain (by decide)).scalar starts
    refine .ok (.of (k := .number) here stack rfl (by decide) ?_)
    rw [key]
    exact .number m around rfl

/-! ## Runs -/

/-- A byte without an action. -/
theorem Parser.In.onward {st : St} {m : κ} {buf : List Byte} {left : Nat} (h : p.In n)
    (edge : p.state.kind.onward st.kind = true) :
    Parser.In { p with state := st, utf8MultibyteLeft := left, memory := m, buffer := buf } n := by
  obtain ⟨stack, fits, comment⟩ := h
  have both := p.state.kind.onward_comment edge
  refine ⟨stack, ?_, fun inside => comment (both.2 inside)⟩
  unfold Parser.kind at fits ⊢
  dsimp only
  by_cases inside : st.kind = .comment
  · rw [if_pos inside]
    rwa [if_pos (both.2 inside)] at fits
  · rw [if_neg inside]
    rw [if_neg (mt both.1 inside)] at fits
    exact fits.onward edge

/-- **One byte.** -/
theorem Keeps.putChar (keeps : Keeps g cb M I E) (h : p.Keeping M I) (ch : Byte) :
    Meets (Parser.Keeping M I) E (putChar cfg g cb p ch) := by
  obtain ⟨n, here, in_⟩ := h
  have class_ : Meets (fun _ => True) E (nextClass p.utf8MultibyteLeft ch) := by
    unfold nextClass
    split
    · split
      · exact .ok trivial
      · exact .error (keeps.text _ rfl)
    · split
      · exact .error (keeps.text _ rfl)
      · split
        · exact .ok trivial
        · exact .error (keeps.text _ rfl)
      · exact .ok trivial
  unfold Libjson.putChar
  refine class_.bind fun next _ => ?_
  have edge := entry_kinds p.state next.1
  unfold entryKinds at edge
  change Meets _ E (step cfg g cb { p with utf8MultibyteLeft := next.2 } ch next.1)
  cases entry : transition p.state next.1 with
  | error =>
    rw [step_error cfg g cb (p := { p with utf8MultibyteLeft := next.2 }) entry]
    exact .error (keeps.text _ rfl)
  | goto st =>
    rw [step_goto cfg g cb (p := { p with utf8MultibyteLeft := next.2 }) entry]
    rw [entry] at edge
    refine (Keeps.keep keeps (p := { p with utf8MultibyteLeft := next.2 }) here.1 ch _).map
      fun q kept => ?_
    obtain ⟨m, buf, room, rfl⟩ := kept
    exact ⟨n, ⟨room, here.2⟩, in_.onward edge⟩
  | act act =>
    rw [step_act cfg g cb (p := { p with utf8MultibyteLeft := next.2 }) entry]
    rw [entry] at edge
    refine (Keeps.keep keeps (p := { p with utf8MultibyteLeft := next.2 }) here.1 ch _).bind
      fun q kept => ?_
    obtain ⟨m, buf, room, rfl⟩ := kept
    unfold doAction
    have in_' : Parser.In { p with utf8MultibyteLeft := next.2, memory := m, buffer := buf } n :=
      ⟨in_.stack, in_.fits, in_.comment⟩
    have called : Meets (Parser.Goes M I act) E (Libjson.call cfg g cb _ act) :=
      Keeps.call keeps (p := { p with utf8MultibyteLeft := next.2, memory := m, buffer := buf })
        ⟨room, here.2⟩ in_'
        (List.contains_iff_mem.1 edge)
    exact called.map fun q goes => goes

theorem initial_in (u : σ) (memory : κ) : (initial u memory).In .before :=
  ⟨rfl, .start, fun no => nomatch no⟩

/-- **An invariant that the callback keeps along events in order holds in every run**, whatever the text, the
configuration and the memory. -/
theorem Keeps.readBytes (keeps : Keeps g cb M I E) {u : σ} {memory : κ} (room : M memory 0)
    (start : I .before u) (s : List Byte) :
    Meets (Parser.Keeping M I) E (readBytes cfg g cb (initial u memory) s) :=
  Meets.foldlM (Q := Parser.Keeping M I) ⟨.before, ⟨room, start⟩, initial_in u memory⟩
    (fun _ ch h => keeps.putChar h ch) s

end

/-! ## A callback that checks the order -/

/-- No callback returns 0 as an error; here it stands for what has no meaning. -/
def noMeaning : JsonError := .user 0

/-- A callback behind a check of the order, with an error for an event that is out of it. -/
def inOrderOr {σ : Type} (e₀ : JsonError) (cb : σ → Event → Except JsonError σ) (u : Nesting × σ) (e : Event) :
    Except JsonError (Nesting × σ) :=
  match u.1.next e.type with
  | none => .error e₀
  | some n => (cb u.2 e).map fun u => (n, u)

def inOrder {σ : Type} (cb : σ → Event → Except JsonError σ) :
    Nesting × σ → Event → Except JsonError (Nesting × σ) :=
  inOrderOr noMeaning cb

theorem ofText_ne_user (k : Int) (e : JsonError) (text : e.ofText = true) : e ≠ .user k := by
  rintro rfl
  exact Bool.noConfusion text

theorem ofMemory_ne_user (k : Int) (e : JsonError) (memory : e.ofMemory = true) : e ≠ .user k := by
  rintro rfl
  exact Bool.noConfusion memory

section

variable {σ : Type} {e₀ : JsonError} {cb : σ → Event → Except JsonError σ}

/-- No event is out of order. -/
theorem inOrder_keeps (cfg : Config) (text : ∀ e, e.ofText = true → e ≠ e₀)
    (memory : ∀ e, e.ofMemory = true → e ≠ e₀) (real : ∀ u e, cb u e ≠ .error e₀) :
    Keeps (growth cfg) (inOrderOr e₀ cb) (fun _ _ => True) (fun n u => u.1 = n) (fun e => e ≠ e₀) := by
  refine ⟨?_, text, ?_, fun _ _ _ => trivial, ?_⟩
  · rintro m n n' ⟨_, u⟩ e - rfl next
    unfold inOrderOr
    rw [next]
    dsimp only
    cases told : cb u e with
    | error e' => exact fun same => real u e (told.trans (congrArg _ same))
    | ok u => exact rfl
  · intro m k _
    exact (growth_stack cfg m k).weaken memory
  · intro m k bytes _
    exact (growth_buffer cfg m bytes).weaken memory

/-- The check changes nothing. -/
theorem inOrder_error_iff (cfg : Config) (text : ∀ e, e.ofText = true → e ≠ e₀)
    (memory : ∀ e, e.ofMemory = true → e ≠ e₀) (real : ∀ u e, cb u e ≠ .error e₀) (u : σ) (sizes : Sizes)
    (s : List Byte) (e : JsonError) :
    readBytes cfg (growth cfg) (inOrderOr e₀ cb) (initial (Nesting.before, u) sizes) s = .error e ↔
      readBytes cfg (growth cfg) cb (initial u sizes) s = .error e := by
  have sim : Simulates (· = e₀) Eq (fun (x : Nesting × σ) u => x.2 = u) (growth cfg) (growth cfg)
      (inOrderOr e₀ cb) cb := by
    refine ⟨fun {x u} ev same => ?_, fun {m m'} n same => ?_, fun {m m'} n same => ?_⟩
    · subst same
      unfold inOrderOr
      cases x.1.next ev.type with
      | none => exact .inl rfl
      | some n => cases cb x.2 ev with
        | error e => exact .error e
        | ok u => exact .ok rfl
    · subst same
      exact .same _
    · subst same
      exact .same _
  have follows := sim.readBytes cfg (u := (Nesting.before, u)) rfl (Eq.refl sizes) s
  have kept : Meets (Parser.Keeping (fun _ _ => True) fun n (x : Nesting × σ) => x.1 = n) (· ≠ e₀)
      (readBytes cfg (growth cfg) (inOrderOr e₀ cb) (initial (Nesting.before, u) sizes) s) :=
    (inOrder_keeps cfg text memory real).readBytes trivial rfl s
  exact follows.error_iff (fun e' stopped => kept.failure stopped) e

end

/-- **Every event that a callback gets is in order**, in every run, also in one that fails, whatever the text
and the configuration. At the end the text is one array or one object, unless it is a comment that has not
ended. -/
theorem events_in_order {σ : Type} (cfg : Config) (cb : σ → Event → Except JsonError σ) (u : σ)
    (real : ∀ u e, cb u e ≠ .error noMeaning) (memory : Sizes) (pieces : List (List Byte)) :
    Meets
      (fun p => p.userdata.1.stack = p.stack ∧
        (jsonParserIsDone p = true →
          p.userdata.1 = .after ∨ (p.userdata.1 = .before ∧ p.state.kind = .comment)))
      (fun e => e ≠ noMeaning)
      (processFile cfg (growth cfg) (inOrder cb) (initial (Nesting.before, u) memory) pieces).1 := by
  have keeps : Keeps (growth cfg) (inOrder cb) (fun _ _ => True) (fun n u => u.1 = n) (fun e => e ≠ noMeaning) :=
    inOrder_keeps cfg (ofText_ne_user 0) (ofMemory_ne_user 0) real
  rw [processFile_result]
  refine (keeps.readBytes (u := (Nesting.before, u)) trivial rfl pieces.flatten).mono fun p keeping => ?_
  obtain ⟨n, ⟨-, same⟩, stack, fits, comment⟩ := keeping
  refine ⟨same ▸ stack, fun done => ?_⟩
  rw [same]
  unfold jsonParserIsDone at done
  rw [Bool.and_eq_true, List.isEmpty_iff, bne_iff_ne] at done
  cases n with
  | after => exact .inl rfl
  | inside m ready around => exact nomatch stack.trans done.1
  | before =>
    refine .inr ⟨rfl, ?_⟩
    by_contra notComment
    rw [p.kind_of notComment] at fits
    exact done.2 (kind_start _ fits.before)

theorem events_in_order_bracket :
    Meets
      (fun p => p.userdata.1.stack = p.stack ∧
        (jsonParserIsDone p = true →
          p.userdata.1 = .after ∨ (p.userdata.1 = .before ∧ p.state.kind = .comment)))
      (fun e => e ≠ noMeaning)
      (processFile ⟨0, 0, 0, true, true⟩ (growth ⟨0, 0, 0, true, true⟩)
        (inOrder fun n _ => .ok (n + 1)) (initial (Nesting.before, 0) ⟨256, 4096, []⟩)
        [[91#8, 49#8, 35#8], [125#8]]).1 := by
  have real : ∀ (n : Nat) (_ : Event), (Except.ok (n + 1) : Except JsonError Nat) ≠ .error noMeaning := by
    rintro n e ⟨⟩
  exact events_in_order _ _ 0 real _ _

end SpiderFrame.Libjson
