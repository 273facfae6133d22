import SpiderFrame.Libjson.Expected
import SpiderFrame.Libjson.Reading

/-!
# The parser takes no other texts

When comments are not allowed, a text that the parser takes up to its end has a tree. Each state of the
reader expects some texts (`Expects`); a byte leads to a state such that the byte in front of what is
expected there is expected here.
-/

namespace SpiderFrame.Libjson
open SpiderFrame.Base
open SpiderFrame.Base.Json (Space digit hexDigit)

/-! ## One byte -/

/-- The bytes of a class, as far as they matter outside of strings. -/
def Cls.has : Cls → Byte → Bool
  | .space, ch | .nl, ch | .white, ch => blank ch
  | .lcurb, ch => ch == 123#8
  | .rcurb, ch => ch == 125#8
  | .lsqrb, ch => ch == 91#8
  | .rsqrb, ch => ch == 93#8
  | .colon, ch => ch == 58#8
  | .comma, ch => ch == 44#8
  | .quote, ch => ch == 34#8
  | .backs, ch => ch == 92#8
  | .slash, ch => ch == 47#8
  | .plus, ch => ch == 43#8
  | .minus, ch => ch == 45#8
  | .dot, ch => ch == 46#8
  | .zero, ch => ch == 48#8
  | .digit, ch => nonzero ch
  | .a, ch => ch == 97#8
  | .b, ch => ch == 98#8
  | .c, ch => ch == 99#8
  | .d, ch => ch == 100#8
  | .e, ch => ch == 101#8
  | .f, ch => ch == 102#8
  | .l, ch => ch == 108#8
  | .n, ch => ch == 110#8
  | .r, ch => ch == 114#8
  | .s, ch => ch == 115#8
  | .t, ch => ch == 116#8
  | .u, ch => ch == 117#8
  | .abcdf, ch => hexDigit ch && !Base.Json.digit ch
  | .capE, ch => ch == 69#8
  | .other, ch | .star, ch | .hashSign, ch => plain ch

/-- What a byte that begins a character says about its class. -/
def classSays (b : Byte) : Bool :=
  match nextClass 0 b with
  | .error _ => true
  | .ok (cls, 0) => cls.has b
  | .ok (cls, left) => cls = .other && utf8Header b = some left

theorem class_says : ∀ b : Byte, classSays b = true := by decide +kernel

/-- What a policy puts into the buffer. -/
def Policy.kept : Policy → Byte → Bytes
  | .ignore, _ => []
  | .append, b => [b]
  | .escape, b => [escapeChar b]

/-- What an entry of the table makes of the reader. -/
def Stepped (cfg : Config) (q : Reader) : Next → Reader → Prop
  | .error, _ => False
  | .goto st, p' => { q with state := st } = p'
  | .act act, p' => doAction cfg unbounded collect q act = .ok p'

section

variable {cfg : Config} {p p' : Reader} {b : Byte}

theorem keep_unbounded (p : Reader) (b : Byte) (policy : Policy) :
    keep unbounded p b policy = .ok { p with buffer := p.buffer ++ policy.kept b } := by
  cases policy with
  | ignore =>
    rw [Policy.kept, List.append_nil]
    rfl
  | append => rfl
  | escape => rfl

theorem putChar_inv (taken : putChar cfg unbounded collect p b = .ok p') :
    ∃ cls n, nextClass p.utf8MultibyteLeft b = .ok (cls, n) ∧
      Stepped cfg { p with
        utf8MultibyteLeft := n, buffer := p.buffer ++ (bufferPolicy p.state cls).kept b }
        (transition p.state cls) p' := by
  unfold putChar at taken
  cases class_ : nextClass p.utf8MultibyteLeft b with
  | error e =>
    rw [class_] at taken
    cases taken
  | ok next =>
    obtain ⟨cls, n⟩ := next
    rw [class_] at taken
    refine ⟨cls, n, rfl, ?_⟩
    change step cfg unbounded collect { p with utf8MultibyteLeft := n } b cls = .ok p' at taken
    cases entry : transition p.state cls with
    | error =>
      rw [step_error cfg unbounded collect (p := { p with utf8MultibyteLeft := n }) entry] at taken
      cases taken
    | goto st =>
      rw [step_goto cfg unbounded collect (p := { p with utf8MultibyteLeft := n }) entry,
        keep_unbounded] at taken
      exact Except.ok.inj taken
    | act act =>
      rw [step_act cfg unbounded collect (p := { p with utf8MultibyteLeft := n }) entry,
        keep_unbounded] at taken
      exact taken

/-- A byte where no character of several bytes can begin. -/
theorem putChar_cases (left : p.utf8MultibyteLeft = 0) (single : transition p.state .other = .error)
    (taken : putChar cfg unbounded collect p b = .ok p') :
    ∃ cls, cls.has b = true ∧ Stepped cfg { p with
      utf8MultibyteLeft := 0, buffer := p.buffer ++ (bufferPolicy p.state cls).kept b }
      (transition p.state cls) p' := by
  obtain ⟨cls, n, class_, stepped⟩ := putChar_inv taken
  rw [left] at class_
  have told := class_says b
  unfold classSays at told
  rw [class_] at told
  cases n with
  | zero => exact ⟨cls, told, stepped⟩
  | succ n =>
    change (decide (cls = .other) && decide (utf8Header b = some (n + 1))) = true at told
    rw [Bool.and_eq_true, decide_eq_true_eq] at told
    rw [told.1, single] at stepped
    exact stepped.elim

end

/-! ## Actions behind a value -/

section

variable {cfg : Config} {es : List Event} {sv st : St} {key : Bool} {type : JsonType}
  {stk : List Mode} {buf : Bytes} {p' : Reader}

theorem stepped_close_array (taken : doAction cfg unbounded collect
    (conf es st sv key 0 type stk buf) .ae = .ok p') :
    ∃ es' stk', stk = .array :: stk' ∧ p' = conf es' .ok sv key 0 .none stk' [] := by
  rw [doAction, call, doBuffer_conf] at taken
  cases stk with
  | nil => cases taken
  | cons m stk' =>
    cases m with
    | object => cases taken
    | array => exact ⟨_, stk', rfl, (Except.ok.inj taken).symm⟩

theorem stepped_close_object (taken : doAction cfg unbounded collect
    (conf es st sv key 0 type stk buf) .oe = .ok p') :
    ∃ es' stk', stk = .object :: stk' ∧ p' = conf es' .ok sv false 0 .none stk' [] := by
  rw [doAction, call, doBuffer_conf] at taken
  cases stk with
  | nil => cases taken
  | cons m stk' =>
    cases m with
    | array => cases taken
    | object => exact ⟨_, stk', rfl, (Except.ok.inj taken).symm⟩

theorem stepped_comma (taken : doAction cfg unbounded collect
    (conf es st sv false 0 type stk buf) .sp = .ok p') :
    ∃ es' stk', (stk = .array :: stk' ∧ p' = conf es' .v sv false 0 .none stk []) ∨
      (stk = .object :: stk' ∧ p' = conf es' .k sv true 0 .none stk []) := by
  rw [doAction, call, doBuffer_conf] at taken
  cases stk with
  | nil => cases taken
  | cons m stk' =>
    cases m with
    | array => exact ⟨_, stk', .inl ⟨rfl, (Except.ok.inj taken).symm⟩⟩
    | object => exact ⟨_, stk', .inr ⟨rfl, (Except.ok.inj taken).symm⟩⟩

/-- No comments. -/
structure Config.Plain (cfg : Config) : Prop where
  c : cfg.allowCComments = false
  yaml : cfg.allowYamlComments = false

theorem Config.Plain.no_c (plain : cfg.Plain) : doAction cfg unbounded collect
    (conf es st sv key 0 type stk buf) .cb ≠ .ok p' := by
  intro taken
  rw [doAction, call, doBuffer_conf] at taken
  change Except.map _ (actCb cfg _) = _ at taken
  rw [actCb, if_neg (by rw [plain.c]; exact Bool.false_ne_true)] at taken
  cases taken

theorem Config.Plain.no_yaml (plain : cfg.Plain) : doAction cfg unbounded collect
    (conf es st sv key 0 type stk buf) .yb ≠ .ok p' := by
  intro taken
  rw [doAction, call, doBuffer_conf] at taken
  change Except.map _ (actYb cfg _) = _ at taken
  rw [actYb, if_neg (by rw [plain.yaml]; exact Bool.false_ne_true)] at taken
  cases taken

end

/-! ## What a reader expects -/

/-- Behind a value, in a number or in a literal. -/
def St.scalar : St → Bool
  | .ok | .m0 | .z0 | .i0 | .r1 | .r2 | .x1 | .x2 | .x3 | .t1 | .t2 | .t3 | .f1 | .f2 | .f3 | .f4 | .n1
  | .n2 | .n3 => true
  | _ => false

/-- The rest of a string, of a name or of a value, and what follows it. -/
def InString (key : Bool) (stk : List Mode) : Bytes → Prop :=
  StrThen (if key then ColonThen (After stk) else After stk)

/-- The rest of a character. -/
def Continued (n : Nat) (bs : Bytes) : Prop := bs.length = n ∧ ∀ c ∈ bs, utf8Continuation c = true

/-- The digits of a code unit that follow `ds`, and what may follow that code unit. -/
def UnitThen (K : Nat → Bytes → Prop) (ds s : Bytes) : Prop :=
  ∃ more r a b c d, Hex4 a b c d ∧ ds ++ more = [a, b, c, d] ∧ K (unit a b c d) r ∧ s = more ++ r

/-- What follows the second code unit of a pair. -/
def BehindLow (key : Bool) (stk : List Mode) (n : Nat) (r : Bytes) : Prop :=
  LowSurrogate n ∧ InString key stk r

/-- What follows a code unit, behind the high surrogate `multi` if that is not 0. -/
def BehindUnit (key : Bool) (stk : List Mode) (multi n : Nat) (r : Bytes) : Prop :=
  if multi = 0 then
    (¬ HighSurrogate n ∧ ¬ LowSurrogate n ∧ InString key stk r) ∨
      (HighSurrogate n ∧
        Byte.Before 92#8 (Byte.Before 117#8 (UnitThen (BehindLow key stk) [])) r)
  else BehindLow key stk n r

/-- What follows a backslash. -/
def EscapeThen (key : Bool) (stk : List Mode) (s : Bytes) : Prop :=
  (∃ e r, escapes e = true ∧ InString key stk r ∧ s = e :: r) ∨
    Byte.Before 117#8 (UnitThen (BehindUnit key stk 0) []) s

/-- The state with so many digits read. -/
def unitState : Nat → St
  | 0 => .u1
  | 1 => .u2
  | 2 => .u3
  | _ => .u4

/-- A reader, and the texts that take it to the end. -/
inductive Expects : Reader → (Bytes → Prop) → Prop
  | start {es sv type buf} :
    Expects (conf es .go sv false 0 type [] buf) (fun s => ∃ t, Document s t)
  | scalar {es st sv type stk buf} (scalar : st.scalar = true) (inside : st = .ok ∨ stk ≠ []) :
    Expects (conf es st sv false 0 type stk buf) (Before (Tail st) (After stk))
  | value {es sv type stk buf} (inside : stk ≠ []) :
    Expects (conf es .v sv false 0 type stk buf) (ValueThen (After stk))
  | array {es sv type stk buf} (inside : stk ≠ []) :
    Expects (conf es .a sv false 0 type stk buf) (ArrayThen stk)
  | object {es sv type stk buf} (inside : stk ≠ []) :
    Expects (conf es .o sv true 0 type stk buf) (ObjectThen stk)
  | name {es sv type stk buf} (inside : stk ≠ []) :
    Expects (conf es .k sv true 0 type stk buf) (MemberThen (After stk))
  | colon {es sv type stk buf} (inside : stk ≠ []) :
    Expects (conf es .co sv false 0 type stk buf) (ColonThen (After stk))
  | string {es sv key type stk buf n} (inside : stk ≠ []) :
    Expects { conf es .s sv key 0 type stk buf with utf8MultibyteLeft := n }
      (Before (Continued n) (InString key stk))
  | escape {es sv key type stk buf} (inside : stk ≠ []) :
    Expects (conf es .e0 sv key 0 type stk buf) (EscapeThen key stk)
  | digits {es sv key multi type stk buf ds} (inside : stk ≠ []) (short : ds.length < 4)
    (hex : ∀ d ∈ ds, hexDigit d = true) (surrogate : multi = 0 ∨ HighSurrogate multi) :
    Expects (conf es (unitState ds.length) sv key multi type stk (buf ++ ds))
      (UnitThen (BehindUnit key stk multi) ds)
  | backslash {es sv key multi type stk buf} (inside : stk ≠ []) (high : HighSurrogate multi) :
    Expects (conf es .d1 sv key multi type stk buf)
      (Byte.Before 92#8 (Byte.Before 117#8 (UnitThen (BehindLow key stk) [])))
  | letter {es sv key multi type stk buf} (inside : stk ≠ []) (high : HighSurrogate multi) :
    Expects (conf es .d2 sv key multi type stk buf)
      (Byte.Before 117#8 (UnitThen (BehindLow key stk) []))

/-- The byte leads to a reader such that the byte in front of what that one expects is in `K`. -/
def Leads (K : Bytes → Prop) (b : Byte) (p' : Reader) : Prop :=
  ∃ K', Expects p' K' ∧ ∀ s, K' s → K (b :: s)

section Values

variable {cfg : Config} {es : List Event} {sv st : St} {key : Bool} {type : JsonType}
  {stk : List Mode} {buf : Bytes} {p p' : Reader} {b : Byte} {cls : Cls} {K K' : Bytes → Prop}

theorem Leads.mono (h : Leads K b p') (wider : ∀ s, K s → K' s) : Leads K' b p' := by
  obtain ⟨L, expects, front⟩ := h
  exact ⟨L, expects, fun s here => wider _ (front s here)⟩

/-- A string that begins. -/
theorem InString.value {s : Bytes} (h : InString false stk s) : ValueThen (After stk) (34#8 :: s) := by
  obtain ⟨t, -, ⟨u, str⟩, ⟨r, rest, rfl⟩, rfl⟩ := h
  refine .here space_nil ⟨34#8 :: (t ++ [34#8]), r, ⟨_, .str str⟩, rest, ?_⟩
  rw [List.cons_append, List.append_assoc]
  rfl

theorem string_expects (inside : stk ≠ []) :
    Expects (conf es .s sv key 0 type stk buf) (Before (Continued 0) (InString key stk)) :=
  .string inside

theorem Before.continued_zero {s : Bytes} (h : Before (Continued 0) K s) : K s := by
  obtain ⟨bs, r, ⟨none_, -⟩, rest, rfl⟩ := h
  rw [List.length_eq_zero_iff.1 none_]
  exact rest

/-- What begins a value, by the entries of the state in which one has to follow. -/
theorem Stepped.value (plain : cfg.Plain) (inside : stk ≠ []) (has : cls.has b = true)
    (other : cls ≠ .space ∧ cls ≠ .nl ∧ cls ≠ .white)
    (stepped : Stepped cfg (conf es st sv false 0 type stk buf) (transition .v cls) p') :
    Leads (ValueThen (After stk)) b p' := by
  have scalar : ∀ {st' : St} {es' : List Event} {type' : JsonType} {buf' : Bytes},
      scalarStart b = some st' → st'.scalar = true →
      p' = conf es' st' sv false 0 type' stk buf' → Leads (ValueThen (After stk)) b p' := by
    rintro st' es' type' buf' start isScalar rfl
    refine ⟨_, .scalar isScalar (.inr inside), fun s h => .here space_nil ?_⟩
    exact h.cons fun a tail => scalarStart_value start tail
  cases cls with
  | space => exact absurd rfl other.1
  | nl => exact absurd rfl other.2.1
  | white => exact absurd rfl other.2.2
  | lcurb =>
    obtain rfl := eq_of_beq has
    obtain rfl := (Except.ok.inj stepped : conf _ .o sv true 0 .none (.object :: stk) buf = p')
    refine ⟨_, .object (List.cons_ne_nil _ _), fun s h => .here space_nil ?_⟩
    obtain ⟨v, t, r, value, -, rest, same⟩ := h.value
    exact ⟨v, r, ⟨t, value⟩, rest, same⟩
  | lsqrb =>
    obtain rfl := eq_of_beq has
    obtain rfl := (Except.ok.inj stepped : conf _ .a sv false 0 .none (.array :: stk) buf = p')
    refine ⟨_, .array (List.cons_ne_nil _ _), fun s h => .here space_nil ?_⟩
    obtain ⟨v, t, r, value, -, rest, same⟩ := h.value
    exact ⟨v, r, ⟨t, value⟩, rest, same⟩
  | quote =>
    obtain rfl := eq_of_beq has
    obtain rfl := (stepped : conf es .s sv false 0 type stk buf = p')
    exact ⟨_, string_expects inside, fun s h => h.continued_zero.value⟩
  | slash => exact absurd stepped plain.no_c
  | hashSign => exact absurd stepped plain.no_yaml
  | minus =>
    obtain rfl := eq_of_beq has
    exact scalar rfl rfl (Except.ok.inj stepped).symm
  | zero =>
    obtain rfl := eq_of_beq has
    exact scalar rfl rfl (Except.ok.inj stepped).symm
  | digit =>
    change nonzero b = true at has
    refine scalar ?_ rfl (Except.ok.inj stepped).symm
    have digit_ := nonzero_digit has
    unfold scalarStart
    rw [if_neg ?_, if_neg digit_.2, if_pos has]
    · rfl
    · rintro rfl
      cases has
  | f =>
    obtain rfl := eq_of_beq has
    exact scalar rfl rfl stepped.symm
  | n =>
    obtain rfl := eq_of_beq has
    exact scalar rfl rfl stepped.symm
  | t =>
    obtain rfl := eq_of_beq has
    exact scalar rfl rfl stepped.symm
  | _ => exact stepped.elim

/-- White space before something. -/
theorem leads_blank {A : Bytes → Prop} (expects : Expects p' (Before Space A))
    (blank_ : blank b = true) : Leads (Before Space A) b p' :=
  ⟨_, expects, fun _ h => h.blank blank_⟩

theorem leads_value (plain : cfg.Plain) (inside : stk ≠ [])
    (taken : putChar cfg unbounded collect (conf es .v sv false 0 type stk buf) b = .ok p') :
    Leads (ValueThen (After stk)) b p' := by
  obtain ⟨cls, has, stepped⟩ := putChar_cases rfl rfl taken
  cases cls with
  | space | nl | white =>
    obtain rfl := stepped
    exact leads_blank (.value inside) has
  | _ => exact Stepped.value plain inside has (by decide) stepped

theorem leads_array (plain : cfg.Plain) (inside : stk ≠ [])
    (taken : putChar cfg unbounded collect (conf es .a sv false 0 type stk buf) b = .ok p') :
    Leads (ArrayThen stk) b p' := by
  obtain ⟨cls, has, stepped⟩ := putChar_cases rfl rfl taken
  cases cls with
  | space | nl | white =>
    obtain rfl := stepped
    refine ⟨_, .array inside, fun s h => h.imp (Before.blank has) fun h => ?_⟩
    obtain ⟨stk', modes, rest⟩ := h
    exact ⟨stk', modes, rest.blank has⟩
  | rsqrb =>
    obtain rfl := eq_of_beq has
    obtain ⟨es', stk', rfl, rfl⟩ := stepped_close_array stepped
    refine ⟨_, .scalar rfl (.inl rfl), fun s h => .inr ⟨stk', rfl, .here space_nil ?_⟩⟩
    obtain ⟨a, r, rfl, rest, rfl⟩ := h
    exact ⟨s, rest, rfl⟩
  | _ => exact (Stepped.value plain inside has (by decide) stepped).mono fun _ => .inl

/-- A name that begins. -/
theorem InString.name {s : Bytes} (h : InString true stk s) : MemberThen (After stk) (34#8 :: s) :=
  .here space_nil ⟨s, h, rfl⟩

theorem leads_name (plain : cfg.Plain) (inside : stk ≠ [])
    (taken : putChar cfg unbounded collect (conf es .k sv true 0 type stk buf) b = .ok p') :
    Leads (MemberThen (After stk)) b p' := by
  obtain ⟨cls, has, stepped⟩ := putChar_cases rfl rfl taken
  cases cls with
  | space | nl | white =>
    obtain rfl := stepped
    exact leads_blank (.name inside) has
  | quote =>
    obtain rfl := eq_of_beq has
    obtain rfl := (stepped : conf es .s sv true 0 type stk _ = p')
    exact ⟨_, string_expects inside, fun s h => h.continued_zero.name⟩
  | slash => exact absurd stepped plain.no_c
  | hashSign => exact absurd stepped plain.no_yaml
  | _ => exact stepped.elim

theorem leads_object (plain : cfg.Plain) (inside : stk ≠ [])
    (taken : putChar cfg unbounded collect (conf es .o sv true 0 type stk buf) b = .ok p') :
    Leads (ObjectThen stk) b p' := by
  obtain ⟨cls, has, stepped⟩ := putChar_cases rfl rfl taken
  cases cls with
  | space | nl | white =>
    obtain rfl := stepped
    refine ⟨_, .object inside, fun s h => h.imp (Before.blank has) fun h => ?_⟩
    obtain ⟨stk', modes, rest⟩ := h
    exact ⟨stk', modes, rest.blank has⟩
  | quote =>
    obtain rfl := eq_of_beq has
    obtain rfl := (stepped : conf es .s sv true 0 type stk _ = p')
    exact ⟨_, string_expects inside, fun s h => .inl h.continued_zero.name⟩
  | rcurb =>
    obtain rfl := eq_of_beq has
    obtain ⟨es', stk', rfl, rfl⟩ := stepped_close_object stepped
    refine ⟨_, .scalar rfl (.inl rfl), fun s h => .inr ⟨stk', rfl, .here space_nil ?_⟩⟩
    obtain ⟨a, r, rfl, rest, rfl⟩ := h
    exact ⟨s, rest, rfl⟩
  | slash => exact absurd stepped plain.no_c
  | hashSign => exact absurd stepped plain.no_yaml
  | _ => exact stepped.elim

theorem leads_colon (plain : cfg.Plain) (inside : stk ≠ [])
    (taken : putChar cfg unbounded collect (conf es .co sv false 0 type stk buf) b = .ok p') :
    Leads (ColonThen (After stk)) b p' := by
  obtain ⟨cls, has, stepped⟩ := putChar_cases rfl rfl taken
  cases cls with
  | space | nl | white =>
    obtain rfl := stepped
    exact leads_blank (.colon inside) has
  | colon =>
    obtain rfl := eq_of_beq has
    obtain rfl := (Except.ok.inj stepped : conf es .v sv false 0 .none stk _ = p')
    exact ⟨_, .value inside, fun s h => .here space_nil ⟨s, h, rfl⟩⟩
  | slash => exact absurd stepped plain.no_c
  | hashSign => exact absurd stepped plain.no_yaml
  | _ => exact stepped.elim

/-- The array or the object of the whole text. -/
theorem document_structure {s : Bytes}
    (h : ∃ v t r, Value v t ∧ t.IsStructure ∧ After [] r ∧ s = v ++ r) : ∃ t, Document s t := by
  obtain ⟨v, t, r, value, structure_, rest, rfl⟩ := h
  cases rest with
  | top space => exact ⟨t, structure_, [], v, r, space_nil, value, space, rfl⟩

theorem leads_start (plain : cfg.Plain)
    (taken : putChar cfg unbounded collect (conf es .go sv false 0 type [] buf) b = .ok p') :
    Leads (fun s => ∃ t, Document s t) b p' := by
  obtain ⟨cls, has, stepped⟩ := putChar_cases rfl rfl taken
  cases cls with
  | space | nl | white =>
    obtain rfl := stepped
    refine ⟨_, .start, fun s h => ?_⟩
    obtain ⟨t, structure_, w, v, w', before, value, after, rfl⟩ := h
    exact ⟨t, structure_, b :: w, v, w', space_cons has before, value, after, rfl⟩
  | lcurb =>
    obtain rfl := eq_of_beq has
    obtain rfl := (Except.ok.inj stepped : conf _ .o sv true 0 .none [.object] _ = p')
    exact ⟨_, .object (List.cons_ne_nil _ _), fun s h => document_structure h.value⟩
  | lsqrb =>
    obtain rfl := eq_of_beq has
    obtain rfl := (Except.ok.inj stepped : conf _ .a sv false 0 .none [.array] _ = p')
    exact ⟨_, .array (List.cons_ne_nil _ _), fun s h => document_structure h.value⟩
  | slash => exact absurd stepped plain.no_c
  | hashSign => exact absurd stepped plain.no_yaml
  | _ => exact stepped.elim

end Values

/-! ## Numbers and literals -/

/-- The state that an entry leads to without a look at the stack or at the buffer. -/
def Next.onto : Next → Option St
  | .goto st => some st
  | .act .df => some .r1
  | .act .de => some .x1
  | .act .tr | .act .fa | .act .nu => some .ok
  | _ => none

section Scalars

variable {cfg : Config} {es : List Event} {sv st st' : St} {type : JsonType} {stk : List Mode}
  {buf t : Bytes} {p' : Reader} {b : Byte} {cls : Cls}

def Cls.spaces : List Cls := [.space, .nl, .white]

theorem has_digit (has : cls.has b = true) (number : cls = .zero ∨ cls = .digit) :
    digit b = true := by
  rcases number with rfl | rfl
  · obtain rfl := eq_of_beq has
    rfl
  · exact (nonzero_digit has).1

/-- **A byte in front of the rest of a number or of a literal.** -/
theorem onward_tail (scalar : st.scalar = true) (has : cls.has b = true)
    (other : cls ∉ Cls.spaces) (onward : (transition st cls).onto = some st')
    (h : Tail st' t) : Tail st (b :: t) := by
  have stuck : ∀ {A : Prop}, none = some st' → A := fun none_ => by cases none_
  have literal : ∀ {letter : Cls} {ch : Byte} {next : Next} {st₁ : St} {rest : Bytes},
      (if cls = letter then next else .error : Next).onto = some st' → next.onto = some st₁ →
      letter.has = (· == ch) → Tail st₁ = (· = rest) → b :: t = ch :: rest := by
    intro letter ch next st₁ rest onward same has_ tail
    split at onward
    · rename_i class_
      obtain rfl : st₁ = st' := Option.some_inj.1 (same.symm.trans onward)
      rw [class_, has_] at has
      rw [tail] at h
      rw [eq_of_beq has, h]
    · exact stuck onward
  cases st with
  | m0 =>
    cases cls with
    | zero =>
      obtain rfl := (Option.some.inj onward : .z0 = st')
      exact .inl ⟨t, congrArg (· :: t) (eq_of_beq has), h⟩
    | digit =>
      obtain rfl := (Option.some.inj onward : .i0 = st')
      obtain ⟨ds, r, digits, rfl, rest⟩ := h
      exact .inr ⟨b, ds, r, has, digits, rfl, rest⟩
    | _ => exact stuck onward
  | z0 =>
    cases cls with
    | space | nl | white => exact absurd (by decide) other
    | dot =>
      obtain rfl := (Option.some.inj onward : .r1 = st')
      exact .inr (eq_of_beq has ▸ Decimal.point h)
    | _ => exact stuck onward
  | i0 =>
    cases cls with
    | space | nl | white => exact absurd (by decide) other
    | zero | digit =>
      obtain rfl := (Option.some.inj onward : .i0 = st')
      obtain ⟨ds, r, digits, rfl, rest⟩ := h
      exact ⟨b :: ds, r, digits_cons (has_digit has (by decide)) digits, rfl, rest⟩
    | dot =>
      obtain rfl := (Option.some.inj onward : .r1 = st')
      exact ⟨[], b :: t, digits_nil, rfl, .inr (.inl (eq_of_beq has ▸ Decimal.point h))⟩
    | e =>
      obtain rfl := (Option.some.inj onward : .x1 = st')
      exact ⟨[], b :: t, digits_nil, rfl, .inr (.inr (Exponent.letter (.inl (eq_of_beq has)) h))⟩
    | capE =>
      obtain rfl := (Option.some.inj onward : .x1 = st')
      exact ⟨[], b :: t, digits_nil, rfl, .inr (.inr (Exponent.letter (.inr (eq_of_beq has)) h))⟩
    | _ => exact stuck onward
  | r1 =>
    cases cls with
    | zero | digit =>
      obtain rfl := (Option.some.inj onward : .r2 = st')
      obtain ⟨ds, r, digits, rfl, power⟩ := h
      exact ⟨b, ds, r, digits_cons (has_digit has (by decide)) digits, rfl, power⟩
    | _ => exact stuck onward
  | r2 =>
    cases cls with
    | space | nl | white => exact absurd (by decide) other
    | zero | digit =>
      obtain rfl := (Option.some.inj onward : .r2 = st')
      obtain ⟨ds, r, digits, rfl, power⟩ := h
      exact ⟨b :: ds, r, digits_cons (has_digit has (by decide)) digits, rfl, power⟩
    | e =>
      obtain rfl := (Option.some.inj onward : .x1 = st')
      exact ⟨[], b :: t, digits_nil, rfl, .inr (Exponent.letter (.inl (eq_of_beq has)) h)⟩
    | capE =>
      obtain rfl := (Option.some.inj onward : .x1 = st')
      exact ⟨[], b :: t, digits_nil, rfl, .inr (Exponent.letter (.inr (eq_of_beq has)) h)⟩
    | _ => exact stuck onward
  | x1 =>
    cases cls with
    | plus =>
      obtain rfl := (Option.some.inj onward : .x2 = st')
      obtain ⟨d, ds, digits, rfl⟩ := h
      exact ⟨[b], d, ds, .inr (.inl (congrArg (fun c => [c]) (eq_of_beq has))), digits, rfl⟩
    | minus =>
      obtain rfl := (Option.some.inj onward : .x2 = st')
      obtain ⟨d, ds, digits, rfl⟩ := h
      exact ⟨[b], d, ds, .inr (.inr (congrArg (fun c => [c]) (eq_of_beq has))), digits, rfl⟩
    | zero | digit =>
      obtain rfl := (Option.some.inj onward : .x3 = st')
      exact ⟨[], b, t, .inl rfl, digits_cons (has_digit has (by decide)) h, rfl⟩
    | _ => exact stuck onward
  | x2 =>
    cases cls with
    | zero | digit =>
      obtain rfl := (Option.some.inj onward : .x3 = st')
      exact ⟨b, t, digits_cons (has_digit has (by decide)) h, rfl⟩
    | _ => exact stuck onward
  | x3 =>
    cases cls with
    | space | nl | white => exact absurd (by decide) other
    | zero | digit =>
      obtain rfl := (Option.some.inj onward : .x3 = st')
      exact digits_cons (has_digit has (by decide)) h
    | _ => exact stuck onward
  | t1 | t2 | t3 | f1 | f2 | f3 | f4 | n1 | n2 | n3 => exact literal onward rfl rfl rfl
  | ok =>
    cases cls with
    | space | nl | white => exact absurd (by decide) other
    | _ => exact stuck onward
  | _ => cases scalar

theorem ended_tail (ended : st.ended = true) : Tail st [] := by
  cases st with
  | ok => rfl
  | z0 => exact .inl rfl
  | i0 => exact ⟨[], [], digits_nil, rfl, .inl rfl⟩
  | r2 => exact ⟨[], [], digits_nil, rfl, .inl rfl⟩
  | x3 => exact digits_nil
  | _ => cases ended

/-- The entries behind a value. -/
def EndEntry (cls : Cls) (next : Next) : Prop :=
  (cls ∈ Cls.spaces ∧ next = .goto .ok) ∨ (cls = .comma ∧ next = .act .sp) ∨
    (cls = .rsqrb ∧ next = .act .ae) ∨ (cls = .rcurb ∧ next = .act .oe)

instance (cls : Cls) (next : Next) : Decidable (EndEntry cls next) :=
  inferInstanceAs (Decidable (_ ∨ _))

/-- The entries for a number, for a literal and behind a value. -/
theorem scalar_entry : ∀ st cls, st.scalar = true →
    transition st cls ∈ [.error, .act .cb, .act .yb] ∨
      (st ≠ .ok ∧ cls ∉ Cls.spaces ∧ (transition st cls).onto.map St.scalar = some true) ∨
      (st.ended = true ∧ EndEntry cls (transition st cls)) := by decide +kernel

theorem has_space (has : cls.has b = true) (space : cls ∈ Cls.spaces) : blank b = true := by
  unfold Cls.spaces at space
  simp only [List.mem_cons, List.not_mem_nil, or_false] at space
  rcases space with rfl | rfl | rfl <;> exact has

theorem Stepped.onto (stepped : Stepped cfg (conf es st sv false 0 type stk buf) (transition st cls) p')
    (onward : (transition st cls).onto = some st') :
    ∃ type' buf', p' = conf es st' sv false 0 type' stk buf' := by
  cases entry : transition st cls with
  | error =>
    rw [entry] at onward
    cases onward
  | goto st₁ =>
    rw [entry] at onward stepped
    obtain rfl := (Option.some.inj onward : st₁ = st')
    exact ⟨type, buf, stepped.symm⟩
  | act act =>
    rw [entry] at onward stepped
    cases act with
    | df | de | tr | fa | nu =>
      obtain rfl := Option.some.inj onward
      exact ⟨_, buf, (Except.ok.inj stepped).symm⟩
    | _ => cases onward

/-- Behind a value nothing of it is left. -/
theorem Before.behind {s : Bytes} {K : Bytes → Prop} (h : Before (Tail .ok) K s) : K s := by
  obtain ⟨a, r, rfl, rest, rfl⟩ := h
  exact rest

theorem leads_scalar (plain : cfg.Plain) (scalar : st.scalar = true) (inside : st = .ok ∨ stk ≠ [])
    (taken : putChar cfg unbounded collect (conf es st sv false 0 type stk buf) b = .ok p') :
    Leads (Before (Tail st) (After stk)) b p' := by
  have single : transition st .other = .error := by
    cases st <;> first | rfl | cases scalar
  obtain ⟨cls, has, stepped⟩ := putChar_cases rfl single taken
  rcases scalar_entry st cls scalar with none_ | ⟨notOk, other, goes⟩ | ⟨ended, behind⟩
  · simp only [List.mem_cons, List.not_mem_nil, or_false] at none_
    rcases none_ with entry | entry | entry <;> rw [show (conf es st sv false 0 type stk buf).state = st
      from rfl, entry] at stepped
    · exact stepped.elim
    · exact absurd stepped plain.no_c
    · exact absurd stepped plain.no_yaml
  · obtain ⟨st', onward, isScalar⟩ := Option.map_eq_some_iff.1 goes
    obtain ⟨type', buf', rfl⟩ := Stepped.onto stepped onward
    refine ⟨_, .scalar isScalar (.inr (inside.resolve_left notOk)), fun s h => ?_⟩
    exact h.cons fun a tail => onward_tail scalar has other onward tail
  · have here : ∀ s, After stk (b :: s) → Before (Tail st) (After stk) (b :: s) := fun s h =>
      .here (ended_tail ended) h
    rcases behind with ⟨space, entry⟩ | ⟨rfl, entry⟩ | ⟨rfl, entry⟩ | ⟨rfl, entry⟩ <;>
      rw [show (conf es st sv false 0 type stk buf).state = st from rfl, entry] at stepped
    · obtain rfl := stepped
      exact ⟨_, .scalar rfl (.inl rfl), fun s h => here s (h.behind.blank (has_space has space))⟩
    · obtain rfl := eq_of_beq has
      obtain ⟨es', stk', ⟨rfl, rfl⟩ | ⟨rfl, rfl⟩⟩ := stepped_comma stepped
      · exact ⟨_, .value (List.cons_ne_nil _ _), fun s h => here s (After.comma_array h)⟩
      · exact ⟨_, .name (List.cons_ne_nil _ _), fun s h => here s (After.comma_object h)⟩
    · obtain rfl := eq_of_beq has
      obtain ⟨es', stk', rfl, rfl⟩ := stepped_close_array stepped
      exact ⟨_, .scalar rfl (.inl rfl), fun s h => here s (.closeArray space_nil h.behind)⟩
    · obtain rfl := eq_of_beq has
      obtain ⟨es', stk', rfl, rfl⟩ := stepped_close_object stepped
      exact ⟨_, .scalar rfl (.inl rfl), fun s h => here s (.closeObject space_nil h.behind)⟩

end Scalars

/-! ## Strings -/

/-- In a string, a byte that begins no character of several bytes stands for itself, or it has to do with
the end or with a backslash. -/
def plainSays (b : Byte) : Bool :=
  match nextClass 0 b with
  | .ok (cls, 0) => cls ∈ [.quote, .backs, .nl, .white] || plain b
  | _ => true

theorem plain_says : ∀ b : Byte, plainSays b = true := by decide +kernel

section Strings

variable {cfg : Config} {es : List Event} {sv : St} {key : Bool} {multi n : Nat} {type : JsonType}
  {stk : List Mode} {buf ds s : Bytes} {p' : Reader} {b : Byte} {cls : Cls}

theorem has_hex (has : cls.has b = true) (hex : cls.hex = true) : hexDigit b = true := by
  have hexDigit_digit : ∀ b : Byte, digit b = true → hexDigit b = true := by
    intro b here
    unfold hexDigit
    rw [here]
    rfl
  cases cls with
  | zero => exact hexDigit_digit b (has_digit has (.inl rfl))
  | digit => exact hexDigit_digit b (has_digit has (.inr rfl))
  | a | b | c | d | e | f | capE =>
    obtain rfl := eq_of_beq has
    rfl
  | abcdf => exact (Bool.and_eq_true _ _ ▸ has : hexDigit b = true ∧ _).1
  | _ => cases hex

theorem Continued.cons {bs : Bytes} (first : utf8Continuation b = true) (h : Continued n bs) :
    Continued (n + 1) (b :: bs) :=
  ⟨congrArg (· + 1) h.1, List.forall_mem_cons.2 ⟨first, h.2⟩⟩

/-- A character of a string, in front of its rest. -/
theorem InString.cons (h : InString key stk s) {c : Bytes}
    (char : ∀ t u, Str t u → IsStr (c ++ t)) : InString key stk (c ++ s) := by
  obtain ⟨t, r, ⟨u, str⟩, rest, rfl⟩ := h
  exact ⟨c ++ t, r, char t u str, rest, (List.append_assoc _ _ _).symm⟩

theorem InString.multibyte (header : utf8Header b = some (n + 1))
    (h : Before (Continued (n + 1)) (InString key stk) s) : InString key stk (b :: s) := by
  obtain ⟨bs, r, ⟨length, continued⟩, rest, rfl⟩ := h
  have char : Multibyte b bs := by
    refine ⟨by rw [header, length], ?_, continued⟩
    rintro rfl
    cases length
  exact rest.cons (c := b :: bs) fun t u str => ⟨_, .multibyte char str⟩

/-- The four digits of a code unit. -/
theorem UnitThen.four {K : Nat → Bytes → Prop} (h : UnitThen K [] s) :
    ∃ a b c d r, Hex4 a b c d ∧ K (unit a b c d) r ∧ s = a :: b :: c :: d :: r := by
  obtain ⟨more, r, a, b, c, d, hex, rfl, rest, rfl⟩ := h
  exact ⟨a, b, c, d, r, hex, rest, rfl⟩

/-- A backslash, and what follows it. -/
theorem EscapeThen.string (h : EscapeThen key stk s) : InString key stk (92#8 :: s) := by
  rcases h with ⟨e, r, escape, rest, rfl⟩ | ⟨r, units, rfl⟩
  · exact rest.cons (c := [92#8, e]) fun t u str => ⟨_, .escape escape str⟩
  · obtain ⟨a, b, c, d, r, hex, behind, rfl⟩ := units.four
    rcases behind with ⟨notHigh, notLow, rest⟩ | ⟨high, r₁, ⟨r₂, second, rfl⟩, rfl⟩
    · exact rest.cons (c := [92#8, 117#8, a, b, c, d]) fun t u str =>
        ⟨_, .unicode hex notHigh notLow str⟩
    · obtain ⟨a', b', c', d', r', hex', ⟨low, rest⟩, rfl⟩ := second.four
      exact rest.cons (c := [92#8, 117#8, a, b, c, d, 92#8, 117#8, a', b', c', d']) fun t u str =>
        ⟨_, .pair hex hex' high low str⟩

/-- The end of a string. -/
theorem stepped_end (taken : doAction cfg unbounded collect
    (conf es .s sv key 0 type stk buf) .se = .ok p') :
    ∃ es', p' = conf es' (if key then .co else .ok) sv false 0 .none stk [] := by
  cases key <;> exact ⟨_, (Except.ok.inj taken).symm⟩

theorem leads_string (inside : stk ≠ [])
    (taken : putChar cfg unbounded collect
      { conf es .s sv key 0 type stk buf with utf8MultibyteLeft := n } b = .ok p') :
    Leads (Before (Continued n) (InString key stk)) b p' := by
  obtain ⟨cls, left, class_, stepped⟩ := putChar_inv taken
  cases n with
  | succ n =>
    change nextClass (n + 1) b = _ at class_
    unfold nextClass at class_
    rw [if_pos (Nat.succ_pos n)] at class_
    split at class_
    · rename_i continued
      cases class_
      obtain rfl := stepped
      exact ⟨_, .string inside, fun s h => h.cons fun a => Continued.cons continued⟩
    · cases class_
  | zero =>
    have told := class_says b
    unfold classSays at told
    rw [class_] at told
    cases left with
    | succ left =>
      change (decide (cls = .other) && decide (utf8Header b = some (left + 1))) = true at told
      rw [Bool.and_eq_true, decide_eq_true_eq, decide_eq_true_eq] at told
      obtain ⟨rfl, header⟩ := told
      obtain rfl := stepped
      exact ⟨_, .string inside, fun s h =>
        .here ⟨rfl, List.forall_mem_nil _⟩ (InString.multibyte header h)⟩
    | zero =>
      have plain_ := plain_says b
      unfold plainSays at plain_
      rw [class_] at plain_
      change cls.has b = true at told
      have itself : plain b = true → Expects p' (Before (Continued 0) (InString key stk)) →
          Leads (Before (Continued 0) (InString key stk)) b p' := by
        refine fun plain_ expects => ⟨_, expects, fun s h => ?_⟩
        refine .here ⟨rfl, List.forall_mem_nil _⟩ ?_
        exact h.continued_zero.cons (c := [b]) fun t u str => ⟨_, .plain plain_ str⟩
      cases cls with
      | nl | white => exact stepped.elim
      | quote =>
        obtain rfl := eq_of_beq told
        obtain ⟨es', rfl⟩ := stepped_end stepped
        have ends : ∀ s, (if key then ColonThen (After stk) else After stk) s →
            Before (Continued 0) (InString key stk) (34#8 :: s) := fun s h =>
          .here ⟨rfl, List.forall_mem_nil _⟩ ⟨[], _, ⟨[], .nil⟩, ⟨s, h, rfl⟩, rfl⟩
        cases key with
        | true => exact ⟨_, .colon inside, ends⟩
        | false => exact ⟨_, .scalar rfl (.inl rfl), fun s h => ends s h.behind⟩
      | backs =>
        obtain rfl := eq_of_beq told
        obtain rfl := stepped
        exact ⟨_, .escape inside, fun s h => .here ⟨rfl, List.forall_mem_nil _⟩ h.string⟩
      | _ =>
        obtain rfl := stepped
        exact itself plain_ (string_expects inside)

theorem expects_units (inside : stk ≠ []) (surrogate : multi = 0 ∨ HighSurrogate multi) :
    Expects (conf es .u1 sv key multi type stk buf) (UnitThen (BehindUnit key stk multi) []) := by
  have none_ : Expects (conf es (unitState ([] : Bytes).length) sv key multi type stk (buf ++ []))
      (UnitThen (BehindUnit key stk multi) []) :=
    .digits inside (by decide) (List.forall_mem_nil _) surrogate
  rwa [List.append_nil] at none_

theorem leads_escape (inside : stk ≠ [])
    (taken : putChar cfg unbounded collect (conf es .e0 sv key 0 type stk buf) b = .ok p') :
    Leads (EscapeThen key stk) b p' := by
  obtain ⟨cls, has, stepped⟩ := putChar_cases rfl rfl taken
  cases cls with
  | quote | backs | slash | b | f | n | r | t =>
    obtain rfl := eq_of_beq has
    obtain rfl := stepped
    exact ⟨_, string_expects inside, fun s h => .inl ⟨_, s, rfl, h.continued_zero, rfl⟩⟩
  | u =>
    obtain rfl := eq_of_beq has
    obtain rfl := stepped
    exact ⟨_, expects_units inside (.inl rfl), fun s h => .inr ⟨s, h, rfl⟩⟩
  | _ => exact stepped.elim

theorem leads_backslash (inside : stk ≠ []) (high : HighSurrogate multi)
    (taken : putChar cfg unbounded collect (conf es .d1 sv key multi type stk buf) b = .ok p') :
    Leads (Byte.Before 92#8 (Byte.Before 117#8 (UnitThen (BehindLow key stk) []))) b p' := by
  obtain ⟨cls, has, stepped⟩ := putChar_cases rfl rfl taken
  cases cls with
  | backs =>
    obtain rfl := eq_of_beq has
    obtain rfl := stepped
    exact ⟨_, .letter inside high, fun s h => ⟨s, h, rfl⟩⟩
  | _ => exact stepped.elim

theorem HighSurrogate.ne_zero (high : HighSurrogate n) : n ≠ 0 := by
  have ge := high.1
  omega

theorem leads_letter (inside : stk ≠ []) (high : HighSurrogate multi)
    (taken : putChar cfg unbounded collect (conf es .d2 sv key multi type stk buf) b = .ok p') :
    Leads (Byte.Before 117#8 (UnitThen (BehindLow key stk) [])) b p' := by
  obtain ⟨cls, has, stepped⟩ := putChar_cases rfl rfl taken
  cases cls with
  | u =>
    obtain rfl := eq_of_beq has
    obtain rfl := stepped
    refine ⟨_, expects_units inside (.inr high), fun s h => ⟨s, ?_, rfl⟩⟩
    have second : BehindUnit key stk multi = BehindLow key stk := by
      funext n r
      exact if_neg high.ne_zero
    exact second ▸ h
  | _ => exact stepped.elim

/-- One digit more. -/
theorem UnitThen.cons {K : Nat → Bytes → Prop} (h : UnitThen K (ds ++ [b]) s) :
    UnitThen K ds (b :: s) := by
  obtain ⟨more, r, a, b', c, d, hex, all, rest, rfl⟩ := h
  exact ⟨b :: more, r, a, b', c, d, hex, by rw [← all, List.append_assoc]; rfl, rest, rfl⟩

/-- A digit is kept, and leads on behind the first three. -/
theorem unit_table : ∀ i < 4, ∀ cls,
    (i < 3 → transition (unitState i) cls = if cls.hex then .goto (unitState (i + 1)) else .error) ∧
      (cls.hex = true → bufferPolicy (unitState i) cls = .append) := by decide +kernel

theorem unit_entry (i : Nat) (first : i < 3) (cls : Cls) : transition (unitState i) cls =
    if cls.hex then .goto (unitState (i + 1)) else .error :=
  (unit_table i (Nat.lt_succ_of_lt first) cls).1 first

theorem unit_policy (i : Nat) (digit : i < 4) (cls : Cls) :
    cls.hex = true → bufferPolicy (unitState i) cls = .append :=
  (unit_table i digit cls).2

theorem unit_single : ∀ i, transition (unitState i) .other = .error
  | 0 | 1 | 2 | _ + 3 => rfl

/-- The fourth digit. -/
theorem leads_fourth {a c d : Byte} (inside : stk ≠ []) (hex : Hex4 a c d b)
    (surrogate : multi = 0 ∨ HighSurrogate multi)
    (taken : doAction cfg unbounded collect
      (conf es .u4 sv key multi type stk (buf ++ [a, c, d, b])) .uc = .ok p') :
    Leads (UnitThen (BehindUnit key stk multi) [a, c, d]) b p' := by
  have front : ∀ s, BehindUnit key stk multi (unit a c d b) s →
      UnitThen (BehindUnit key stk multi) [a, c, d] (b :: s) := fun s rest =>
    ⟨[b], s, a, c, d, b, hex, rfl, rest, rfl⟩
  rw [doAction, call, actUc] at taken
  rcases surrogate with rfl | highMulti
  · by_cases low : LowSurrogate (unit a c d b)
    · rw [decode_lone_low rfl hex rfl low] at taken
      cases taken
    by_cases high : HighSurrogate (unit a c d b)
    · rw [decode_high rfl hex rfl high] at taken
      have same := Except.ok.inj taken
      dsimp only at same
      rw [if_pos high.ne_zero] at same
      obtain rfl := (same : conf es .d1 sv key (unit a c d b) .none stk buf = p')
      exact ⟨_, .backslash inside high, fun s h => front s (.inr ⟨high, h⟩)⟩
    · rw [decode_single rfl hex rfl high low] at taken
      obtain rfl := (Except.ok.inj taken : conf es .s sv key 0 .none stk _ = p')
      refine ⟨_, string_expects inside, fun s h => front s ?_⟩
      exact .inl ⟨high, low, h.continued_zero⟩
  · by_cases low : LowSurrogate (unit a c d b)
    · rw [decode_low rfl hex highMulti low] at taken
      obtain rfl := (Except.ok.inj taken : conf es .s sv key 0 .none stk _ = p')
      refine ⟨_, string_expects inside, fun s h => front s ?_⟩
      rw [BehindUnit, if_neg highMulti.ne_zero]
      exact ⟨low, h.continued_zero⟩
    · rw [decode_lone_high rfl hex highMulti.ne_zero low] at taken
      cases taken

theorem leads_digits (inside : stk ≠ []) (short : ds.length < 4) (hex : ∀ d ∈ ds, hexDigit d = true)
    (surrogate : multi = 0 ∨ HighSurrogate multi)
    (taken : putChar cfg unbounded collect
      (conf es (unitState ds.length) sv key multi type stk (buf ++ ds)) b = .ok p') :
    Leads (UnitThen (BehindUnit key stk multi) ds) b p' := by
  obtain ⟨cls, has, stepped⟩ := putChar_cases rfl (unit_single ds.length) taken
  change Stepped cfg _ (transition (unitState ds.length) cls) p' at stepped
  by_cases last : ds.length = 3
  · obtain ⟨a, c, d, rfl⟩ := List.length_eq_three.1 last
    change Stepped cfg _ (if cls.hex then .act .uc else .error) p' at stepped
    split at stepped
    · rename_i digit_
      have kept : bufferPolicy .u4 cls = .append := unit_policy 3 (by decide) cls digit_
      change doAction cfg unbounded collect (conf es .u4 sv key multi type stk
        (buf ++ [a, c, d] ++ (bufferPolicy .u4 cls).kept b)) .uc = .ok p' at stepped
      rw [kept, List.append_assoc] at stepped
      refine leads_fourth inside ⟨hex a (by simp), hex c (by simp), hex d (by simp), ?_⟩ surrogate stepped
      exact has_hex has digit_
    · exact stepped.elim
  · rw [unit_entry _ (by omega)] at stepped
    split at stepped
    · rename_i digit_
      have same : conf es (unitState (ds.length + 1)) sv key multi type stk
        (buf ++ ds ++ (bufferPolicy (unitState ds.length) cls).kept b) = p' := stepped
      rw [unit_policy _ short cls digit_] at same
      subst same
      have more : Expects (conf es (unitState (ds ++ [b]).length) sv key multi type stk
          (buf ++ (ds ++ [b]))) (UnitThen (BehindUnit key stk multi) (ds ++ [b])) := by
        refine .digits inside ?_ ?_ surrogate
        · rw [List.length_append, List.length_singleton]
          omega
        · rw [List.forall_mem_append, List.forall_mem_singleton]
          exact ⟨hex, has_hex has digit_⟩
      rw [List.length_append, List.length_singleton, ← List.append_assoc] at more
      exact ⟨_, more, fun s h => h.cons⟩
    · exact stepped.elim

end Strings

/-! ## Texts -/

section

variable {cfg : Config} {p p' q : Reader} {K : Bytes → Prop} {b : Byte} {s : Bytes}

/-- **One byte.** -/
theorem Expects.step (plain : cfg.Plain) (h : Expects p K)
    (taken : putChar cfg unbounded collect p b = .ok p') : Leads K b p' := by
  cases h with
  | start => exact leads_start plain taken
  | scalar scalar inside => exact leads_scalar plain scalar inside taken
  | value inside => exact leads_value plain inside taken
  | array inside => exact leads_array plain inside taken
  | object inside => exact leads_object plain inside taken
  | name inside => exact leads_name plain inside taken
  | colon inside => exact leads_colon plain inside taken
  | string inside => exact leads_string inside taken
  | escape inside => exact leads_escape inside taken
  | digits inside short hex surrogate => exact leads_digits inside short hex surrogate taken
  | backslash inside high => exact leads_backslash inside high taken
  | letter inside high => exact leads_letter inside high taken

/-- Behind a whole text nothing more is needed. -/
theorem Expects.finished (h : Expects p K) (done : jsonParserIsDone p = true) : K [] := by
  have empty : p.stack = [] ∧ p.state ≠ .go := by
    unfold jsonParserIsDone at done
    rw [Bool.and_eq_true, bne_iff_ne, List.isEmpty_iff] at done
    exact done
  cases h with
  | start => exact absurd rfl empty.2
  | scalar scalar inside =>
    obtain rfl := inside.resolve_right (not_not_intro empty.1)
    obtain rfl := empty.1
    exact ⟨[], [], rfl, .top space_nil, rfl⟩
  | value inside | array inside | object inside | name inside | colon inside | string inside
  | escape inside => exact absurd empty.1 inside
  | digits inside | backslash inside | letter inside => exact absurd empty.1 inside

theorem Expects.accepted (plain : cfg.Plain) (h : Expects p K) (read : reads cfg p s = .ok q)
    (done : jsonParserIsDone q = true) : K s := by
  induction s generalizing p K with
  | nil =>
    cases read
    exact h.finished done
  | cons b s ih =>
    obtain ⟨m, first, rest⟩ := readBytes_cons_ok read
    obtain ⟨K', expects, front⟩ := h.step plain first
    exact front s (ih expects rest)

/-- The reader takes only texts of the dialect. -/
theorem document_of_accepted (plain : cfg.Plain) (read : reads cfg reader s = .ok q)
    (done : jsonParserIsDone q = true) : ∃ t, Document s t :=
  Expects.accepted plain .start read done

end

end SpiderFrame.Libjson
