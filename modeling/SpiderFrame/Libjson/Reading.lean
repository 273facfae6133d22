import SpiderFrame.Libjson.Unicode

/-!
# The reader takes every text of the dialect

The text of a value takes the reader from where a value may begin to where one has ended, with the events
of its tree. A number, a string or a literal may still be pending there: the next comma, bracket or
comment hands it on.
-/

namespace SpiderFrame.Libjson
open SpiderFrame.Base.Json (Space digit hexDigit utf8)

section

variable {cfg : Config} {es es' : List Event} {sv st : St} {stk : List Mode} {key : Bool}

/-- A reader between two characters. -/
def conf (es : List Event) (st sv : St) (key : Bool) (multi : Nat) (type : JsonType)
    (stk : List Mode) (buf : Bytes) : Reader :=
  ⟨es, st, sv, key, 0, multi, type, stk, buf, ()⟩

/-- `readBytes` without limits. -/
abbrev reads (cfg : Config) (p : Reader) (s : Bytes) : Except JsonError Reader :=
  readBytes cfg unbounded collect p s

/-- The bytes take the reader from `p` to `q`. -/
def Takes (cfg : Config) (p : Reader) (s : Bytes) (q : Reader) : Prop := reads cfg p s = .ok q

theorem Takes.nil (p : Reader) : Takes cfg p [] p := rfl

theorem Takes.trans {p q r : Reader} {s s' : Bytes} (h : Takes cfg p s q) (h' : Takes cfg q s' r) :
    Takes cfg p (s ++ s') r := (readBytes_append_ok h).trans h'

theorem Takes.cons {p q r : Reader} {b : Byte} {s : Bytes}
    (first : putChar cfg unbounded collect p b = .ok q) (h : Takes cfg q s r) :
    Takes cfg p (b :: s) r := by
  unfold Takes reads
  rw [readBytes_cons, first]
  exact h

theorem Takes.one {p q : Reader} {b : Byte} (first : putChar cfg unbounded collect p b = .ok q) :
    Takes cfg p [b] q := .cons first (.nil q)

/-! ## Bytes and their classes -/

/-- A byte of this class, outside of a character of several bytes. -/
theorem putChar_class {p : Reader} {b : Byte} {cls : Cls} (left : p.utf8MultibyteLeft = 0)
    (class_ : nextClass 0 b = .ok (cls, 0)) :
    putChar cfg unbounded collect p b = step cfg unbounded collect p b cls := by
  have same : { p with utf8MultibyteLeft := 0 } = p := by
    rw [← left]
  unfold putChar
  rw [left, class_]
  change step cfg unbounded collect { p with utf8MultibyteLeft := 0 } b cls = _
  rw [same]

section Steps

variable {p : Reader} {b : Byte} {cls : Cls}

theorem putChar_ignore (left : p.utf8MultibyteLeft = 0) (class_ : nextClass 0 b = .ok (cls, 0))
    (entry : transition p.state cls = .goto st ∧ bufferPolicy p.state cls = .ignore) :
    putChar cfg unbounded collect p b = .ok { p with state := st } := by
  rw [putChar_class left class_, step_goto cfg unbounded collect entry.1, entry.2]
  rfl

theorem putChar_append (left : p.utf8MultibyteLeft = 0) (class_ : nextClass 0 b = .ok (cls, 0))
    (entry : transition p.state cls = .goto st ∧ bufferPolicy p.state cls = .append) :
    putChar cfg unbounded collect p b = .ok { p with state := st, buffer := p.buffer ++ [b] } := by
  rw [putChar_class left class_, step_goto cfg unbounded collect entry.1, entry.2]
  rfl

theorem putChar_act {act : Act} (left : p.utf8MultibyteLeft = 0)
    (class_ : nextClass 0 b = .ok (cls, 0))
    (entry : transition p.state cls = .act act ∧ bufferPolicy p.state cls = .ignore) :
    putChar cfg unbounded collect p b = doAction cfg unbounded collect p act := by
  rw [putChar_class left class_, step_act cfg unbounded collect entry.1, entry.2]
  rfl

theorem putChar_act_append {act : Act} (left : p.utf8MultibyteLeft = 0)
    (class_ : nextClass 0 b = .ok (cls, 0))
    (entry : transition p.state cls = .act act ∧ bufferPolicy p.state cls = .append) :
    putChar cfg unbounded collect p b =
      doAction cfg unbounded collect { p with buffer := p.buffer ++ [b] } act := by
  rw [putChar_class left class_, step_act cfg unbounded collect entry.1, entry.2]
  rfl

end Steps

theorem class_space {b : Byte} (h : b = 32#8 ∨ b = 9#8 ∨ b = 10#8 ∨ b = 13#8) :
    ∃ cls, nextClass 0 b = .ok (cls, 0) ∧ (cls = .space ∨ cls = .nl ∨ cls = .white) := by
  rcases h with rfl | rfl | rfl | rfl
  · exact ⟨.space, rfl, .inl rfl⟩
  · exact ⟨.white, rfl, .inr (.inr rfl)⟩
  · exact ⟨.nl, rfl, .inr (.inl rfl)⟩
  · exact ⟨.white, rfl, .inr (.inr rfl)⟩

/-- The classes of digits, and of the bytes in a string. -/
theorem class_table : ∀ b : Byte,
    (digit b = true → nextClass 0 b = .ok (if b = 48#8 then Cls.zero else Cls.digit, 0)) ∧
    (plain b = true → ∃ cls, nextClass 0 b = .ok (cls, 0) ∧
      transition .s cls = .goto .s ∧ bufferPolicy .s cls = .append) ∧
    (escapes b = true → ∃ cls, nextClass 0 b = .ok (cls, 0) ∧
      transition .e0 cls = .goto .s ∧ bufferPolicy .e0 cls = .escape) ∧
    (hexDigit b = true → ∃ cls, nextClass 0 b = .ok (cls, 0) ∧ cls.hex = true) := by decide +kernel

theorem class_digit (b : Byte) : digit b = true →
    nextClass 0 b = .ok (if b = 48#8 then Cls.zero else Cls.digit, 0) :=
  (class_table b).1

/-- The states in which white space may stand before something else. -/
def St.waits : St → Bool
  | .go | .o | .k | .co | .v | .a => true
  | _ => false

theorem transition_waits {cls : Cls} (waits : st.waits = true)
    (space : cls = .space ∨ cls = .nl ∨ cls = .white) :
    transition st cls = .goto st ∧ bufferPolicy st cls = .ignore := by
  cases st
  case go | o | k | co | v | a => rcases space with rfl | rfl | rfl <;> exact ⟨rfl, rfl⟩
  all_goals cases waits

/-- White space where something else is to come. -/
theorem takes_space (waits : st.waits = true) {w : Bytes} (space : Space w) :
    Takes cfg (conf es st sv key 0 .none stk []) w (conf es st sv key 0 .none stk []) := by
  induction w with
  | nil => exact .nil _
  | cons b w ih =>
    obtain ⟨cls, class_, blank⟩ := class_space (space b List.mem_cons_self)
    refine .cons ?_ (ih fun c member => space c (List.mem_cons_of_mem _ member))
    exact putChar_ignore rfl class_ (transition_waits waits blank)

/-! ## The end of a value -/

/-- The states behind a value. -/
def St.ended : St → Bool
  | .ok | .z0 | .i0 | .r2 | .x3 => true
  | _ => false

/-- The event of what has been read and not handed on. -/
def pending (type : JsonType) (buf : Bytes) : List Event :=
  if type.isData then [⟨type, buf⟩] else []

/-- A value has ended, with these events in all. -/
def Ended (es : List Event) (sv : St) (stk : List Mode) (p : Reader) : Prop :=
  ∃ st type buf es₀, st.ended = true ∧ p = conf es₀ st sv false 0 type stk buf ∧
    es = es₀ ++ pending type buf

theorem transition_ended (ended : st.ended = true) :
    (∀ cls, (cls = .space ∨ cls = .nl ∨ cls = .white) →
      transition st cls = .goto .ok ∧ bufferPolicy st cls = .ignore) ∧
    (transition st .comma = .act .sp ∧ bufferPolicy st .comma = .ignore) ∧
    (transition st .rsqrb = .act .ae ∧ bufferPolicy st .rsqrb = .ignore) ∧
    (transition st .rcurb = .act .oe ∧ bufferPolicy st .rcurb = .ignore) := by
  cases st
  case ok | z0 | i0 | r2 | x3 =>
    refine ⟨?_, ⟨rfl, rfl⟩, ⟨rfl, rfl⟩, rfl, rfl⟩
    rintro cls (rfl | rfl | rfl) <;> exact ⟨rfl, rfl⟩
  all_goals cases ended

theorem Ended.space {p : Reader} (h : Ended es sv stk p) {w : Bytes} (space : Space w) :
    ∃ q, Takes cfg p w q ∧ Ended es sv stk q := by
  induction w generalizing p with
  | nil => exact ⟨p, .nil p, h⟩
  | cons b w ih =>
    obtain ⟨st, type, buf, es₀, ended, rfl, same⟩ := h
    obtain ⟨cls, class_, blank⟩ := class_space (space b List.mem_cons_self)
    obtain ⟨q, taken, last⟩ := ih (p := conf es₀ .ok sv false 0 type stk buf)
      ⟨.ok, type, buf, es₀, rfl, rfl, same⟩ fun c member => space c (List.mem_cons_of_mem _ member)
    refine ⟨q, .cons ?_ taken, last⟩
    exact putChar_ignore rfl class_ ((transition_ended ended).1 cls blank)

/-- What `do_buffer` does behind a value. -/
theorem doBuffer_conf (st : St) (type : JsonType) (buf : Bytes) :
    doBuffer collect (conf es st sv key 0 type stk buf) =
      .ok (conf (es ++ pending type buf) st sv key 0 type stk []) := by
  unfold doBuffer pending
  change (if type.isData then _ else _) = _
  split
  · rfl
  · rw [List.append_nil]
    rfl

/-- An action behind a value. -/
theorem Ended.act (cfg : Config) {p : Reader} (h : Ended es sv stk p) (b : Byte) (cls : Cls) {act : Act}
    (class_ : nextClass 0 b = .ok (cls, 0))
    (acts : ∀ st : St, st.ended = true →
      transition st cls = .act act ∧ bufferPolicy st cls = .ignore) :
    ∃ st type, putChar cfg unbounded collect p b =
      doAction cfg unbounded collect p act ∧
      doBuffer collect p = .ok (conf es st sv false 0 type stk []) := by
  obtain ⟨st, type, buf, es₀, ended, rfl, rfl⟩ := h
  exact ⟨st, type, putChar_act rfl class_ (acts st ended), doBuffer_conf st type buf⟩

theorem Ended.comma_array {p : Reader} (h : Ended es sv (.array :: stk) p) :
    putChar cfg unbounded collect p 44#8 =
      .ok (conf es .v sv false 0 .none (.array :: stk) []) := by
  obtain ⟨st, type, put, flushed⟩ := h.act cfg 44#8 .comma rfl
    fun st ended => (transition_ended ended).2.1
  rw [put, doAction, call, flushed]
  rfl

theorem Ended.comma_object {p : Reader} (h : Ended es sv (.object :: stk) p) :
    putChar cfg unbounded collect p 44#8 =
      .ok (conf es .k sv true 0 .none (.object :: stk) []) := by
  obtain ⟨st, type, put, flushed⟩ := h.act cfg 44#8 .comma rfl
    fun st ended => (transition_ended ended).2.1
  rw [put, doAction, call, flushed]
  rfl

theorem ended_none (es : List Event) (sv : St) (stk : List Mode) :
    Ended es sv stk (conf es .ok sv false 0 .none stk []) :=
  ⟨.ok, .none, [], es, rfl, rfl, (List.append_nil es).symm⟩

theorem Ended.close_array {p : Reader} (h : Ended es sv (.array :: stk) p) :
    ∃ q, putChar cfg unbounded collect p 93#8 = .ok q ∧ Ended (es ++ [⟨.arrayEnd, []⟩]) sv stk q := by
  obtain ⟨st, type, put, flushed⟩ := h.act cfg 93#8 .rsqrb rfl
    fun st ended => (transition_ended ended).2.2.1
  refine ⟨_, ?_, ended_none _ sv stk⟩
  rw [put, doAction, call, flushed]
  rfl

theorem Ended.close_object {p : Reader} (h : Ended es sv (.object :: stk) p) :
    ∃ q, putChar cfg unbounded collect p 125#8 = .ok q ∧ Ended (es ++ [⟨.objectEnd, []⟩]) sv stk q := by
  obtain ⟨st, type, put, flushed⟩ := h.act cfg 125#8 .rcurb rfl
    fun st ended => (transition_ended ended).2.2.2
  refine ⟨_, ?_, ended_none _ sv stk⟩
  rw [put, doAction, call, flushed]
  rfl

end

/-! ## Strings -/

section

variable {cfg : Config} {es : List Event} {sv : St} {stk : List Mode} {key : Bool} {buf : Bytes}

theorem class_plain (b : Byte) : plain b = true → ∃ cls, nextClass 0 b = .ok (cls, 0) ∧
    transition .s cls = .goto .s ∧ bufferPolicy .s cls = .append :=
  (class_table b).2.1

theorem class_escapes (b : Byte) : escapes b = true → ∃ cls, nextClass 0 b = .ok (cls, 0) ∧
    transition .e0 cls = .goto .s ∧ bufferPolicy .e0 cls = .escape :=
  (class_table b).2.2.1

theorem class_hex (b : Byte) : hexDigit b = true →
    ∃ cls, nextClass 0 b = .ok (cls, 0) ∧ cls.hex = true :=
  (class_table b).2.2.2

/-- The reader inside a string. -/
abbrev inString (es : List Event) (sv : St) (key : Bool) (stk : List Mode) (buf : Bytes) : Reader :=
  conf es .s sv key 0 .none stk buf

theorem putChar_other {left left' : Nat} {b : Byte} (class_ : nextClass left b = .ok (.other, left')) :
    putChar cfg unbounded collect { inString es sv key stk buf with utf8MultibyteLeft := left } b =
      .ok { inString es sv key stk (buf ++ [b]) with utf8MultibyteLeft := left' } := by
  unfold putChar
  dsimp only
  rw [class_]
  rfl

/-- The bytes that a character has left. -/
theorem takes_continued {bs : Bytes} (continued : ∀ c ∈ bs, utf8Continuation c = true) :
    Takes cfg { inString es sv key stk buf with utf8MultibyteLeft := bs.length } bs
      (inString es sv key stk (buf ++ bs)) := by
  induction bs generalizing buf with
  | nil =>
    rw [List.append_nil]
    exact .nil _
  | cons b bs ih =>
    have class_ : nextClass (bs.length + 1) b = .ok (.other, bs.length) := by
      unfold nextClass
      rw [if_pos (Nat.succ_pos _), if_pos (continued b List.mem_cons_self)]
      rfl
    have rest : Takes cfg { inString es sv key stk (buf ++ [b]) with utf8MultibyteLeft := bs.length } bs
        (inString es sv key stk (buf ++ [b] ++ bs)) :=
      ih fun c member => continued c (List.mem_cons_of_mem _ member)
    rw [List.append_assoc] at rest
    exact .cons (putChar_other class_) rest

theorem takes_multibyte {b : Byte} {bs : Bytes} (h : Multibyte b bs) :
    Takes cfg (inString es sv key stk buf) (b :: bs) (inString es sv key stk (buf ++ b :: bs)) := by
  have class_ : nextClass 0 b = .ok (.other, bs.length) := by
    unfold nextClass
    rw [if_neg (Nat.lt_irrefl 0), h.header]
    cases bs with
    | nil => exact absurd rfl h.some_
    | cons c bs => rfl
  have first : putChar cfg unbounded collect (inString es sv key stk buf) b =
      .ok { inString es sv key stk (buf ++ [b]) with utf8MultibyteLeft := bs.length } :=
    putChar_other class_
  have rest : Takes cfg { inString es sv key stk (buf ++ [b]) with utf8MultibyteLeft := bs.length } bs
      (inString es sv key stk (buf ++ [b] ++ bs)) := takes_continued h.continued
  rw [List.append_assoc] at rest
  exact .cons first rest

/-- The first three digits of a character. -/
theorem takes_digits {multi : Nat} {a b c : Byte} (ha : hexDigit a = true) (hb : hexDigit b = true)
    (hc : hexDigit c = true) :
    Takes cfg (conf es .u1 sv key multi .none stk buf) [a, b, c]
      (conf es .u4 sv key multi .none stk (buf ++ [a, b, c])) := by
  obtain ⟨cls₁, class₁, hex₁⟩ := class_hex a ha
  obtain ⟨cls₂, class₂, hex₂⟩ := class_hex b hb
  obtain ⟨cls₃, class₃, hex₃⟩ := class_hex c hc
  have first : putChar cfg unbounded collect (conf es .u1 sv key multi .none stk buf) a = _ :=
    putChar_append rfl class₁ ⟨if_pos hex₁, if_pos hex₁⟩
  have second : putChar cfg unbounded collect
      (conf es .u2 sv key multi .none stk (buf ++ [a])) b = _ :=
    putChar_append rfl class₂ ⟨if_pos hex₂, if_pos hex₂⟩
  have third : putChar cfg unbounded collect
      (conf es .u3 sv key multi .none stk (buf ++ [a] ++ [b])) c = _ :=
    putChar_append rfl class₃ ⟨if_pos hex₃, if_pos hex₃⟩
  have last : buf ++ [a] ++ [b] ++ [c] = buf ++ [a, b, c] := by simp
  rw [← last]
  exact .cons first (.cons second (.one third))

/-- The fourth digit. -/
theorem putChar_fourth {multi : Nat} {a b c d : Byte} (hd : hexDigit d = true) :
    putChar cfg unbounded collect (conf es .u4 sv key multi .none stk (buf ++ [a, b, c])) d =
      doAction cfg unbounded collect
        (conf es .u4 sv key multi .none stk (buf ++ [a, b, c, d])) .uc := by
  obtain ⟨cls, class_, hex⟩ := class_hex d hd
  rw [putChar_act_append (p := conf es .u4 sv key multi .none stk (buf ++ [a, b, c])) rfl class_
    ⟨if_pos hex, if_pos hex⟩]
  have last : buf ++ [a, b, c] ++ [d] = buf ++ [a, b, c, d] := by simp
  exact congrArg (fun bytes => doAction cfg unbounded collect
    (conf es .u4 sv key multi .none stk bytes) .uc) last

/-- The backslash, the letter and the digits of a character, up to what `decode_unicode_char` makes of
them. -/
theorem takes_unit {st : St} {multi : Nat} {a b c d : Byte} {q : Reader} (h : Hex4 a b c d)
    (opened : Takes cfg (conf es st sv key multi .none stk buf) [92#8, 117#8]
      (conf es .u1 sv key multi .none stk buf))
    (decoded : doAction cfg unbounded collect
      (conf es .u4 sv key multi .none stk (buf ++ [a, b, c, d])) .uc = .ok q) :
    Takes cfg (conf es st sv key multi .none stk buf) [92#8, 117#8, a, b, c, d] q := by
  have digits := opened.trans (takes_digits h.1 h.2.1 h.2.2.1)
  exact digits.trans (.one ((putChar_fourth h.2.2.2).trans decoded))

/-- Before the digits of a character, or of the second one of a pair. -/
theorem takes_backslash_u {st : St} {multi : Nat} (place : st = .s ∨ st = .d1) :
    Takes cfg (conf es st sv key multi .none stk buf) [92#8, 117#8]
      (conf es .u1 sv key multi .none stk buf) := by
  rcases place with rfl | rfl <;> exact .cons rfl (.one rfl)

theorem takes_unicode {a b c d : Byte} (h : Hex4 a b c d) (notHigh : ¬ HighSurrogate (unit a b c d))
    (notLow : ¬ LowSurrogate (unit a b c d)) :
    Takes cfg (inString es sv key stk buf) [92#8, 117#8, a, b, c, d]
      (inString es sv key stk (buf ++ utf8 (unit a b c d))) := by
  refine takes_unit h (takes_backslash_u (.inl rfl)) ?_
  rw [doAction, call, actUc, decode_single rfl h rfl notHigh notLow]
  rfl

theorem takes_pair {a b c d a' b' c' d' : Byte} (h : Hex4 a b c d) (h' : Hex4 a' b' c' d')
    (high : HighSurrogate (unit a b c d)) (low : LowSurrogate (unit a' b' c' d')) :
    Takes cfg (inString es sv key stk buf)
      [92#8, 117#8, a, b, c, d, 92#8, 117#8, a', b', c', d']
      (inString es sv key stk (buf ++ utf8Pair (unit a b c d) (unit a' b' c' d'))) := by
  have first : Takes cfg (inString es sv key stk buf) [92#8, 117#8, a, b, c, d]
      (conf es .d1 sv key (unit a b c d) .none stk buf) := by
    refine takes_unit h (takes_backslash_u (.inl rfl)) ?_
    rw [doAction, call, actUc, decode_high rfl h rfl high]
    have second : unit a b c d ≠ 0 := by
      have ge := high.1
      omega
    exact congrArg (fun st => Except.ok (conf es st sv key (unit a b c d) .none stk buf)) (if_pos second)
  have second : Takes cfg (conf es .d1 sv key (unit a b c d) .none stk buf)
      [92#8, 117#8, a', b', c', d']
      (inString es sv key stk (buf ++ utf8Pair (unit a b c d) (unit a' b' c' d'))) := by
    refine takes_unit h' (takes_backslash_u (.inr rfl)) ?_
    rw [doAction, call, actUc, decode_low rfl h' high low]
    rfl
  exact first.trans second

/-- **A string**: the buffer gets the bytes that it stands for. -/
theorem takes_str {t s : Bytes} (h : Str t s) :
    Takes cfg (inString es sv key stk buf) t (inString es sv key stk (buf ++ s)) := by
  induction h generalizing buf with
  | nil =>
    rw [List.append_nil]
    exact .nil _
  | @plain b t s h rest ih =>
    obtain ⟨cls, class_, entry⟩ := class_plain b h
    have next : Takes cfg (inString es sv key stk (buf ++ [b])) t
        (inString es sv key stk (buf ++ [b] ++ s)) := ih
    rw [List.append_assoc] at next
    exact .cons (putChar_append rfl class_ entry) next
  | @multibyte b bs t s h rest ih =>
    have next : Takes cfg (inString es sv key stk (buf ++ b :: bs)) t
        (inString es sv key stk (buf ++ b :: bs ++ s)) := ih
    rw [List.append_assoc] at next
    exact (takes_multibyte h).trans next
  | @escape e t s h rest ih =>
    obtain ⟨cls, class_, entry⟩ := class_escapes e h
    have next : Takes cfg (inString es sv key stk (buf ++ [escapeChar e])) t
        (inString es sv key stk (buf ++ [escapeChar e] ++ s)) := ih
    rw [List.append_assoc] at next
    have letter : putChar cfg unbounded collect (conf es .e0 sv key 0 .none stk buf) e =
        .ok (inString es sv key stk (buf ++ [escapeChar e])) := by
      rw [putChar_class rfl class_, step_goto cfg unbounded collect entry.1]
      change Except.map _ (keep unbounded _ e (bufferPolicy .e0 cls)) = _
      rw [entry.2]
      rfl
    exact .cons rfl (.cons letter next)
  | @unicode a b c d t s h notHigh notLow rest ih =>
    have next : Takes cfg (inString es sv key stk (buf ++ utf8 (unit a b c d))) t
        (inString es sv key stk (buf ++ utf8 (unit a b c d) ++ s)) := ih
    rw [List.append_assoc] at next
    exact (takes_unicode h notHigh notLow).trans next
  | @pair a b c d a' b' c' d' t s h h' high low rest ih =>
    have next : Takes cfg (inString es sv key stk (buf ++ utf8Pair (unit a b c d) (unit a' b' c' d'))) t
        (inString es sv key stk (buf ++ utf8Pair (unit a b c d) (unit a' b' c' d') ++ s)) := ih
    rw [List.append_assoc] at next
    exact (takes_pair h h' high low).trans next

end

/-! ## Numbers -/

section

variable {cfg : Config} {es : List Event} {sv st st' : St} {stk : List Mode} {type : JsonType}
  {buf bs : Bytes}

/-- A digit leads from the one state to the other. -/
def Digital (st st' : St) : Prop :=
  ∀ cls, cls = .zero ∨ cls = .digit → transition st cls = .goto st' ∧ bufferPolicy st cls = .append

theorem Digital.put (digital : Digital st st') {d : Byte} (digit_ : digit d = true) :
    putChar cfg unbounded collect (conf es st sv false 0 type stk buf) d =
      .ok (conf es st' sv false 0 type stk (buf ++ [d])) := by
  refine putChar_append rfl (class_digit d digit_) (digital _ ?_)
  split
  · exact .inl rfl
  · exact .inr rfl

theorem Digital.more (loop : Digital st st) {ds : Bytes} (digits : Digits ds) :
    Takes cfg (conf es st sv false 0 type stk buf) ds
      (conf es st sv false 0 type stk (buf ++ ds)) := by
  induction ds generalizing buf with
  | nil =>
    rw [List.append_nil]
    exact .nil _
  | cons d ds ih =>
    have next : Takes cfg (conf es st sv false 0 type stk (buf ++ [d])) ds
        (conf es st sv false 0 type stk (buf ++ [d] ++ ds)) :=
      ih fun c member => digits c (List.mem_cons_of_mem _ member)
    rw [List.append_assoc] at next
    exact .cons (loop.put (digits d List.mem_cons_self)) next

theorem Digital.run (enter : Digital st st') (loop : Digital st' st') {d : Byte} {ds : Bytes}
    (digits : Digits (d :: ds)) :
    Takes cfg (conf es st sv false 0 type stk buf) (d :: ds)
      (conf es st' sv false 0 type stk (buf ++ d :: ds)) := by
  have next : Takes cfg (conf es st' sv false 0 type stk (buf ++ [d])) ds
      (conf es st' sv false 0 type stk (buf ++ [d] ++ ds)) :=
    loop.more fun c member => digits c (List.mem_cons_of_mem _ member)
  rw [List.append_assoc] at next
  exact .cons (enter.put (digits d List.mem_cons_self)) next

theorem digital_i0 : Digital .i0 .i0 := by rintro cls (rfl | rfl) <;> exact ⟨rfl, rfl⟩
theorem digital_r1 : Digital .r1 .r2 := by rintro cls (rfl | rfl) <;> exact ⟨rfl, rfl⟩
theorem digital_r2 : Digital .r2 .r2 := by rintro cls (rfl | rfl) <;> exact ⟨rfl, rfl⟩
theorem digital_x1 : Digital .x1 .x3 := by rintro cls (rfl | rfl) <;> exact ⟨rfl, rfl⟩
theorem digital_x2 : Digital .x2 .x3 := by rintro cls (rfl | rfl) <;> exact ⟨rfl, rfl⟩
theorem digital_x3 : Digital .x3 .x3 := by rintro cls (rfl | rfl) <;> exact ⟨rfl, rfl⟩

/-- The state behind the digits before the point. -/
def intState (int : Bytes) : St := if int = [48#8] then .z0 else .i0

theorem nonzero_digit {d : Byte} (h : nonzero d = true) : digit d = true ∧ d ≠ 48#8 := by
  unfold nonzero at h
  rw [Bool.and_eq_true, bne_iff_ne] at h
  exact h

theorem class_nonzero {d : Byte} (h : nonzero d = true) : nextClass 0 d = .ok (.digit, 0) := by
  obtain ⟨digit_, other⟩ := nonzero_digit h
  rw [class_digit d digit_, if_neg other]

theorem intState_more {d : Byte} {ds : Bytes} (first : nonzero d = true) :
    intState (d :: ds) = .i0 :=
  if_neg fun same => (nonzero_digit first).2 (List.cons.inj same).1

theorem takes_int (opens : st = .v ∨ st = .a) {sign int : Bytes} (signed : sign = [] ∨ sign = [45#8])
    (h : IntPart int) :
    Takes cfg (conf es st sv false 0 .none stk []) (sign ++ int)
      (conf es (intState int) sv false 0 .int stk (sign ++ int)) := by
  rcases signed with rfl | rfl
  · cases h with
    | zero => rcases opens with rfl | rfl <;> exact .one rfl
    | @more d ds first rest =>
      rw [intState_more first]
      have entry : transition st .digit = .act .ix ∧ bufferPolicy st .digit = .append := by
        rcases opens with rfl | rfl <;> exact ⟨rfl, rfl⟩
      have start : putChar cfg unbounded collect (conf es st sv false 0 .none stk []) d =
          .ok (conf es .i0 sv false 0 .int stk [d]) := by
        rw [putChar_act_append rfl (class_nonzero first) entry]
        rfl
      exact .cons start (digital_i0.more rest)
  · have minus : putChar cfg unbounded collect (conf es st sv false 0 .none stk []) 45#8 =
        .ok (conf es .m0 sv false 0 .int stk [45#8]) := by
      rcases opens with rfl | rfl <;> rfl
    refine .cons minus ?_
    cases h with
    | zero => exact .one rfl
    | @more d ds first rest =>
      rw [intState_more first]
      have start : putChar cfg unbounded collect (conf es .m0 sv false 0 .int stk [45#8]) d =
          .ok (conf es .i0 sv false 0 .int stk [45#8, d]) :=
        putChar_append rfl (class_nonzero first) ⟨rfl, rfl⟩
      exact .cons start (digital_i0.more rest)

/-- A point and digits. -/
theorem takes_fraction (whole : st = .z0 ∨ st = .i0) {frac : Bytes} (h : Fraction frac) :
    Takes cfg (conf es st sv false 0 .int stk buf) frac
      (conf es .r2 sv false 0 .float stk (buf ++ frac)) := by
  obtain ⟨d, ds, digits, rfl⟩ := h
  have point : putChar cfg unbounded collect (conf es st sv false 0 .int stk buf) 46#8 =
      .ok (conf es .r1 sv false 0 .float stk (buf ++ [46#8])) := by
    rcases whole with rfl | rfl <;> rfl
  have rest : Takes cfg (conf es .r1 sv false 0 .float stk (buf ++ [46#8])) (d :: ds)
      (conf es .r2 sv false 0 .float stk (buf ++ [46#8] ++ d :: ds)) := digital_r1.run digital_r2 digits
  rw [List.append_assoc] at rest
  exact .cons point rest

/-- An exponent behind its letter. -/
theorem takes_power {sign : Bytes} (signed : sign = [] ∨ sign = [43#8] ∨ sign = [45#8]) {d : Byte}
    {ds : Bytes} (digits : Digits (d :: ds)) :
    Takes cfg (conf es .x1 sv false 0 .float stk buf) (sign ++ d :: ds)
      (conf es .x3 sv false 0 .float stk (buf ++ (sign ++ d :: ds))) := by
  rcases signed with rfl | rfl | rfl
  · exact digital_x1.run digital_x3 digits
  all_goals
    rw [← List.append_assoc]
    exact .cons rfl (digital_x2.run digital_x3 digits)

theorem takes_exponent (before : (st = .r2 ∧ type = .float) ∨ st = .i0) {exp : Bytes}
    (h : Exponent exp) :
    Takes cfg (conf es st sv false 0 type stk buf) exp
      (conf es .x3 sv false 0 .float stk (buf ++ exp)) := by
  obtain ⟨e, sign, d, ds, letter, signed, digits, rfl⟩ := h
  have first : putChar cfg unbounded collect (conf es st sv false 0 type stk buf) e =
      .ok (conf es .x1 sv false 0 .float stk (buf ++ [e])) := by
    rcases before with ⟨rfl, rfl⟩ | rfl <;> rcases letter with rfl | rfl <;> rfl
  have rest : Takes cfg (conf es .x1 sv false 0 .float stk (buf ++ [e])) (sign ++ d :: ds)
      (conf es .x3 sv false 0 .float stk (buf ++ [e] ++ (sign ++ d :: ds))) := takes_power signed digits
  rw [List.append_assoc] at rest
  exact .cons first rest

theorem takes_float (opens : st = .v ∨ st = .a) (h : FloatText bs) :
    ∃ st', (st' = .r2 ∨ st' = .x3) ∧ Takes cfg (conf es st sv false 0 .none stk []) bs
      (conf es st' sv false 0 .float stk bs) := by
  obtain ⟨sign, int, rest, signed, whole, rfl, more⟩ := h
  have first : Takes cfg (conf es st sv false 0 .none stk []) (sign ++ int)
      (conf es (intState int) sv false 0 .int stk (sign ++ int)) := takes_int opens signed whole
  rw [← List.append_assoc]
  rcases more with ⟨frac, exp, fraction, exponent, rfl⟩ | ⟨other, exponent⟩
  · have known : intState int = .z0 ∨ intState int = .i0 := by
      unfold intState
      split
      · exact .inl rfl
      · exact .inr rfl
    have second := first.trans (takes_fraction known fraction)
    rw [← List.append_assoc]
    rcases exponent with rfl | exponent
    · rw [List.append_nil]
      exact ⟨.r2, .inl rfl, second⟩
    · exact ⟨.x3, .inr rfl, second.trans (takes_exponent (.inl ⟨rfl, rfl⟩) exponent)⟩
  · rw [intState, if_neg other] at first
    exact ⟨.x3, .inr rfl, first.trans (takes_exponent (.inr rfl) exponent)⟩

end

/-! ## Values -/

section

variable {cfg : Config} {es : List Event} {sv st : St} {stk : List Mode} {key : Bool}

/-- Where a value may begin: at the start of the text only an array or an object. -/
def Opens (st : St) (t : Tree) : Prop := st = .v ∨ st = .a ∨ (st = .go ∧ t.IsStructure)

theorem Opens.inside {t : Tree} (opens : Opens st t) (scalar : ¬ t.IsStructure) : st = .v ∨ st = .a := by
  rcases opens with v | a | ⟨-, structure_⟩
  · exact .inl v
  · exact .inr a
  · exact absurd structure_ scalar

theorem Opens.array {t : Tree} (opens : Opens st t) :
    putChar cfg unbounded collect (conf es st sv false 0 .none stk []) 91#8 =
      .ok (conf (es ++ [⟨.arrayBegin, []⟩]) .a sv false 0 .none (.array :: stk) []) := by
  rcases opens with rfl | rfl | ⟨rfl, -⟩ <;> rfl

theorem Opens.object {t : Tree} (opens : Opens st t) :
    putChar cfg unbounded collect (conf es st sv false 0 .none stk []) 123#8 =
      .ok (conf (es ++ [⟨.objectBegin, []⟩]) .o sv true 0 .none (.object :: stk) []) := by
  rcases opens with rfl | rfl | ⟨rfl, -⟩ <;> rfl

/-- A string in quotation marks, as a value. -/
theorem takes_string (opens : st = .v ∨ st = .a) {t s : Bytes} (h : Str t s) :
    Takes cfg (conf es st sv false 0 .none stk []) (34#8 :: (t ++ [34#8]))
      (conf (es ++ [⟨.string, s⟩]) .ok sv false 0 .none stk []) := by
  have mark : putChar cfg unbounded collect (conf es st sv false 0 .none stk []) 34#8 =
      .ok (inString es sv false stk []) := by
    rcases opens with rfl | rfl <;> rfl
  exact .cons mark ((takes_str h).trans (.one rfl))

/-- The same as a name, with the colon. -/
theorem takes_name (opens : st = .o ∨ st = .k) {k s w : Bytes} (h : Str k s) (space : Space w) :
    Takes cfg (conf es st sv true 0 .none stk []) (34#8 :: (k ++ 34#8 :: (w ++ [58#8])))
      (conf (es ++ [⟨.key, s⟩]) .v sv false 0 .none stk []) := by
  have mark : putChar cfg unbounded collect (conf es st sv true 0 .none stk []) 34#8 =
      .ok (inString es sv true stk []) := by
    rcases opens with rfl | rfl <;> rfl
  have blanks : Takes cfg (conf (es ++ [⟨.key, s⟩]) .co sv false 0 .none stk []) w
      (conf (es ++ [⟨.key, s⟩]) .co sv false 0 .none stk []) := takes_space rfl space
  exact .cons mark ((takes_str h).trans (.cons rfl (blanks.trans (.one rfl))))

/-- The reader has taken a text and a value has ended. -/
abbrev TakesValue (cfg : Config) (p : Reader) (s : Bytes) (es : List Event) (sv : St)
    (stk : List Mode) : Prop := ∃ q, Takes cfg p s q ∧ Ended es sv stk q

theorem TakesValue.space {p : Reader} {s w : Bytes} (h : TakesValue cfg p s es sv stk)
    (space : Space w) : TakesValue cfg p (s ++ w) es sv stk := by
  obtain ⟨q, taken, ended⟩ := h
  obtain ⟨q', blanks, ended'⟩ := ended.space space
  exact ⟨q', taken.trans blanks, ended'⟩

theorem TakesValue.after {p q : Reader} {s s' : Bytes} (first : Takes cfg p s q)
    (h : TakesValue cfg q s' es sv stk) : TakesValue cfg p (s ++ s') es sv stk := by
  obtain ⟨r, taken, ended⟩ := h
  exact ⟨r, first.trans taken, ended⟩

/-- The value that is pending. -/
theorem TakesValue.pending {p : Reader} {s buf : Bytes} {type : JsonType} (ended : st.ended = true)
    (data : type.isData = true) (h : Takes cfg p s (conf es st sv false 0 type stk buf)) :
    TakesValue cfg p s (es ++ [⟨type, buf⟩]) sv stk := by
  refine ⟨_, h, st, type, buf, es, ended, rfl, ?_⟩
  rw [Libjson.pending, if_pos data]

theorem takes_literals (opens : st = .v ∨ st = .a) :
    Takes cfg (conf es st sv false 0 .none stk []) [110#8, 117#8, 108#8, 108#8]
        (conf es .ok sv false 0 .litNull stk []) ∧
      Takes cfg (conf es st sv false 0 .none stk []) [116#8, 114#8, 117#8, 101#8]
        (conf es .ok sv false 0 .litTrue stk []) ∧
      Takes cfg (conf es st sv false 0 .none stk []) [102#8, 97#8, 108#8, 115#8, 101#8]
        (conf es .ok sv false 0 .litFalse stk []) := by
  rcases opens with rfl | rfl <;> exact ⟨rfl, rfl, rfl⟩

/-- Behind a value of an array the next one or the end, behind one of an object a name or the end. -/
theorem TakesValue.comma {p q : Reader} {s s' : Bytes} {es' : List Event} {stk' : List Mode}
    (h : TakesValue cfg p s es sv stk)
    (comma : ∀ r, Ended es sv stk r → putChar cfg unbounded collect r 44#8 = .ok q)
    (rest : TakesValue cfg q s' es' sv stk') : TakesValue cfg p (s ++ 44#8 :: s') es' sv stk' := by
  obtain ⟨r, taken, ended⟩ := h
  obtain ⟨r', taken', ended'⟩ := rest
  exact ⟨r', taken.trans (.cons (comma r ended) taken'), ended'⟩

theorem TakesValue.close {p : Reader} {s : Bytes} {b : Byte} {e : Event} {m : Mode}
    (h : TakesValue cfg p s es sv (m :: stk))
    (close : ∀ r, Ended es sv (m :: stk) r →
      ∃ q, putChar cfg unbounded collect r b = .ok q ∧ Ended (es ++ [e]) sv stk q) :
    TakesValue cfg p (s ++ [b]) (es ++ [e]) sv stk := by
  obtain ⟨r, taken, ended⟩ := h
  obtain ⟨q, closed, ended'⟩ := close r ended
  exact ⟨q, taken.trans (.one closed), ended'⟩

/-- An array or an object without anything in it. -/
theorem takes_empty_array {w : Bytes} (space : Space w) :
    TakesValue cfg (conf es .a sv false 0 .none (.array :: stk) []) (w ++ [93#8])
      (es ++ [⟨.arrayEnd, []⟩]) sv stk := by
  have last : putChar cfg unbounded collect (conf es .a sv false 0 .none (.array :: stk) []) 93#8 =
      .ok (conf (es ++ [⟨.arrayEnd, []⟩]) .ok sv false 0 .none stk []) := rfl
  exact ⟨_, (takes_space rfl space).trans (.one last), ended_none _ sv stk⟩

theorem takes_empty_object {w : Bytes} (space : Space w) :
    TakesValue cfg (conf es .o sv true 0 .none (.object :: stk) []) (w ++ [125#8])
      (es ++ [⟨.objectEnd, []⟩]) sv stk := by
  have last : putChar cfg unbounded collect (conf es .o sv true 0 .none (.object :: stk) []) 125#8 =
      .ok (conf (es ++ [⟨.objectEnd, []⟩]) .ok sv false 0 .none stk []) := rfl
  exact ⟨_, (takes_space rfl space).trans (.one last), ended_none _ sv stk⟩

/-- A bracket, and the array or the object behind it. -/
theorem TakesValue.enclosed {p q : Reader} {b : Byte} {s : Bytes} {e : Event} {inner : List Event}
    (first : putChar cfg unbounded collect p b = .ok q)
    (h : TakesValue cfg q s (es ++ [e] ++ inner) sv stk) :
    TakesValue cfg p (b :: s) (es ++ e :: inner) sv stk := by
  obtain ⟨r, taken, ended⟩ := h
  rw [List.append_assoc] at ended
  exact ⟨r, .cons first taken, ended⟩

/-- A name and a colon, and the value behind them. -/
theorem takes_member (opens : st = .o ∨ st = .k) {w k s w' w₁ rest : Bytes} {es' : List Event}
    (before : Space w) (name : Str k s) (colon : Space w') (before' : Space w₁)
    (h : TakesValue cfg (conf (es ++ [⟨.key, s⟩]) .v sv false 0 .none stk []) rest es' sv stk) :
    TakesValue cfg (conf es st sv true 0 .none stk [])
      (w ++ 34#8 :: (k ++ 34#8 :: (w' ++ 58#8 :: (w₁ ++ rest)))) es' sv stk := by
  have waits : st.waits = true := by
    rcases opens with rfl | rfl <;> rfl
  have valued := TakesValue.after (takes_space rfl before') h
  have named := TakesValue.after (takes_name opens name colon) valued
  have spaced := TakesValue.after (takes_space waits before) named
  simpa only [List.cons_append, List.append_assoc, List.nil_append] using spaced

mutual

/-- **The text of a value.** -/
theorem takes_value {s : Bytes} {t : Tree} (h : Value s t) (es : List Event) (stk : List Mode)
    {st : St} (opens : Opens st t) :
    TakesValue cfg (conf es st sv false 0 .none stk []) s (es ++ t.events) sv stk := by
  cases h with
  | litNull => exact .pending rfl rfl (takes_literals (opens.inside id)).1
  | litTrue => exact .pending rfl rfl (takes_literals (opens.inside id)).2.1
  | litFalse => exact .pending rfl rfl (takes_literals (opens.inside id)).2.2
  | int h =>
    obtain ⟨sign, int, signed, whole, rfl⟩ := h
    refine .pending ?_ rfl (takes_int (opens.inside id) signed whole)
    unfold intState
    split <;> rfl
  | float h =>
    obtain ⟨st', last, taken⟩ := takes_float (opens.inside id) h
    refine .pending ?_ rfl taken
    rcases last with rfl | rfl <;> rfl
  | str h => exact ⟨_, takes_string (opens.inside id) h, ended_none _ sv stk⟩
  | emptyArray space => exact .enclosed opens.array (takes_empty_array space)
  | @array bs ts items =>
    have inside := takes_items items (es ++ [⟨.arrayBegin, []⟩]) stk (.inr rfl)
    have closed := inside.close fun r ended => ended.close_array
    rw [List.append_assoc _ (itemEvents ts)] at closed
    exact .enclosed opens.array closed
  | emptyObject space => exact .enclosed opens.object (takes_empty_object space)
  | @object bs ms members =>
    have inside := takes_members members (es ++ [⟨.objectBegin, []⟩]) stk (.inl rfl)
    have closed := inside.close fun r ended => ended.close_object
    rw [List.append_assoc _ (memberEvents ms)] at closed
    exact .enclosed opens.object closed

theorem takes_items {s : Bytes} {ts : List Tree} (h : Items s ts) (es : List Event) (stk : List Mode)
    {st : St} (opens : st = .v ∨ st = .a) :
    TakesValue cfg (conf es st sv false 0 .none (.array :: stk) []) s (es ++ itemEvents ts) sv
      (.array :: stk) := by
  have waits : st.waits = true := by
    rcases opens with rfl | rfl <;> rfl
  cases h with
  | @one w v w' t before value after =>
    have opens' : Opens st t := opens.imp_right .inl
    have first := (takes_value value es (.array :: stk) opens').space after
    rw [itemEvents, itemEvents, List.append_nil]
    exact .after (takes_space waits before) first
  | @more w v w' t bs ts before value after rest =>
    have opens' : Opens st t := opens.imp_right .inl
    have first := (takes_value value es (.array :: stk) opens').space after
    have others := takes_items rest (es ++ t.events) stk (.inl rfl)
    have both := first.comma (fun r ended => ended.comma_array) others
    rw [List.append_assoc, List.append_assoc] at both
    exact .after (takes_space waits before) both

theorem takes_members {s : Bytes} {ms : List (Bytes × Tree)} (h : Members s ms) (es : List Event)
    (stk : List Mode) {st : St} (opens : st = .o ∨ st = .k) :
    TakesValue cfg (conf es st sv true 0 .none (.object :: stk) []) s (es ++ memberEvents ms) sv
      (.object :: stk) := by
  cases h with
  | @one w k s w' w₁ v w₁' t before name colon before' value after =>
    have first := (takes_value value (es ++ [⟨.key, s⟩]) (.object :: stk) (.inl rfl)).space after
    rw [memberEvents, memberEvents, List.append_nil, List.append_cons es]
    exact takes_member opens before name colon before' first
  | @more w k s w' w₁ v w₁' t bs ms before name colon before' value after rest =>
    have first := (takes_value value (es ++ [⟨.key, s⟩]) (.object :: stk) (.inl rfl)).space after
    have others := takes_members rest (es ++ [⟨.key, s⟩] ++ t.events) stk (.inr rfl)
    have both := first.comma (fun r ended => ended.comma_object) others
    rw [List.append_assoc, List.append_assoc] at both
    rw [memberEvents, List.append_cons es]
    exact takes_member opens before name colon before' both

end

/-- **Every text of the dialect is read, and the callback gets the events of its tree.** The configuration
does not matter. -/
theorem takes_document (cfg : Config) {s : Bytes} {t : Tree} (h : Document s t) :
    ∃ q, reads cfg reader s = .ok q ∧ Ended t.events .go [] q := by
  obtain ⟨structure_, w, v, w', before, value, after, rfl⟩ := h
  have first : TakesValue cfg (conf [] .go .go false 0 .none [] []) (v ++ w') ([] ++ t.events) .go [] :=
    (takes_value value [] [] (.inr (.inr ⟨rfl, structure_⟩))).space after
  exact TakesValue.after (takes_space rfl before) first

end

end SpiderFrame.Libjson
