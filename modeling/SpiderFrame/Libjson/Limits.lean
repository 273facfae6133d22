import SpiderFrame.Base.Checked
import SpiderFrame.Libjson.Pieces

/-!
# The memory of the parser

Before a mode or a byte is put, `state_grow` and `buffer_grow` have made room for it, and the buffer keeps
room for the NUL. `Fits` says so for a parser. Sizes double in 32 bits, so the text has to be shorter than
2 GiB. Where no limit is set and no memory is refused, the parser stops for errors of the text only, or for
those of its callback.
-/

namespace SpiderFrame.Libjson
open SpiderFrame.Base

/-- The hexadecimal digits in the buffer that `decode_unicode_char` will look at. -/
def St.digitsRead : St → Nat
  | .u2 => 1
  | .u3 => 2
  | .u4 => 3
  | _ => 0

/-- What is in the stack and in the buffer fits in there, with a NUL behind it; there are at most `i`
modes and `j` bytes. If memory is `granted`, no limit is set and `realloc` does not fail. -/
structure Room (granted : Prop) (cfg : Config) (i j : Nat) (m : Sizes) (modes bytes : Nat) : Prop where
  stack : modes ≤ m.stackSize ∧ 0 < m.stackSize
  buffer : bytes + 1 ≤ m.bufferSize
  read : modes ≤ i ∧ bytes ≤ j
  nesting : 0 < cfg.maxNesting → m.stackSize = cfg.maxNesting
  data : 0 < cfg.maxData → m.bufferSize ≤ cfg.maxData
  grants : granted → cfg.maxNesting = 0 ∧ cfg.maxData = 0 ∧ ∀ a ∈ m.answers, a = true

section Rooms

variable {granted : Prop} {cfg : Config} {i j modes bytes : Nat} {m m' : Sizes}

theorem Room.later (h : Room granted cfg i j m modes bytes) : Room granted cfg (i + 1) j m modes bytes :=
  { h with read := ⟨Nat.le_succ_of_le h.read.1, h.read.2⟩ }

theorem Room.fewer (h : Room granted cfg i j m modes bytes) {modes' bytes' : Nat} (le : modes' ≤ modes)
    (le' : bytes' ≤ bytes) : Room granted cfg i j m modes' bytes' :=
  { h with
    stack := ⟨Nat.le_trans le h.stack.1, h.stack.2⟩
    buffer := Nat.le_trans (Nat.succ_le_succ le') h.buffer
    read := ⟨Nat.le_trans le h.read.1, Nat.le_trans le' h.read.2⟩ }

/-- Doubling a size of less than 2 GiB. -/
theorem double_lt {size : Nat} (short : size < 2 ^ 31) : size * 2 % 2 ^ 32 = size * 2 :=
  Nat.mod_eq_of_lt (by omega)

/-- A refusal of `realloc` is not among granted answers. -/
theorem realloc_grants {size : Nat} (pos : size ≠ 0) (all : ∀ a ∈ m.answers, a = true) :
    (m.realloc size).1 = true ∧ ∀ a ∈ (m.realloc size).2.answers, a = true := by
  refine ⟨?_, fun a inside => all a (List.mem_of_mem_tail inside)⟩
  unfold Sizes.realloc
  rw [decide_eq_true pos, Bool.true_and]
  cases answers : m.answers with
  | nil => rfl
  | cons a as => exact all a (answers ▸ List.mem_cons_self)

/-- **Room for one more mode.** -/
theorem Room.push {E : JsonError → Prop} (h : Room granted cfg i j m modes bytes) (short : i < 2 ^ 31)
    (memory : ¬ granted → ∀ e, e.ofMemory = true → E e) :
    Meets (fun m' => Room granted cfg (i + 1) j m' (modes + 1) bytes) E ((growth cfg).stack m modes) := by
  obtain ⟨⟨stack, pos⟩, buffer, ⟨modesRead, bytesRead⟩, nesting, data, grants⟩ := h
  unfold growth
  dsimp only
  split
  · rename_i full
    unfold stateGrow
    rw [double_lt (by omega)]
    dsimp only
    split
    · rename_i limited
      exact .error (memory (fun yes => limited (grants yes).1) _ rfl)
    · rename_i unlimited
      have answers := fun yes => realloc_grants (show m.stackSize * 2 ≠ 0 by omega) (grants yes).2.2
      cases asked : m.realloc (m.stackSize * 2) with
      | mk given m₁ =>
        rw [asked] at answers
        obtain rfl : m₁ = { m with answers := m.answers.tail } := (Prod.mk.inj asked).2.symm
        cases given with
        | false => exact .error (memory (fun yes => nomatch (answers yes).1) _ rfl)
        | true =>
          refine .ok ⟨⟨?_, ?_⟩, buffer, ⟨by omega, by omega⟩, ?_, data,
            fun yes => ⟨(grants yes).1, (grants yes).2.1, (answers yes).2⟩⟩
          · dsimp only
            omega
          · dsimp only
            omega
          · intro limited
            omega
  · exact .ok ⟨⟨by omega, pos⟩, buffer, ⟨by omega, by omega⟩, nesting, data, grants⟩

/-- **Room for one more byte.** -/
theorem Room.put {E : JsonError → Prop} (h : Room granted cfg i j m modes bytes) (short : j + 1 < 2 ^ 31)
    (memory : ¬ granted → ∀ e, e.ofMemory = true → E e) :
    Meets (fun m' => Room granted cfg i (j + 1) m' modes (bytes + 1)) E ((growth cfg).buffer m bytes) := by
  obtain ⟨⟨stack, pos⟩, buffer, ⟨modesRead, bytesRead⟩, nesting, data, grants⟩ := h
  unfold growth
  dsimp only
  split
  · rename_i full
    unfold bufferGrow
    rw [double_lt (by omega)]
    dsimp only
    split
    · rename_i limited
      exact .error (memory (fun yes => absurd (grants yes).2.1 (Nat.ne_of_gt limited.1)) _ rfl)
    · rename_i below
      generalize size : (if cfg.maxData > 0 ∧ m.bufferSize * 2 > cfg.maxData then cfg.maxData
        else m.bufferSize * 2) = newsize
      have enough : bytes + 2 ≤ newsize ∧ (0 < cfg.maxData → newsize ≤ cfg.maxData) := by
        rw [← size]
        constructor
        · split <;> omega
        · intro limited
          have most := data limited
          split <;> omega
      have answers := fun yes => realloc_grants (show newsize ≠ 0 by omega) (grants yes).2.2
      cases asked : m.realloc newsize with
      | mk given m₁ =>
        rw [asked] at answers
        obtain rfl : m₁ = { m with answers := m.answers.tail } := (Prod.mk.inj asked).2.symm
        cases given with
        | false => exact .error (memory (fun yes => nomatch (answers yes).1) _ rfl)
        | true =>
          exact .ok ⟨⟨stack, pos⟩, enough.1, ⟨by omega, by omega⟩, nesting, enough.2,
            fun yes => ⟨(grants yes).1, (grants yes).2.1, (answers yes).2⟩⟩
  · exact .ok ⟨⟨stack, pos⟩, by omega, ⟨by omega, by omega⟩, nesting, data, grants⟩

/-- What `state_grow` fails with. -/
theorem growth_stack (cfg : Config) (m : Sizes) (n : Nat) :
    Meets (fun _ => True) (fun e => e.ofMemory = true) ((growth cfg).stack m n) := by
  unfold growth stateGrow
  dsimp only
  split
  · split
    · exact .error rfl
    · split
      · exact .ok trivial
      · exact .error rfl
  · exact .ok trivial

/-- What `buffer_grow` fails with. -/
theorem growth_buffer (cfg : Config) (m : Sizes) (n : Nat) :
    Meets (fun _ => True) (fun e => e.ofMemory = true) ((growth cfg).buffer m n) := by
  unfold growth bufferGrow
  dsimp only
  split
  · split
    · exact .error rfl
    · split
      · exact .ok trivial
      · exact .error rfl
  · exact .ok trivial

end Rooms

/-- The errors that a parser with this callback stops with. -/
structure Failures {σ : Type} (granted : Prop) (cb : σ → Event → Except JsonError σ)
    (E : JsonError → Prop) : Prop where
  text : ∀ e, e.ofText = true → E e
  memory : ¬ granted → ∀ e, e.ofMemory = true → E e
  callback : ∀ u ev e, cb u ev = .error e → E e

section Parsers

variable {σ : Type} {granted : Prop} {cfg : Config} {cb : σ → Event → Except JsonError σ}
  {E : JsonError → Prop} {i j : Nat} {p : Parser Sizes σ}

/-- What the parser holds fits in its memory. -/
def Parser.Fits (granted : Prop) (cfg : Config) (i j : Nat) (p : Parser Sizes σ) : Prop :=
  Room granted cfg i j p.memory p.stack.length p.buffer.length

/-- The same after a callback. -/
theorem doCallback_same (fails : Failures granted cb E) (p : Parser Sizes σ) (type : JsonType)
    (data : List Byte) :
    Meets (fun q => q.memory = p.memory ∧ q.stack = p.stack ∧ q.buffer = p.buffer ∧
      q.state = p.state) E (doCallback cb p type data) := by
  unfold doCallback
  cases told : cb p.userdata ⟨type, data⟩ with
  | error e => exact .error (fails.callback _ _ e told)
  | ok u => exact .ok ⟨rfl, rfl, rfl, rfl⟩

theorem Fits.doCallback (fails : Failures granted cb E) (h : p.Fits granted cfg i j) (type : JsonType)
    (data : List Byte) : Meets (Parser.Fits granted cfg i j) E (doCallback cb p type data) := by
  refine (doCallback_same fails p type data).mono fun q same => ?_
  unfold Parser.Fits
  rw [same.1, same.2.1, same.2.2.1]
  exact h

theorem Fits.doBuffer (fails : Failures granted cb E) (h : p.Fits granted cfg i j) :
    Meets (Parser.Fits granted cfg i j) E (doBuffer cb p) := by
  unfold Libjson.doBuffer
  split
  · exact (Fits.doCallback fails h _ _).map fun q fits => fits.fewer (Nat.le_refl _) (Nat.zero_le _)
  · exact .ok (h.fewer (Nat.le_refl _) (Nat.zero_le _))

theorem Fits.statePush (fails : Failures granted cb E) (h : p.Fits granted cfg i j) (short : i < 2 ^ 31)
    (mode : Mode) :
    Meets (Parser.Fits granted cfg (i + 1) j) E (statePush (growth cfg) p mode) := by
  unfold Libjson.statePush
  exact (h.push short fails.memory).map fun m room => room

theorem Fits.statePop (fails : Failures granted cb E) (h : p.Fits granted cfg i j) (mode : Mode) :
    Meets (Parser.Fits granted cfg i j) E (statePop p mode) := by
  unfold Libjson.statePop
  split
  · exact .error (fails.text _ rfl)
  · rename_i m stack held
    split
    · refine .ok (h.fewer ?_ (Nat.le_refl _))
      rw [held]
      exact Nat.le_succ _
    · exact .error (fails.text _ rfl)

/-- **A character in place of its four digits is not longer.** -/
theorem decodeUnicodeChar_length (fails : Failures granted cb E) (p : Parser Sizes σ)
    (four : 4 ≤ p.buffer.length) :
    Meets (fun q => q.memory = p.memory ∧ q.stack = p.stack ∧ q.buffer.length ≤ p.buffer.length) E
      (decodeUnicodeChar p) := by
  have kept : ∀ bytes : List Byte, bytes.length ≤ 4 →
      (p.buffer.take (p.buffer.length - 4) ++ bytes).length ≤ p.buffer.length := by
    intro bytes le
    rw [List.length_append, List.length_take]
    omega
  unfold decodeUnicodeChar
  dsimp only
  split
  · exact .ok ⟨rfl, rfl, kept _ (Nat.le_of_ble_eq_true rfl)⟩
  · split
    · split
      · exact .error (fails.text _ rfl)
      · exact .ok ⟨rfl, rfl, kept _ (Nat.le_refl _)⟩
    · split
      · exact .error (fails.text _ rfl)
      · split
        · refine .ok ⟨rfl, rfl, ?_⟩
          have none_ := kept [] (Nat.zero_le _)
          rwa [List.append_nil] at none_
        · split
          · exact .ok ⟨rfl, rfl, kept _ (Nat.le_of_ble_eq_true rfl)⟩
          · exact .ok ⟨rfl, rfl, kept _ (Nat.le_of_ble_eq_true rfl)⟩

/-- **An action.** -/
theorem Fits.call (fails : Failures granted cb E) (h : p.Fits granted cfg i j) (short : i < 2 ^ 31)
    (act : Act) (four : act = .uc → 4 ≤ p.buffer.length) :
    Meets (Parser.Fits granted cfg (i + 1) j) E (call cfg (growth cfg) cb p act) := by
  cases act
  case ks | fa | tr | nu | de | df | mx | zx | ix => exact .ok h.later
  case sp =>
    refine (Fits.doBuffer fails h).bind fun q fits => ?_
    unfold actSp
    split
    · exact .error (fails.text _ rfl)
    · exact .ok fits.later
    · exact .ok fits.later
  case ab =>
    unfold Libjson.call actAb
    exact (Fits.doCallback fails h _ _).bind fun q fits => Fits.statePush fails fits short _
  case ae =>
    refine (Fits.doBuffer fails h).bind fun q fits => (Fits.statePop fails fits _).bind fun q fits => ?_
    exact (Fits.doCallback fails fits _ _).mono fun q fits => fits.later
  case ob =>
    unfold Libjson.call actOb
    refine (Fits.doCallback fails h _ _).bind fun q fits => ?_
    exact (Fits.statePush fails fits short _).bind fun q fits => .ok fits
  case oe =>
    refine (Fits.doBuffer fails h).bind fun q fits => (Fits.statePop fails fits _).bind fun q fits => ?_
    exact (Fits.doCallback fails fits _ _).bind fun q fits => .ok fits.later
  case cb =>
    refine (Fits.doBuffer fails h).bind fun q fits => ?_
    unfold actCb
    split
    · exact .ok fits.later
    · exact .error (fails.text _ rfl)
  case yb =>
    refine (Fits.doBuffer fails h).bind fun q fits => ?_
    unfold actYb
    split
    · exact .ok fits.later
    · exact .error (fails.text _ rfl)
  case ce => exact .ok h.later
  case se =>
    refine (Fits.doCallback fails h _ _).map fun q fits => ?_
    exact fits.later.fewer (Nat.le_refl _) (Nat.zero_le _)
  case uc =>
    refine (decodeUnicodeChar_length fails p (four rfl)).map fun q same => ?_
    unfold Parser.Fits
    dsimp only
    rw [same.1, same.2.1]
    exact h.later.fewer (Nat.le_refl _) same.2.2

/-- The hexadecimal digits before the fourth were put one after the other. -/
def digitsKept (st : St) (cls : Cls) : Bool :=
  match transition st cls with
  | .goto st' =>
    decide (st'.digitsRead ≤ st.digitsRead + if bufferPolicy st cls = .ignore then 0 else 1)
  | .act .uc => st.digitsRead = 3 && bufferPolicy st cls = .append
  | _ => true

theorem digits_kept : ∀ st cls, digitsKept st cls = true := by decide +kernel

/-- What a byte does to the buffer. -/
theorem Fits.keep (fails : Failures granted cb E) (h : p.Fits granted cfg i j) (short : j + 1 < 2 ^ 31)
    (ch : Byte) (policy : Policy) :
    Meets (fun q => q.Fits granted cfg i (j + 1) ∧ q.state = p.state ∧
      q.buffer.length = p.buffer.length + if policy = .ignore then 0 else 1) E
      (keep (growth cfg) p ch policy) := by
  have put : ∀ c : Byte, Meets (fun q => q.Fits granted cfg i (j + 1) ∧ q.state = p.state ∧
      q.buffer.length = p.buffer.length + 1) E (bufferPush (growth cfg) p c) := by
    intro c
    unfold bufferPush
    refine (h.put short fails.memory).map fun m room => ⟨?_, rfl, List.length_append⟩
    unfold Parser.Fits
    rw [List.length_append]
    exact room
  cases policy with
  | ignore => exact .ok ⟨{ h with read := ⟨h.read.1, Nat.le_succ_of_le h.read.2⟩ }, rfl, rfl⟩
  | append => exact put ch
  | escape => exact put _

/-- No action leaves the parser between two digits. -/
theorem call_state (p : Parser Sizes σ) (act : Act) :
    Meets (fun q => (act.state.getD q.state).digitsRead = 0) (fun _ => True)
      (call cfg (growth cfg) cb p act) := by
  cases act
  case sp =>
    refine (Meets.any (doBuffer cb p)).bind fun q _ => ?_
    unfold actSp
    split
    · exact .error trivial
    · exact .ok rfl
    · exact .ok rfl
  case ce =>
    refine .ok ?_
    change (if p.saveState.atMostA then p.saveState else St.ok).digitsRead = 0
    cases p.saveState <;> rfl
  case se =>
    refine (Meets.any (doCallback cb p (if p.expectingKey then .key else .string) p.buffer)).map
      fun q _ => ?_
    change (if q.expectingKey then St.co else St.ok).digitsRead = 0
    split <;> rfl
  case uc =>
    refine (Meets.any (decodeUnicodeChar p)).map fun q _ => ?_
    change (if q.unicodeMulti ≠ 0 then St.d1 else St.s).digitsRead = 0
    split <;> rfl
  all_goals exact (Meets.any _).mono fun q _ => rfl

/-- The parser has room, and the digits that it has counted. -/
def Parser.Safe (granted : Prop) (cfg : Config) (n : Nat) (p : Parser Sizes σ) : Prop :=
  p.Fits granted cfg n n ∧ p.state.digitsRead ≤ p.buffer.length

/-- The class of a byte, or an error of the text. -/
theorem nextClass_meets (fails : Failures granted cb E) (left : Nat) (ch : Byte) :
    Meets (fun _ => True) E (nextClass left ch) := by
  unfold nextClass
  split
  · split
    · exact .ok trivial
    · exact .error (fails.text _ rfl)
  · split
    · exact .error (fails.text _ rfl)
    · split
      · exact .ok trivial
      · exact .error (fails.text _ rfl)
    · exact .ok trivial

/-- **One byte.** -/
theorem Safe.putChar (fails : Failures granted cb E) {n : Nat} (h : p.Safe granted cfg n)
    (short : n + 1 < 2 ^ 31) (ch : Byte) :
    Meets (Parser.Safe granted cfg (n + 1)) E (putChar cfg (growth cfg) cb p ch) := by
  obtain ⟨fits, digits⟩ := h
  unfold Libjson.putChar
  refine (nextClass_meets fails p.utf8MultibyteLeft ch).bind fun next _ => ?_
  have rows := digits_kept p.state next.1
  unfold digitsKept at rows
  change Meets _ E (step cfg (growth cfg) cb { p with utf8MultibyteLeft := next.2 } ch next.1)
  have fits' : Parser.Fits granted cfg n n { p with utf8MultibyteLeft := next.2 } := fits
  cases entry : transition p.state next.1 with
  | error =>
    rw [step_error cfg (growth cfg) cb (p := { p with utf8MultibyteLeft := next.2 }) entry]
    exact .error (fails.text _ rfl)
  | goto st =>
    rw [step_goto cfg (growth cfg) cb (p := { p with utf8MultibyteLeft := next.2 }) entry]
    rw [entry] at rows
    refine (Fits.keep fails fits' short ch _).map fun q kept => ⟨kept.1.later, ?_⟩
    have enough := of_decide_eq_true rows
    have length := kept.2.2
    dsimp only at length ⊢
    omega
  | act act =>
    rw [step_act cfg (growth cfg) cb (p := { p with utf8MultibyteLeft := next.2 }) entry]
    rw [entry] at rows
    refine (Fits.keep fails fits' short ch _).bind fun q kept => ?_
    have four : act = .uc → 4 ≤ q.buffer.length := by
      rintro rfl
      rw [Bool.and_eq_true, decide_eq_true_eq, decide_eq_true_eq] at rows
      have length := kept.2.2
      dsimp only at length
      rw [rows.2] at length
      have three := rows.1
      rw [length, if_neg (by decide)]
      omega
    have called : Meets (Parser.Fits granted cfg (n + 1) (n + 1)) E
        (Libjson.call cfg (growth cfg) cb q act) :=
      Fits.call fails kept.1 (by omega) act four
    have state : Meets _ _ (Libjson.call cfg (growth cfg) cb q act) := call_state q act
    unfold doAction
    cases result : call cfg (growth cfg) cb q act with
    | error e => exact .error (called.failure result)
    | ok r =>
      have fits : r.Fits granted cfg (n + 1) (n + 1) := called.result result
      refine .ok ⟨fits, ?_⟩
      dsimp only
      rw [state.result result]
      exact Nat.zero_le _

theorem Safe.readBytes (fails : Failures granted cb E) {n : Nat} {s : List Byte}
    (h : p.Safe granted cfg n) (short : n + s.length < 2 ^ 31) :
    Meets (Parser.Safe granted cfg (n + s.length)) E (readBytes cfg (growth cfg) cb p s) := by
  induction s generalizing p n with
  | nil => exact .ok h
  | cons b s ih =>
    rw [List.length_cons] at short
    rw [readBytes_cons, List.length_cons]
    refine (Safe.putChar fails h (by omega) b).bind fun q safe => ?_
    have rest := ih safe (by omega)
    rwa [Nat.add_assoc, Nat.add_comm 1] at rest

theorem initSizes_safe (cfg : Config) (u : σ) (answers : List Bool)
    (grants : granted → cfg.maxNesting = 0 ∧ cfg.maxData = 0 ∧ ∀ a ∈ answers, a = true) :
    (initial u (initSizes cfg answers)).Safe granted cfg 0 := by
  refine ⟨⟨?_, ?_, ⟨Nat.le_refl _, Nat.le_refl _⟩, ?_, ?_, grants⟩, Nat.le_refl _⟩
  · unfold initial initSizes
    dsimp only [List.length_nil]
    split <;> omega
  · unfold initial initSizes
    dsimp only [List.length_nil]
    split <;> split <;> omega
  · intro limited
    exact if_pos limited
  · intro limited
    unfold initial initSizes
    dsimp only
    split <;> split <;> omega

/-- The parser of `json_parser_init`. -/
theorem jsonParserInit_eq {u : σ} {answers : List Bool}
    (init : jsonParserInit cfg u answers = .ok p) :
    p = initial u (initSizes cfg answers.tail.tail) := by
  unfold jsonParserInit at init
  split at init
  · cases init
  · cases init
  · cases init
    rfl

/-- **The memory of the parser holds whatever it reads**, up to 2 GiB, cut into any pieces, with any
limits, any callback and any answers of `realloc`: the modes, the bytes with their NUL, and the four
digits of a character. The limits of the configuration hold as well. -/
theorem memory_suffices (cfg : Config) (cb : σ → Event → Except JsonError σ) (u : σ)
    (answers : List Bool) (p₀ : Parser Sizes σ) (init : jsonParserInit cfg u answers = .ok p₀)
    (s : List Byte) (short : s.length < 2 ^ 31) (p : Parser Sizes σ)
    (read : readBytes cfg (growth cfg) cb p₀ s = .ok p) :
    p.stack.length ≤ p.memory.stackSize ∧ p.buffer.length + 1 ≤ p.memory.bufferSize ∧
      (p.state = .u4 → 3 ≤ p.buffer.length) ∧
      (0 < cfg.maxNesting → p.stack.length ≤ cfg.maxNesting) ∧
      (0 < cfg.maxData → p.buffer.length + 1 ≤ cfg.maxData) := by
  obtain rfl := jsonParserInit_eq init
  have fails : Failures False cb fun _ => True :=
    ⟨fun _ _ => trivial, fun _ _ _ => trivial, fun _ _ _ _ => trivial⟩
  have start := initSizes_safe cfg u answers.tail.tail (fun no : False => no.elim)
  have safe : Meets _ _ (readBytes cfg (growth cfg) cb _ s) :=
    Safe.readBytes fails start (by omega : 0 + s.length < 2 ^ 31)
  obtain ⟨fits, digits⟩ := safe.result read
  refine ⟨fits.stack.1, fits.buffer, fun state => ?_, fun limited => ?_, fun limited => ?_⟩
  · rwa [state] at digits
  · rw [← fits.nesting limited]
    exact fits.stack.1
  · exact Nat.le_trans fits.buffer (fits.data limited)

theorem memory_suffices_bracket :
    ∃ p : Parser Sizes Nat, readBytes ⟨0, 2, 8, false, false⟩ (growth ⟨0, 2, 8, false, false⟩)
        (fun n _ => .ok (n + 1)) (initial 0 ⟨2, 8, []⟩) [91#8, 34#8, 97#8] = .ok p ∧
      p.stack.length ≤ p.memory.stackSize ∧ p.buffer.length + 1 ≤ p.memory.bufferSize := by
  have read : readBytes ⟨0, 2, 8, false, false⟩ (growth ⟨0, 2, 8, false, false⟩)
      (fun n _ => .ok (n + 1)) (initial 0 ⟨2, 8, []⟩) [91#8, 34#8, 97#8] =
      .ok ⟨1, .s, .go, false, 0, 0, .none, [.array], [97#8], ⟨2, 8, []⟩⟩ := rfl
  obtain ⟨stack, buffer, -⟩ := memory_suffices _ _ 0 [] _ rfl _ (by decide) _ read
  exact ⟨_, read, stack, buffer⟩

/-- No limits, and memory for all that is asked for. -/
structure Unlimited (cfg : Config) (answers : List Bool) : Prop where
  nesting : cfg.maxNesting = 0
  data : cfg.maxData = 0
  granted : ∀ a ∈ answers, a = true

theorem Unlimited.init {u : σ} {answers : List Bool} (unlimited : Unlimited cfg answers) :
    jsonParserInit cfg u answers = .ok (initial u (initSizes cfg answers.tail.tail)) := by
  unfold jsonParserInit
  split
  · exact nomatch unlimited.granted false List.mem_cons_self
  · exact nomatch unlimited.granted false (List.mem_cons_of_mem _ List.mem_cons_self)
  · rfl

/-- Then the parser stops with the errors of the text and of its callback only, up to 2 GiB. -/
theorem Unlimited.errors {u : σ} {answers : List Bool} {s : List Byte} {e : JsonError}
    (unlimited : Unlimited cfg answers) (short : s.length < 2 ^ 31)
    (stopped : readBytes cfg (growth cfg) cb (initial u (initSizes cfg answers.tail.tail)) s = .error e) :
    e.ofText = true ∨ ∃ u ev, cb u ev = .error e := by
  have fails : Failures True cb fun e => e.ofText = true ∨ ∃ u ev, cb u ev = .error e :=
    ⟨fun _ text => .inl text, fun no => absurd trivial no, fun u ev e told => .inr ⟨u, ev, told⟩⟩
  have granted : ∀ a ∈ answers.tail.tail, a = true := fun a inside =>
    unlimited.granted a (List.mem_of_mem_tail (List.mem_of_mem_tail inside))
  have start := initSizes_safe cfg u answers.tail.tail
    fun _ : True => ⟨unlimited.nesting, unlimited.data, granted⟩
  have safe : Meets _ _ (readBytes cfg (growth cfg) cb _ s) :=
    Safe.readBytes fails start (by omega : 0 + s.length < 2 ^ 31)
  exact safe.failure stopped

end Parsers

end SpiderFrame.Libjson
