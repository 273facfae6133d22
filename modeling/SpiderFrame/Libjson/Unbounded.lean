import SpiderFrame.Libjson.Callbacks

/-!
# The parser without limits

With memory without end and a callback that keeps what it gets, what the parser does follows from the
text alone (`Reader`). A parser with limits and any callback does the same, and its callback gets the
same events in turn, unless it stops with an error of its memory or of its callback.
-/

namespace SpiderFrame.Libjson
open SpiderFrame.Base

/-- Memory without end. -/
def unbounded : Growth Unit := ⟨fun _ _ => .ok (), fun _ _ => .ok ()⟩

/-- The callback that keeps what it gets. -/
def collect (es : List Event) (e : Event) : Except JsonError (List Event) := .ok (es ++ [e])

abbrev Reader := Parser Unit (List Event)

/-- The reader at the start of a text. -/
def reader : Reader := initial [] ()

/-- A parser that is where this one is, with another state of its callback and other memory. -/
def Parser.view {κ κ' σ τ : Type} (p : Parser κ σ) (v : τ) (m : κ') : Parser κ' τ :=
  ⟨v, p.state, p.saveState, p.expectingKey, p.utf8MultibyteLeft, p.unicodeMulti, p.type, p.stack,
    p.buffer, m⟩

section

variable {κ κ' σ τ : Type} {cfg : Config} {g : Growth κ} {g' : Growth κ'}
  {cb : σ → Event → Except JsonError σ} {cb' : τ → Event → Except JsonError τ}

/-! ## One parser follows another -/

/-- One callback follows the other, and one memory the other. -/
structure Simulates (own : JsonError → Prop) (M : κ → κ' → Prop) (R : σ → τ → Prop) (g : Growth κ)
    (g' : Growth κ') (cb : σ → Event → Except JsonError σ) (cb' : τ → Event → Except JsonError τ) : Prop where
  told : ∀ {u v} ev, R u v → Follows own R (cb u ev) (cb' v ev)
  stack : ∀ {m m'} n, M m m' → Follows own M (g.stack m n) (g'.stack m' n)
  buffer : ∀ {m m'} n, M m m' → Follows own M (g.buffer m n) (g'.buffer m' n)

/-- Two parsers at the same place of a text. -/
def Alike (M : κ → κ' → Prop) (R : σ → τ → Prop) (p : Parser κ σ) (q : Parser κ' τ) : Prop :=
  ∃ v m, q = p.view v m ∧ R p.userdata v ∧ M p.memory m

section

variable {own : JsonError → Prop} {M : κ → κ' → Prop} {R : σ → τ → Prop} {p : Parser κ σ} {q : Parser κ' τ}

theorem Simulates.doCallback (sim : Simulates own M R g g' cb cb') (h : Alike M R p q) (type : JsonType)
    (data : List Byte) :
    Follows own (Alike M R) (doCallback cb p type data) (doCallback cb' q type data) := by
  obtain ⟨v, m, rfl, related, room⟩ := h
  exact (sim.told ⟨type, data⟩ related).map fun u v' related => ⟨v', m, rfl, related, room⟩

theorem Simulates.statePush (sim : Simulates own M R g g' cb cb') (h : Alike M R p q) (mode : Mode) :
    Follows own (Alike M R) (statePush g p mode) (statePush g' q mode) := by
  obtain ⟨v, m, rfl, related, room⟩ := h
  exact (sim.stack p.stack.length room).map fun m₁ m₂ room => ⟨v, m₂, rfl, related, room⟩

theorem Simulates.bufferPush (sim : Simulates own M R g g' cb cb') (h : Alike M R p q) (c : Byte) :
    Follows own (Alike M R) (bufferPush g p c) (bufferPush g' q c) := by
  obtain ⟨v, m, rfl, related, room⟩ := h
  exact (sim.buffer p.buffer.length room).map fun m₁ m₂ room => ⟨v, m₂, rfl, related, room⟩

theorem Alike.statePop (h : Alike M R p q) {mode : Mode} :
    Follows own (Alike M R) (statePop p mode) (statePop q mode) := by
  obtain ⟨v, m, rfl, related, room⟩ := h
  unfold Libjson.statePop Parser.view
  dsimp only
  cases p.stack with
  | nil => exact .error _
  | cons top stack =>
    dsimp only
    by_cases same : top = mode
    · rw [if_pos same, if_pos same]
      exact .ok ⟨v, m, rfl, related, room⟩
    · rw [if_neg same, if_neg same]
      exact .error _

theorem Simulates.doBuffer (sim : Simulates own M R g g' cb cb') (h : Alike M R p q) :
    Follows own (Alike M R) (doBuffer cb p) (doBuffer cb' q) := by
  have types : q.type = p.type ∧ q.buffer = p.buffer := by
    obtain ⟨v, m, rfl, -, -⟩ := h
    exact ⟨rfl, rfl⟩
  have told := sim.doCallback h p.type p.buffer
  unfold Libjson.doBuffer
  rw [types.1, types.2]
  split
  · refine told.map fun a b alike => ?_
    obtain ⟨v, m, rfl, related, room⟩ := alike
    exact ⟨v, m, rfl, related, room⟩
  · obtain ⟨v, m, rfl, related, room⟩ := h
    exact .ok ⟨v, m, rfl, related, room⟩

theorem Alike.actUc (h : Alike M R p q) :
    Follows own (Alike M R) (actUc p) (actUc q) := by
  obtain ⟨v, m, rfl, related, room⟩ := h
  have decoded : Follows own (Alike M R) (decodeUnicodeChar p)
      (decodeUnicodeChar (p.view v m)) := by
    unfold decodeUnicodeChar Parser.view
    dsimp only
    split
    · exact .ok ⟨v, m, rfl, related, room⟩
    · split
      · split
        · exact .error _
        · exact .ok ⟨v, m, rfl, related, room⟩
      · split
        · exact .error _
        · split
          · exact .ok ⟨v, m, rfl, related, room⟩
          · split <;> exact .ok ⟨v, m, rfl, related, room⟩
  refine decoded.map fun a b alike => ?_
  obtain ⟨v, m, rfl, related, room⟩ := alike
  exact ⟨v, m, rfl, related, room⟩

theorem Simulates.call (sim : Simulates own M R g g' cb cb') (h : Alike M R p q) (act : Act) :
    Follows own (Alike M R) (call cfg g cb p act) (call cfg g' cb' q act) := by
  cases act
  case ks | fa | tr | nu | de | df | mx | zx | ix => exact .ok h
  case sp =>
    refine (sim.doBuffer h).bind fun a b ⟨v, m, same, related, room⟩ => ?_
    subst same
    unfold actSp Parser.view
    dsimp only
    split
    · exact .error _
    · exact .ok ⟨v, m, rfl, related, room⟩
    · exact .ok ⟨v, m, rfl, related, room⟩
  case ab => exact (sim.doCallback h _ _).bind fun a b alike => sim.statePush alike _
  case ae =>
    refine (sim.doBuffer h).bind fun a b alike => ?_
    exact alike.statePop.bind fun a b alike => sim.doCallback alike _ _
  case ob =>
    change Follows _ _ (actOb g cb p) (actOb g' cb' q)
    unfold actOb
    refine (sim.doCallback h .objectBegin []).bind fun a b alike => ?_
    refine (sim.statePush alike _).bind fun a b ⟨v, m, same, related, room⟩ => ?_
    subst same
    exact .ok ⟨v, m, rfl, related, room⟩
  case oe =>
    refine (sim.doBuffer h).bind fun a b alike => ?_
    refine alike.statePop.bind fun a b alike => ?_
    refine (sim.doCallback alike _ _).bind fun a b ⟨v, m, same, related, room⟩ => ?_
    subst same
    exact .ok ⟨v, m, rfl, related, room⟩
  case cb =>
    refine (sim.doBuffer h).bind fun a b ⟨v, m, same, related, room⟩ => ?_
    subst same
    unfold actCb
    split
    · exact .ok ⟨v, m, rfl, related, room⟩
    · exact .error _
  case yb =>
    refine (sim.doBuffer h).bind fun a b ⟨v, m, same, related, room⟩ => ?_
    subst same
    unfold actYb
    split
    · exact .ok ⟨v, m, rfl, related, room⟩
    · exact .error _
  case ce =>
    obtain ⟨v, m, rfl, related, room⟩ := h
    exact .ok ⟨v, m, rfl, related, room⟩
  case se =>
    have parts : q.expectingKey = p.expectingKey ∧ q.buffer = p.buffer := by
      obtain ⟨v, m, rfl, -, -⟩ := h
      exact ⟨rfl, rfl⟩
    change Follows _ _ (actSe cb p) (actSe cb' q)
    unfold actSe
    rw [parts.1, parts.2]
    refine (sim.doCallback h _ _).map fun a b alike => ?_
    obtain ⟨v, m, rfl, related, room⟩ := alike
    exact ⟨v, m, rfl, related, room⟩
  case uc => exact h.actUc

theorem Simulates.keep (sim : Simulates own M R g g' cb cb') (h : Alike M R p q) (ch : Byte) (policy : Policy) :
    Follows own (Alike M R) (keep g p ch policy) (keep g' q ch policy) := by
  cases policy with
  | ignore => exact .ok h
  | append => exact sim.bufferPush h ch
  | escape => exact sim.bufferPush h _

/-- **One byte.** -/
theorem Simulates.putChar (sim : Simulates own M R g g' cb cb') (h : Alike M R p q) (ch : Byte) :
    Follows own (Alike M R) (putChar cfg g cb p ch) (putChar cfg g' cb' q ch) := by
  obtain ⟨v, m, rfl, related, room⟩ := h
  unfold Libjson.putChar
  change Follows _ _ ((nextClass p.utf8MultibyteLeft ch).bind _)
    ((nextClass p.utf8MultibyteLeft ch).bind _)
  cases nextClass p.utf8MultibyteLeft ch with
  | error e => exact .error e
  | ok next =>
    obtain ⟨cls, left⟩ := next
    have same : Alike M R { p with utf8MultibyteLeft := left }
        (Parser.view { p with utf8MultibyteLeft := left } v m) := ⟨v, m, rfl, related, room⟩
    change Follows own (Alike M R)
      (step cfg g cb { p with utf8MultibyteLeft := left } ch cls)
      (step cfg g' cb' (Parser.view { p with utf8MultibyteLeft := left } v m) ch cls)
    cases entry : transition p.state cls with
    | error =>
      rw [step_error cfg g cb (p := { p with utf8MultibyteLeft := left }) entry,
        step_error cfg g' cb'
          (p := Parser.view { p with utf8MultibyteLeft := left } v m) entry]
      exact .error _
    | goto st =>
      rw [step_goto cfg g cb (p := { p with utf8MultibyteLeft := left }) entry,
        step_goto cfg g' cb'
          (p := Parser.view { p with utf8MultibyteLeft := left } v m) entry]
      refine (sim.keep same ch _).map fun a b alike => ?_
      obtain ⟨v, m, rfl, related, room⟩ := alike
      exact ⟨v, m, rfl, related, room⟩
    | act act =>
      rw [step_act cfg g cb (p := { p with utf8MultibyteLeft := left }) entry,
        step_act cfg g' cb'
          (p := Parser.view { p with utf8MultibyteLeft := left } v m) entry]
      refine (sim.keep same ch _).bind fun a b alike => ?_
      refine (sim.call alike act).map fun a b alike => ?_
      obtain ⟨v, m, rfl, related, room⟩ := alike
      exact ⟨v, m, rfl, related, room⟩

/-- **Two parsers read a text in step.** -/
theorem Simulates.readBytes (sim : Simulates own M R g g' cb cb') (cfg : Config) {u : σ} {v : τ} {m : κ}
    {r : κ'} (related : R u v) (room : M m r) (s : List Byte) :
    Follows own (Alike M R) (readBytes cfg g cb (initial u m) s) (readBytes cfg g' cb' (initial v r) s) :=
  Follows.foldlM (R := Alike M R) ⟨v, r, rfl, related, room⟩ (fun _ _ ch h => sim.putChar h ch) s

end

/-! ## The events of a text -/

/-- What the memory can come to. -/
inductive Growth.Reaches (g : Growth κ) (memory : κ) : κ → Prop
  | start : g.Reaches memory memory
  | stack {m m'} (n : Nat) (before : g.Reaches memory m) (answer : g.stack m n = .ok m') : g.Reaches memory m'
  | buffer {m m'} (n : Nat) (before : g.Reaches memory m) (answer : g.buffer m n = .ok m') : g.Reaches memory m'

/-- The memory, or a limit on it, answers so at some time. -/
def Refused (g : Growth κ) (memory : κ) (e : JsonError) : Prop :=
  ∃ m n, g.Reaches memory m ∧ (g.stack m n = .error e ∨ g.buffer m n = .error e)

/-- The errors of the memory, and those of the callback along some events. -/
def Own (g : Growth κ) (memory : κ) (cb : σ → Event → Except JsonError σ) (u : σ) (e : JsonError) : Prop :=
  Refused g memory e ∨ ∃ es : List Event, es.foldlM cb u = .error e

/-- The callback has got these events from `u₀` on. -/
def Seen (cb : σ → Event → Except JsonError σ) (u₀ : σ) (p : Parser κ σ) (q : Reader) : Prop :=
  ∃ es, q = p.view es () ∧ es.foldlM cb u₀ = .ok p.userdata

theorem Growth.Reaches.stack_follows {memory m : κ} (n : Nat) (reached : g.Reaches memory m) :
    Follows (Refused g memory) (fun m (_ : Unit) => g.Reaches memory m) (g.stack m n) (.ok ()) := by
  cases answer : g.stack m n with
  | error e => exact .inl ⟨m, n, reached, .inl answer⟩
  | ok m' => exact .ok (.stack n reached answer)

theorem Growth.Reaches.buffer_follows {memory m : κ} (n : Nat) (reached : g.Reaches memory m) :
    Follows (Refused g memory) (fun m (_ : Unit) => g.Reaches memory m) (g.buffer m n) (.ok ()) := by
  cases answer : g.buffer m n with
  | error e => exact .inl ⟨m, n, reached, .inr answer⟩
  | ok m' => exact .ok (.buffer n reached answer)

/-- The same callback, with and without limits. -/
theorem simulates_same (g : Growth κ) (memory : κ) (cb : σ → Event → Except JsonError σ) :
    Simulates (Refused g memory) (fun m _ => g.Reaches memory m) Eq g unbounded cb cb := by
  refine ⟨fun {u v} ev same => ?_, Growth.Reaches.stack_follows, Growth.Reaches.buffer_follows⟩
  subst same
  exact .same (cb u ev)

/-- Any callback, and the one that keeps what it gets. -/
theorem simulates_collect (g : Growth κ) (memory : κ) (cb : σ → Event → Except JsonError σ) (u₀ : σ) :
    Simulates (Own g memory cb u₀) (fun m _ => g.Reaches memory m) (fun u es => es.foldlM cb u₀ = .ok u) g
      unbounded cb collect := by
  refine ⟨fun {u es} ev seen => ?_, fun n reached => (reached.stack_follows n).weaken fun _ => .inl,
    fun n reached => (reached.buffer_follows n).weaken fun _ => .inl⟩
  have more : (es ++ [ev]).foldlM cb u₀ = cb u ev := by
    rw [List.foldlM_append, seen]
    change (cb u ev).bind pure = _
    cases cb u ev <;> rfl
  cases told : cb u ev with
  | error e => exact .inl (.inr ⟨es ++ [ev], more.trans told⟩)
  | ok u' => exact .ok (more.trans told)

theorem reads_as_unbounded (cfg : Config) (g : Growth κ) (cb : σ → Event → Except JsonError σ) (u : σ)
    (memory : κ) (s : List Byte) :
    Follows (Own g memory cb u) (Seen cb u) (readBytes cfg g cb (initial u memory) s)
      (readBytes cfg unbounded collect reader s) := by
  have follows := (simulates_collect g memory cb u).readBytes cfg (v := []) (r := ()) rfl .start s
  exact follows.mono fun p q ⟨es, _, same, seen, _⟩ => ⟨es, same, seen⟩

/-- **Once the text has been read to its end without limits, the callback's error is the one that it gives
along the events of the text.** -/
theorem error_of_events {u : σ} {memory : κ} {s : List Byte} {q : Reader} {e : JsonError}
    (read : readBytes cfg unbounded collect reader s = .ok q)
    (stopped : readBytes cfg g cb (initial u memory) s = .error e) :
    Refused g memory e ∨ q.userdata.foldlM cb u = .error e := by
  have same := (simulates_same g memory cb).readBytes cfg (u := u) (r := ()) rfl .start s
  rw [stopped] at same
  refine same.imp_right fun stopped => ?_
  have follows := reads_as_unbounded cfg unbounded (lifted cb) (.ok u) () s
  rw [read] at follows
  cases front : readBytes cfg unbounded (lifted cb) (initial (.ok u) ()) s with
  | error e' =>
    rw [front] at follows
    rcases follows with (⟨_, _, -, stack | buffer⟩ | ⟨es, told⟩) | other
    · cases stack
    · cases buffer
    · rw [foldlM_lifted] at told
      cases told
    · cases other
  | ok p =>
    rw [front] at follows
    obtain ⟨_, same, es, rfl, seen⟩ := follows
    obtain rfl := Except.ok.inj same
    rw [foldlM_lifted] at seen
    have run := lifts_readBytes s _ p front
    change readBytes cfg unbounded cb (initial u ()) s = p.dropped at run
    unfold Parser.dropped at run
    rw [← Except.ok.inj seen, stopped] at run
    change Except.error e = (es.foldlM cb u).map _ at run
    change es.foldlM cb u = _
    cases all : es.foldlM cb u with
    | error e' =>
      rw [all] at run
      cases run
      rfl
    | ok v =>
      rw [all] at run
      cases run

/-- **A parser with limits and any callback reads a file, in any pieces, as the parser without limits reads
the whole text**, and its callback gets the same events in turn, unless it stops with an error of its own. An
error that is not one of its memory is the one with which the parser without limits and the same callback
stops, and where the text can be read to its end it is the one that the callback gives along its events. -/
theorem file_as_unbounded (cfg : Config) (g : Growth κ) (cb : σ → Event → Except JsonError σ) (u : σ)
    (memory : κ) (pieces : List (List Byte)) :
    Follows (Own g memory cb u) (Seen cb u) (processFile cfg g cb (initial u memory) pieces).1
        (readBytes cfg unbounded collect reader pieces.flatten) ∧
      ∀ e, (processFile cfg g cb (initial u memory) pieces).1 = .error e → ¬ Refused g memory e →
        readBytes cfg unbounded cb (initial u ()) pieces.flatten = .error e ∧
          ∀ q, readBytes cfg unbounded collect reader pieces.flatten = .ok q →
            q.userdata.foldlM cb u = .error e := by
  rw [processFile_result]
  refine ⟨reads_as_unbounded cfg g cb u memory pieces.flatten, fun e stopped given => ?_⟩
  have same := (simulates_same g memory cb).readBytes cfg (u := u) (r := ()) rfl .start pieces.flatten
  rw [stopped] at same
  exact ⟨same.resolve_left given, fun q read => (error_of_events read stopped).resolve_left given⟩

end

end SpiderFrame.Libjson
