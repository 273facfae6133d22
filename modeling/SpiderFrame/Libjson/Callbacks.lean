import SpiderFrame.Base.Checked
import SpiderFrame.Libjson.Pieces

/-!
# A callback that fails

A callback that takes its own errors for a state never stops the parser (`lifted`). A run with it that comes
to its end tells what the run with the callback itself comes to.
-/

namespace SpiderFrame.Libjson
open SpiderFrame.Base

section

variable {κ σ τ : Type} {cfg : Config} {g : Growth κ} {cb : σ → Event → Except JsonError σ}

/-- The callback on what it has returned before. -/
def lifted (cb : σ → Event → Except JsonError σ) (x : Except JsonError σ) (e : Event) :
    Except JsonError (Except JsonError σ) :=
  .ok (x.bind (cb · e))

theorem foldlM_lifted (x : Except JsonError σ) (es : List Event) :
    es.foldlM (lifted cb) x = .ok (x.bind fun u => es.foldlM cb u) := by
  induction es generalizing x with
  | nil => cases x <;> rfl
  | cons e es ih =>
    change es.foldlM (lifted cb) (x.bind (cb · e)) = _
    rw [ih]
    cases x <;> rfl

/-- The parser with another state of the callback. -/
def Parser.withUser (p : Parser κ σ) (u : τ) : Parser κ τ :=
  ⟨u, p.state, p.saveState, p.expectingKey, p.utf8MultibyteLeft, p.unicodeMulti, p.type, p.stack,
    p.buffer, p.memory⟩

/-- What the run with the callback itself comes to. -/
def Parser.dropped (p : Parser κ (Except JsonError σ)) : Except JsonError (Parser κ σ) :=
  p.userdata.map p.withUser

abbrev Lifts (f : Parser κ (Except JsonError σ) → Except JsonError (Parser κ (Except JsonError σ)))
    (f' : Parser κ σ → Except JsonError (Parser κ σ)) : Prop :=
  Carries Parser.dropped f f'

theorem Parser.dropped_congr (p : Parser κ (Except JsonError σ))
    {f f' : Parser κ σ → Except JsonError (Parser κ σ)} (same : ∀ u, f (p.withUser u) = f' (p.withUser u)) :
    p.dropped.bind f = p.dropped.bind f' := by
  unfold dropped
  cases p.userdata with
  | error e => rfl
  | ok u => exact same u

/-- What neither looks at the state of the callback nor changes it. -/
theorem lifts_plain {f : Parser κ (Except JsonError σ) → Except JsonError (Parser κ (Except JsonError σ))}
    {f' : Parser κ σ → Except JsonError (Parser κ σ)}
    (kept : ∀ p p', f p = .ok p' → p'.userdata = p.userdata)
    (same : ∀ p u, f' (p.withUser u) = (f p).map fun q => q.withUser u) : Lifts f f' := by
  intro p p' result
  unfold Parser.dropped
  rw [kept p p' result]
  cases p.userdata with
  | error e => rfl
  | ok u =>
    change f' (p.withUser u) = _
    rw [same, result]
    rfl

theorem lifts_doCallback (type : JsonType) (data : List Byte) :
    Lifts (κ := κ) (fun p => doCallback (lifted cb) p type data) (fun p => doCallback cb p type data) := by
  intro p p' result
  cases result
  unfold Parser.dropped
  cases p.userdata <;> rfl

theorem lifts_statePush (mode : Mode) :
    Lifts (σ := σ) (fun p => statePush g p mode) (fun p => statePush g p mode) := by
  refine lifts_plain (fun p p' result => ?_) fun p u => ?_
  · unfold statePush at result
    cases room : g.stack p.memory p.stack.length with
    | error e =>
      rw [room] at result
      cases result
    | ok m =>
      rw [room] at result
      cases result
      rfl
  · unfold statePush Parser.withUser
    cases g.stack p.memory p.stack.length <;> rfl

theorem lifts_bufferPush (c : Byte) :
    Lifts (σ := σ) (fun p => bufferPush g p c) (fun p => bufferPush g p c) := by
  refine lifts_plain (fun p p' result => ?_) fun p u => ?_
  · unfold bufferPush at result
    cases room : g.buffer p.memory p.buffer.length with
    | error e =>
      rw [room] at result
      cases result
    | ok m =>
      rw [room] at result
      cases result
      rfl
  · unfold bufferPush Parser.withUser
    cases g.buffer p.memory p.buffer.length <;> rfl

theorem lifts_statePop (mode : Mode) :
    Lifts (κ := κ) (σ := σ) (fun p => statePop p mode) (fun p => statePop p mode) := by
  refine lifts_plain (fun p p' result => ?_) fun p u => ?_
  · unfold statePop at result
    split at result
    · cases result
    · split at result
      · cases result
        rfl
      · cases result
  · unfold statePop Parser.withUser
    dsimp only
    cases p.stack with
    | nil => rfl
    | cons m stack =>
      dsimp only
      split <;> rfl

theorem lifts_doBuffer : Lifts (κ := κ) (doBuffer (lifted cb)) (doBuffer cb) := by
  intro p p' result
  have shape : p.dropped.bind (doBuffer cb) = p.dropped.bind fun q =>
      if p.type.isData then (doCallback cb q p.type p.buffer).map fun q => { q with buffer := [] }
      else .ok { q with buffer := [] } := p.dropped_congr fun u => rfl
  have cleared : ∀ q : Parser κ (Except JsonError σ), Parser.dropped { q with buffer := [] } =
      q.dropped.map fun q => { q with buffer := [] } := by
    intro q
    unfold Parser.dropped
    cases q.userdata <;> rfl
  rw [shape]
  unfold doBuffer at result
  split at result
  · rename_i data
    simp only [if_pos data]
    exact ((lifts_doCallback p.type p.buffer).map cleared) p p' result
  · rename_i data
    simp only [if_neg data]
    cases result
    rw [cleared]
    cases p.dropped <;> rfl

theorem lifts_actUc : Lifts (κ := κ) (σ := σ) actUc actUc := by
  have decode : ∀ (p : Parser κ (Except JsonError σ)),
      (∀ p', decodeUnicodeChar p = .ok p' → p'.userdata = p.userdata) ∧
        ∀ u : σ, decodeUnicodeChar (p.withUser u) = (decodeUnicodeChar p).map fun q => q.withUser u := by
    intro p
    unfold decodeUnicodeChar Parser.withUser
    dsimp only
    split
    · exact ⟨fun p' same => by cases same; rfl, fun u => rfl⟩
    · split
      · split
        · exact ⟨(fun p' same => nomatch same), fun u => rfl⟩
        · exact ⟨fun p' same => by cases same; rfl, fun u => rfl⟩
      · split
        · exact ⟨(fun p' same => nomatch same), fun u => rfl⟩
        · split
          · exact ⟨fun p' same => by cases same; rfl, fun u => rfl⟩
          · split <;> exact ⟨fun p' same => by cases same; rfl, fun u => rfl⟩
  refine lifts_plain (fun p p' result => ?_) fun p u => ?_
  · unfold actUc at result
    cases decoded : decodeUnicodeChar p with
    | error e =>
      rw [decoded] at result
      cases result
    | ok q =>
      rw [decoded] at result
      cases result
      exact (decode p).1 q decoded
  · unfold actUc
    rw [(decode p).2 u]
    cases decodeUnicodeChar p <;> rfl

theorem lifts_keep (ch : Byte) (policy : Policy) :
    Lifts (σ := σ) (fun p => keep g p ch policy) (fun p => keep g p ch policy) := by
  cases policy with
  | ignore => exact lifts_plain (fun p p' same => by cases same; rfl) fun p u => rfl
  | append => exact lifts_bufferPush ch
  | escape => exact lifts_bufferPush _

theorem dropped_update {h : Parser κ (Except JsonError σ) → Parser κ (Except JsonError σ)}
    {k : Parser κ σ → Parser κ σ} (kept : ∀ p, (h p).userdata = p.userdata)
    (same : ∀ p u, (h p).withUser u = k (p.withUser u)) (p : Parser κ (Except JsonError σ)) :
    (h p).dropped = p.dropped.map k := by
  unfold Parser.dropped
  rw [kept]
  cases p.userdata with
  | error e => rfl
  | ok u => exact congrArg Except.ok (same p u)

/-- **One action.** -/
theorem lifts_call (act : Act) :
    Lifts (fun p => call cfg g (lifted cb) p act) (fun p => call cfg g cb p act) := by
  have nothing : Lifts (κ := κ) (σ := σ) (fun p => .ok p) (fun p => .ok p) :=
    lifts_plain (fun p p' same => by cases same; rfl) fun p u => rfl
  cases act
  case ks | fa | tr | nu | de | df | mx | zx | ix => exact nothing
  case sp =>
    refine lifts_doBuffer.bind (lifts_plain (fun p p' result => ?_) fun p u => ?_)
    · unfold actSp at result
      split at result <;> cases result <;> rfl
    · unfold actSp Parser.withUser
      dsimp only
      split <;> rfl
  case ab => exact (lifts_doCallback _ _).bind (lifts_statePush _)
  case ae => exact lifts_doBuffer.bind ((lifts_statePop _).bind (lifts_doCallback _ _))
  case ob =>
    refine (lifts_doCallback .objectBegin []).bind ((lifts_statePush .object).bind ?_)
    exact lifts_plain (fun p p' same => by cases same; rfl) fun p u => rfl
  case oe =>
    refine lifts_doBuffer.bind ((lifts_statePop .object).bind ((lifts_doCallback .objectEnd []).bind ?_))
    exact lifts_plain (fun p p' same => by cases same; rfl) fun p u => rfl
  case cb =>
    refine lifts_doBuffer.bind (lifts_plain (fun p p' result => ?_) fun p u => ?_)
    · unfold actCb at result
      split at result <;> cases result
      rfl
    · unfold actCb
      split <;> rfl
  case yb =>
    refine lifts_doBuffer.bind (lifts_plain (fun p p' result => ?_) fun p u => ?_)
    · unfold actYb at result
      split at result <;> cases result
      rfl
    · unfold actYb
      split <;> rfl
  case ce => exact lifts_plain (fun p p' same => by cases same; rfl) fun p u => rfl
  case se =>
    intro p p' result
    have shape : p.dropped.bind (actSe cb) = p.dropped.bind fun q =>
        (doCallback cb q (if p.expectingKey then .key else .string) p.buffer).map fun q =>
          { q with buffer := [], state := if q.expectingKey then .co else .ok, expectingKey := false } :=
      p.dropped_congr fun u => rfl
    change p.dropped.bind (actSe cb) = _
    rw [shape]
    have closed : ∀ q : Parser κ (Except JsonError σ), Parser.dropped
        { q with buffer := [], state := if q.expectingKey then .co else .ok, expectingKey := false } =
        q.dropped.map fun q =>
          { q with buffer := [], state := if q.expectingKey then .co else .ok, expectingKey := false } :=
      dropped_update (fun _ => rfl) fun _ _ => rfl
    exact ((lifts_doCallback _ p.buffer).map closed) p p' result
  case uc => exact lifts_actUc

/-- **One byte.** -/
theorem lifts_putChar (ch : Byte) :
    Lifts (fun p => putChar cfg g (lifted cb) p ch) (fun p => putChar cfg g cb p ch) := by
  intro p p' result
  unfold putChar at result
  change (nextClass p.utf8MultibyteLeft ch).bind _ = _ at result
  cases next : nextClass p.utf8MultibyteLeft ch with
  | error e =>
    rw [next] at result
    cases result
  | ok here =>
    obtain ⟨cls, left⟩ := here
    rw [next] at result
    let p₁ := { p with utf8MultibyteLeft := left }
    change step cfg g (lifted cb) p₁ ch cls = .ok p' at result
    have shape : p.dropped.bind (fun q => putChar cfg g cb q ch) =
        p₁.dropped.bind fun q => step cfg g cb q ch cls := by
      change (p.userdata.map p.withUser).bind _ = (p.userdata.map p₁.withUser).bind _
      cases p.userdata with
      | error e => rfl
      | ok u =>
        change (nextClass p.utf8MultibyteLeft ch).bind _ = _
        rw [next]
        rfl
    rw [shape]
    cases entry : transition p₁.state cls with
    | error =>
      rw [step_error _ _ _ entry] at result
      cases result
    | goto st =>
      rw [step_goto _ _ _ entry] at result
      have kept : p₁.dropped.bind (fun q => step cfg g cb q ch cls) = p₁.dropped.bind fun q =>
          (keep g q ch (bufferPolicy p₁.state cls)).map fun q => { q with state := st } :=
        p₁.dropped_congr fun u => step_goto cfg g cb (p := p₁.withUser u) entry
      have moved : ∀ q : Parser κ (Except JsonError σ), Parser.dropped { q with state := st } =
          q.dropped.map fun q => { q with state := st } := dropped_update (fun _ => rfl) fun _ _ => rfl
      rw [kept]
      exact ((lifts_keep ch _).map moved) p₁ p' result
    | act act =>
      rw [step_act _ _ _ entry] at result
      have kept : p₁.dropped.bind (fun q => step cfg g cb q ch cls) = p₁.dropped.bind fun q =>
          (keep g q ch (bufferPolicy p₁.state cls)).bind fun q => doAction cfg g cb q act :=
        p₁.dropped_congr fun u => step_act cfg g cb (p := p₁.withUser u) entry
      have action : Lifts (fun p => doAction cfg g (lifted cb) p act) (fun p => doAction cfg g cb p act) :=
        (lifts_call act).map (dropped_update (fun _ => rfl) fun _ _ => rfl)
      rw [kept]
      exact ((lifts_keep ch _).bind action) p₁ p' result

theorem lifts_readBytes (s : List Byte) :
    Lifts (fun p => readBytes cfg g (lifted cb) p s) (fun p => readBytes cfg g cb p s) :=
  Carries.foldlM lifts_putChar s

end

end SpiderFrame.Libjson
