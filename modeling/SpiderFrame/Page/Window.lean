import SpiderFrame.Page.Perform
import SpiderFrame.Base.Run

/-!
# The windows of the rule loop

Before a call of `pcre_exec` the pointer should be in the buffer that the rule chooses, and the length
should go up to the end of that buffer. A match with `movetoend` counts the new length from the
length of the body, whichever buffer it is on, so the window of the URL or of the header is right
behind it only when the body was as long.
-/

namespace SpiderFrame.Page
open SpiderFrame.Base

variable {Re : Type}

/-- The buffers that a rule chooses from. -/
inductive Subject where
  | url
  | hdr
  | body
  deriving DecidableEq

def Rule.subject (rule : Rule Re) : Subject :=
  if rule.urlmatch then .url else if rule.hdrmatch then .hdr else .body

def Buffers.at (b : Buffers) : Subject → Cursor
  | .url => b.url
  | .hdr => b.hdr
  | .body => b.body

theorem Buffers.of_eq (b : Buffers) (rule : Rule Re) : b.of rule = b.at rule.subject := by
  unfold Buffers.of Rule.subject
  split
  · rfl
  · split <;> rfl

/-- The chosen buffer moves, with the length of the body, and the others stay. -/
theorem Buffers.at_move (b : Buffers) (rule : Rule Re) (n : Int) (k : Subject) :
    (b.move rule n).at k = if k = rule.subject then
      ⟨(b.at k).text.drop n.toNat, b.body.len - n⟩ else b.at k := by
  unfold Buffers.move Buffers.of Rule.subject
  by_cases url : rule.urlmatch = true
  · cases k <;> simp [url, Buffers.at]
  · by_cases hdr : rule.hdrmatch = true <;> cases k <;> simp [url, hdr, Buffers.at]

/-- What is in the three buffers. -/
structure Texts where
  url : List Byte
  hdr : List Byte
  body : List Byte

def Texts.at (t : Texts) : Subject → List Byte
  | .url => t.url
  | .hdr => t.hdr
  | .body => t.body

/-- The pointers and the lengths that `sf_pcre_perform` begins with. -/
def Texts.buffers (t : Texts) : Buffers :=
  ⟨⟨t.url, t.url.length⟩, ⟨t.hdr, t.hdr.length⟩, ⟨t.body, t.body.length⟩⟩

/-- The pointer is in the buffer, and with the length it comes to the buffer's end. -/
def Window (whole : List Byte) (c : Cursor) : Prop := c.text <:+ whole ∧ c.len = c.text.length

instance (whole : List Byte) (c : Cursor) : Decidable (Window whole c) :=
  inferInstanceAs (Decidable (_ ∧ _))

theorem Texts.window (t : Texts) (k : Subject) : Window (t.at k) (t.buffers.at k) := by
  cases k <;> exact ⟨List.suffix_rfl, rfl⟩

/-- Behind a match the window is right when the new length is counted from the old one. -/
theorem Window.drop_iff {whole : List Byte} {c : Cursor} (h : Window whole c) {n len : Int}
    (start : 0 ≤ n) (inside : n ≤ c.len) :
    Window whole ⟨c.text.drop n.toNat, len - n⟩ ↔ c.len = len := by
  have shape := h.2
  have suffix : c.text.drop n.toNat <:+ whole := (List.drop_suffix _ _).trans h.1
  simp only [Window, suffix, true_and, List.length_drop]
  omega

/-- In its window a rule is matched on what stands from the pointer on, and nothing behind it. -/
theorem exec_window (env : Env Re) (re : Re) {whole : List Byte} {c : Cursor}
    (h : Window whole c) : exec env re c = pure
      (if (env.pcre.exec re c.text).1 < 0 then none
        else some ⟨c.text, env.pcre.exec re c.text⟩) := by
  have shape := h.2
  have take : c.text.take c.len.toNat = c.text := by
    rw [shape, Int.toNat_natCast, List.take_length]
  rw [exec, if_neg (by omega), if_neg (by omega), take]

/-! ## The loop from one `pcre_exec` to the next -/

/-- The rules that are left, with the rounds each one has left, and the buffers. -/
structure Matching (Re : Type) where
  todo : List (Rule Re × Nat)
  bufs : Buffers

/-- How a round ends: there is none left, `pcre_exec` fails, or it has `vector[0]` and
`vector[1]`. -/
inductive Outcome where
  | finished
  | noMatch
  | found (first last : Int)

def matchStep (s : Matching Re) (o : Outcome) : Option (Matching Re) :=
  match s.todo, o with
  | (_, 0) :: todo, .finished => some ⟨todo, s.bufs⟩
  | (_, _ + 1) :: todo, .noMatch => some ⟨todo, s.bufs⟩
  | (rule, n + 1) :: todo, .found first last =>
    if 0 ≤ first ∧ first ≤ last ∧ last ≤ (s.bufs.of rule).len then
      some ⟨(rule, n) :: todo, if rule.movetoend then s.bufs.move rule last else s.bufs⟩
    else none
  | _, _ => none

def Matching.start (rules : List (Rule Re)) (t : Texts) : Matching Re :=
  ⟨rules.map fun rule => (rule, rule.repeat_.toNat), t.buffers⟩

/-- The next thing is a `pcre_exec` for the rule. -/
def Matching.Waiting (s : Matching Re) (rule : Rule Re) : Prop :=
  ∃ n todo, s.todo = (rule, n + 1) :: todo

/-- A `pcre_exec` on the buffer is still to come. -/
def Pending (k : Subject) (todo : List (Rule Re × Nat)) : Prop :=
  ∃ p ∈ todo, p.1.subject = k ∧ 0 < p.2

/-- **What a step can do.** -/
theorem matchStep_cases {s s' : Matching Re} {o : Outcome} (h : matchStep s o = some s') :
    (∃ p, s.todo = p :: s'.todo ∧ s'.bufs = s.bufs ∧ (o = .finished ∨ o = .noMatch)) ∨
    ∃ rule n todo first last, o = .found first last ∧ s.todo = (rule, n + 1) :: todo ∧
      s'.todo = (rule, n) :: todo ∧ 0 ≤ last ∧ last ≤ (s.bufs.at rule.subject).len ∧
      s'.bufs = if rule.movetoend then s.bufs.move rule last else s.bufs := by
  obtain ⟨todo, bufs⟩ := s
  unfold matchStep at h
  split at h
  · cases h
    exact .inl ⟨_, ‹_›, rfl, .inl rfl⟩
  · cases h
    exact .inl ⟨_, ‹_›, rfl, .inr rfl⟩
  · split at h
    case isTrue inside =>
      cases h
      rw [Buffers.of_eq] at inside
      exact .inr ⟨_, _, _, _, _, rfl, ‹_›, rfl, Int.le_trans inside.1 inside.2.1, inside.2.2, rfl⟩
    case isFalse => cases h
  · cases h

/-- What is to come behind a round was to come before it. -/
theorem Pending.of_tail {k : Subject} {p : Rule Re × Nat} {todo : List (Rule Re × Nat)}
    (h : Pending k todo) : Pending k (p :: todo) :=
  h.imp fun _ q => ⟨List.mem_cons_of_mem _ q.1, q.2⟩

theorem Pending.of_round {k : Subject} {rule : Rule Re} {n : Nat} {todo : List (Rule Re × Nat)}
    (h : Pending k ((rule, n) :: todo)) : Pending k ((rule, n + 1) :: todo) := by
  obtain ⟨p, mem, subject, left⟩ := h
  obtain rfl | mem := List.mem_cons.1 mem
  · exact ⟨_, List.mem_cons_self, subject, Nat.succ_pos n⟩
  · exact ⟨p, List.mem_cons_of_mem _ mem, subject, left⟩

theorem Matching.Waiting.pending {s : Matching Re} {rule : Rule Re} (h : s.Waiting rule) :
    Pending rule.subject s.todo := by
  obtain ⟨n, todo, e⟩ := h
  rw [e]
  exact ⟨_, List.mem_cons_self, rfl, Nat.succ_pos n⟩

/-- What is to come on a buffer does come, when nothing before it matches. -/
theorem exists_waiting {k : Subject} {b : Buffers} : ∀ {todo : List (Rule Re × Nat)},
    Pending k todo → ∃ s rule, Reach matchStep Any ⟨todo, b⟩ s ∧ s.Waiting rule ∧
      rule.subject = k ∧ s.bufs = b
  | [], h => by
    obtain ⟨_, mem, -⟩ := h
    cases mem
  | (rule, n) :: todo, h => by
    by_cases here : rule.subject = k ∧ 0 < n
    · obtain ⟨subject, left⟩ := here
      obtain ⟨m, rfl⟩ := Nat.exists_eq_add_one.2 left
      exact ⟨_, rule, .start, ⟨m, todo, rfl⟩, subject, rfl⟩
    · have later : Pending k todo := by
        obtain ⟨p, mem, q⟩ := h
        obtain rfl | mem := List.mem_cons.1 mem
        · exact absurd q here
        · exact ⟨p, mem, q⟩
      obtain ⟨s, rule', reach, rest⟩ := exists_waiting (b := b) later
      refine ⟨s, rule', Reach.trans ?_ reach, rest⟩
      cases n with
      | zero => exact .one (a := .finished) trivial rfl
      | succ n => exact .one (a := .noMatch) trivial rfl

/-! ## The invariant -/

/-- A match of a rule on the URL or the header with `movetoend` finds that buffer as long as the
body, or no `pcre_exec` on that buffer is to come. -/
def LengthRight (s : Matching Re) : Outcome → Prop
  | .found _ _ => ∀ rule n todo, s.todo = (rule, n + 1) :: todo → rule.movetoend = true →
      rule.subject ≠ .body → (s.bufs.at rule.subject).len = s.bufs.body.len ∨
        ¬ Pending rule.subject ((rule, n) :: todo)
  | _ => True

/-- The windows of the body and of each buffer that is still to be matched on are right. -/
def InWindows (t : Texts) (s : Matching Re) : Prop :=
  ∀ k, k = .body ∨ Pending k s.todo → Window (t.at k) (s.bufs.at k)

theorem inWindows_start (rules : List (Rule Re)) (t : Texts) :
    InWindows t (.start rules t) := fun k _ => t.window k

theorem InWindows.step {t : Texts} {s s' : Matching Re} {o : Outcome} (inv : InWindows t s)
    (right : LengthRight s o) (taken : matchStep s o = some s') : InWindows t s' := by
  intro k later
  obtain ⟨p, todo, bufs, -⟩ | ⟨rule, n, todo, first, last, rfl, before, behind, start, inside, bufs⟩ :=
    matchStep_cases taken
  · rw [bufs]
    apply inv k
    rw [todo]
    exact later.imp_right Pending.of_tail
  · rw [behind] at later
    have old : Window (t.at k) (s.bufs.at k) := by
      apply inv k
      rw [before]
      exact later.imp_right Pending.of_round
    rw [bufs]
    split
    case isFalse => exact old
    case isTrue moves =>
      rw [Buffers.at_move]
      split
      case isFalse => exact old
      case isTrue chosen =>
        subst chosen
        rw [old.drop_iff start inside]
        by_cases body : rule.subject = .body
        · rw [body]
          rfl
        · obtain same | none := right rule n todo before moves body
          · exact same
          · exact absurd (later.resolve_left body) none

/-- **The length that a match leaves is wrong whenever its step is not right, and some later
`pcre_exec` can be on it.** -/
theorem InWindows.escape {t : Texts} {s s' : Matching Re} {o : Outcome} (inv : InWindows t s)
    (wrong : ¬ LengthRight s o) (taken : matchStep s o = some s') :
    ∃ m rule, Reach matchStep Any s' m ∧ m.Waiting rule ∧
      ¬ Window (t.at rule.subject) (m.bufs.of rule) := by
  obtain ⟨_, _, _, rfl | rfl⟩ | ⟨rule, n, todo, first, last, rfl, before, behind, start, inside, bufs⟩ :=
    matchStep_cases taken
  · exact absurd trivial wrong
  · exact absurd trivial wrong
  · simp only [LengthRight, not_forall, not_or, not_not] at wrong
    obtain ⟨rule', n', todo', before', moves, -, differs, later⟩ := wrong
    obtain ⟨⟨rfl, rfl⟩, rfl⟩ : ((rule = rule') ∧ n = n') ∧ todo = todo' := by
      rw [before] at before'
      simpa using before'
    have old : Window (t.at rule.subject) (s.bufs.at rule.subject) := by
      apply inv
      rw [before]
      exact .inr later.of_round
    obtain ⟨m, next, reach, waiting, subject, same⟩ := exists_waiting (b := s'.bufs) later
    refine ⟨m, next, ?_, waiting, ?_⟩
    · rw [← behind] at reach
      exact reach
    · rw [Buffers.of_eq, subject, same, bufs, if_pos moves, Buffers.at_move, if_pos rfl,
        old.drop_iff start inside]
      exact differs

/-- **While every match on the URL or the header that moves its pointer finds the body as long, or
is the last on its buffer, each `pcre_exec` is in the window of its own buffer; behind a step that
does neither, some `pcre_exec` that may come is not.** -/
theorem perform_windows (rules : List (Rule Re)) (t : Texts) {s : Matching Re}
    (run : Reach matchStep LengthRight (.start rules t) s) :
    (∀ rule, s.Waiting rule → Window (t.at rule.subject) (s.bufs.of rule)) ∧
    ∀ o s', matchStep s o = some s' → ¬ LengthRight s o →
      ∃ m rule, Reach matchStep Any s' m ∧ m.Waiting rule ∧
        ¬ Window (t.at rule.subject) (m.bufs.of rule) := by
  have inv : InWindows t s := by
    apply run.invariant (inWindows_start rules t)
    intro s o s' _ inv right taken
    exact inv.step right taken
  constructor
  · intro rule waiting
    rw [Buffers.of_eq]
    exact inv _ (.inr waiting.pending)
  · intro o s' taken wrong
    exact inv.escape wrong taken

/-- A rule with `movetoend`, matched twice. -/
def twice (urlmatch : Bool) : Rule Unit where
  re := ()
  urlmatch := urlmatch
  hdrmatch := false
  movetoend := true
  repeat_ := 2
  uniq := none
  jsonNew := none
  sfcap := []
  ns := []
  trigger := []

/-- The URL `http://h/`, no header and the body `<b>abc</b>`. -/
def shortUrl : Texts where
  url := [104#8, 116#8, 116#8, 112#8, 58#8, 47#8, 47#8, 104#8, 47#8]
  hdr := []
  body := [60#8, 98#8, 62#8, 97#8, 98#8, 99#8, 60#8, 47#8, 98#8, 62#8]

theorem perform_windows_twice :
    ∃ s, Reach matchStep LengthRight (.start [twice false] shortUrl) s ∧
      ∀ rule, s.Waiting rule → Window (shortUrl.at rule.subject) (s.bufs.of rule) := by
  have right : LengthRight (.start [twice false] shortUrl) (.found 0 3) := by
    intro rule n todo before _ notBody
    cases before
    exact absurd rfl notBody
  exact ⟨_, .one right rfl, (perform_windows _ _ (.one right rfl)).1⟩

/-- Behind the match of `http` on the URL the length is 6, and only five bytes are left. -/
theorem url_window_too_long :
    ¬ ∀ (rules : List (Rule Unit)) (t : Texts) (s : Matching Unit) (rule : Rule Unit),
      Reach matchStep Any (.start rules t) s → s.Waiting rule →
        Window (t.at rule.subject) (s.bufs.of rule) := by
  intro claim
  have run : Reach matchStep Any (.start [twice true] shortUrl) _ :=
    .one (a := .found 0 4) trivial rfl
  exact absurd (claim _ _ _ (twice true) run ⟨0, [], rfl⟩) (by decide)

/-! ## The loop of a spider -/

/-- `vector[0]` and `vector[1]` of a match are positions in the subject, in their order. -/
def InSubject (pcre : Pcre Re) : Prop :=
  ∀ re subject, 0 ≤ (pcre.exec re subject).1 → ∃ first last rest,
    (pcre.exec re subject).2 = first :: last :: rest ∧ 0 ≤ first ∧ first ≤ last ∧
      last ≤ subject.length

section Run

variable {env : Env Re} {fuel : Nat} {start : Nat → Run Re Unit} {r : Ref}

/-- A `pcre_exec` that is made at all has the subject in the buffer. -/
theorem exec_done {re : Re} {c : Cursor} {w w' : World Re} {es : List (Event Re)} {m : Match}
    (run : exec env re c w = (es, some (some m, w'))) : 0 ≤ c.len ∧ c.len ≤ c.text.length ∧
      m = ⟨c.text.take c.len.toNat, env.pcre.exec re (c.text.take c.len.toNat)⟩ ∧
      0 ≤ m.result.1 := by
  unfold exec at run
  split at run
  case isTrue => cases run
  case isFalse nonneg =>
    split at run
    case isTrue => cases run
    case isFalse inside =>
      have result : (if (env.pcre.exec re (c.text.take c.len.toNat)).1 < 0 then none
          else some ⟨c.text.take c.len.toNat, env.pcre.exec re (c.text.take c.len.toNat)⟩) =
          some m := congrArg Prod.fst (Option.some.inj (congrArg Prod.snd run))
      split at result
      case isTrue => cases result
      case isFalse matched =>
        cases result
        exact ⟨Int.not_lt.1 nonneg, by omega, rfl, Int.not_lt.1 matched⟩

/-- A match of the loop is a match of the machine. -/
theorem matchStep_of_exec (sound : InSubject env.pcre) {rule : Rule Re} {n : Nat}
    {todo : List (Rule Re × Nat)} {b : Buffers} {m : Match} {w w' : World Re}
    {es : List (Event Re)}
    (found : exec env rule.re (b.of rule) w = (es, some (some m, w'))) :
    ∃ first, matchStep ⟨(rule, n + 1) :: todo, b⟩ (.found first m.end_) =
      some ⟨(rule, n) :: todo, if rule.movetoend then b.move rule m.end_ else b⟩ := by
  obtain ⟨nonneg, inside, rfl, matched⟩ := exec_done found
  obtain ⟨first, last, rest, vector, low, mid, high⟩ := sound _ _ matched
  have end_ : Match.end_ ⟨(b.of rule).text.take (b.of rule).len.toNat,
      env.pcre.exec rule.re ((b.of rule).text.take (b.of rule).len.toNat)⟩ = last := by
    simp [Match.end_, vector]
  have fits : last ≤ (b.of rule).len := by
    rw [List.length_take] at high
    omega
  rw [end_]
  exact ⟨first, if_pos ⟨low, mid, fits⟩⟩

/-- **The rounds of a rule are a run of the machine.** -/
theorem repeatLoop_run (sound : InSubject env.pcre) {id : RuleId} {rule : Rule Re}
    {todo : List (Rule Re × Nat)} : ∀ {n : Nat} {b b' : Buffers} {w w' : World Re}
      {es : List (Event Re)}, repeatLoop env fuel start r id rule n b w = (es, some (b', w')) →
      Reach matchStep Any ⟨(rule, n) :: todo, b⟩ ⟨todo, b'⟩
  | 0, b, b', w, w', es, run => by
    cases run
    exact .one (a := .finished) trivial rfl
  | n + 1, b, b', w, w', es, run => by
    obtain ⟨_, found, _, _, first, rest, -⟩ := Prog.bind_eq_done run
    cases found with
    | none =>
      obtain ⟨_, _, _, _, -, last, -⟩ := Prog.bind_eq_done rest
      cases last
      exact .one (a := .noMatch) trivial rfl
    | some m =>
      obtain ⟨_, _, _, _, -, last, -⟩ := Prog.bind_eq_done rest
      obtain ⟨_, taken⟩ := matchStep_of_exec sound first
      exact (Reach.one trivial taken).trans (repeatLoop_run sound last)

/-- **The rules of a policy that are all done are a run of the machine.** -/
theorem ruleLoop_run (sound : InSubject env.pcre) {policy : Nat} : ∀ {rules : List (Rule Re)}
    {i : Nat} {b : Buffers} {w w' : World Re} {es : List (Event Re)},
    ruleLoop env fuel start r policy i rules b w = (es, some ((), w')) →
      ∃ b', Reach matchStep Any ⟨rules.map fun rule => (rule, rule.repeat_.toNat), b⟩ ⟨[], b'⟩
  | [], _, b, _, _, _, _ => ⟨b, .start⟩
  | rule :: rules, i, b, w, w', es, run => by
    obtain ⟨b₁, _, _, _, first, rest, -⟩ := Prog.bind_eq_done run
    obtain ⟨b', later⟩ := ruleLoop_run sound rest
    exact ⟨b', (repeatLoop_run sound first).trans later⟩

/-- **`sf_pcre_perform` runs the machine over the rules of the policy and the fetched page.** -/
theorem sfPcrePerform_run (sound : InSubject env.pcre) {i : Nat} {p : Policy Re} {url : CString}
    {page : Fetched} {w w' : World Re} {es : List (Event Re)}
    (run : sfPcrePerform env fuel start r i p url page w = (es, some ((), w'))) :
    ∃ b', Reach matchStep Any (.start p.pcreRoot ⟨url.bytes, page.header, page.body⟩) ⟨[], b'⟩ :=
  ruleLoop_run sound run

end Run

end SpiderFrame.Page
