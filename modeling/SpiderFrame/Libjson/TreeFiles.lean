import SpiderFrame.Libjson.Trees

/-!
# Files as trees (`libjson/jsonlint.c`)

What `jsonlint --tree` prints for a file is the outline of the tree of the text. `dom_push` makes no room behind
1024 levels: a callback that counts levels tells for which files `do_tree` has no meaning.
-/

namespace SpiderFrame.Libjson
open SpiderFrame.Base

/-- `do_tree(config, filename, root_structure)`: an error, `none` for a syntax error, or the root and the
values. `noMeaning` is the error where `json_parser_dom_callback` leaves its stack. -/
def doTree (cfg : Config) (answers domAnswers treeAnswers : List Bool) (pieces : List Bytes) :
    Except JsonError (Option (Option Nat × Vals)) :=
  if domAnswers.headD true then do
    let p ← jsonParserInit cfg (domInit ⟨[], treeAnswers⟩ domAnswers.tail) answers
    let p ← (processFile cfg (growth cfg) (domCallback treeBuilder) p pieces).1
    .ok (if jsonParserIsDone p then some (p.userdata.rootStructure, p.userdata.memory) else none)
  else .error .noMemory

/-- `jsonlint --tree`: what it prints for a file, down to so many levels. It prints nothing when `do_tree` does
not return 0, and has no meaning when `do_tree` has none. -/
def lintTree (fuel : Nat) (cfg : Config) (answers domAnswers treeAnswers : List Bool) (pieces : List Bytes) :
    Option Bytes :=
  match doTree cfg answers domAnswers treeAnswers pieces with
  | .ok (some result) => printTree fuel result
  | .ok none => some []
  | .error e => if e = noMeaning then none else some []

/-! ## Levels -/

/-- A callback that counts the levels that are open, and stops the parser at the 1025th. -/
def countLevels (n : Nat) (e : Event) : Except JsonError Nat :=
  match e.type with
  | .arrayBegin | .objectBegin => if n < 1024 then .ok (n + 1) else .error noMeaning
  | .arrayEnd | .objectEnd => .ok (n - 1)
  | _ => .ok n

/-- At some place of the file, before its first error, more than 1024 levels are open. -/
def OpensDeep (cfg : Config) (answers : List Bool) (pieces : List Bytes) : Prop :=
  ((jsonParserInit cfg 0 answers).bind fun p => (processFile cfg (growth cfg) countLevels p pieces).1) =
    .error noMeaning

section

variable {d : Dom Vals Nat} {n n' : Nesting}

/-- A key that waits is not freed. -/
theorem Key.Fits.waits {m : Mode} {key : Key} (h : key.Fits m true) : key ≠ .freed := by
  rintro rfl
  exact nomatch h.2

/-- `tree_append` never fails when memory is given. -/
theorem treeAppend_granted {m : Vals} (granted : ∀ a ∈ m.answers, a = true) (p : Nat) (key : Option Bytes)
    (v : Nat) : ∃ m', treeAppend m p key v = (0, m') ∧ ∀ a ∈ m'.answers, a = true := by
  unfold treeAppend
  cases m.vals[p]? with
  | none => exact ⟨m, rfl, granted⟩
  | some parent =>
    obtain ⟨place, given⟩ := Vals.alloc_granted granted
    dsimp only
    rw [place]
    cases key with
    | none => exact ⟨_, rfl, given⟩
    | some k =>
      have element := Vals.alloc_granted (m := { m with answers := m.answers.tail }) given
      have copy := Vals.alloc_granted (m := { m with answers := m.answers.tail.tail }) element.2
      dsimp only
      rw [element.1]
      dsimp only
      rw [copy.1]
      exact ⟨_, rfl, copy.2⟩

/-- The innermost array or object gets a value. -/
theorem Dom.append_ok {m : Mode} {s : StackElem Nat} (granted : d.Granted) (fits : s.key.Fits m true) (v : Nat) :
    ∃ memory key', d.append treeBuilder s v = .ok (0, { d with memory }) ∧ s.key.free = .ok key' ∧
      ∀ a ∈ memory.answers, a = true := by
  obtain ⟨data, key', read, free, -⟩ := fits.used
  obtain ⟨memory, appended, given⟩ := treeAppend_granted granted.tree s.val data v
  refine ⟨memory, key', ?_, free, given⟩
  unfold Dom.append
  rw [read]
  exact congrArg (fun r : Int × Vals => Except.ok (r.1, { d with memory := r.2 })) appended

theorem Dom.end_ok (sound : d.Sound n) (granted : d.Granted) {mode : Mode} (next : n.end_ mode = some n') :
    ∃ d', domEnd treeBuilder d = .ok d' ∧ d'.Granted := by
  obtain ⟨stack, -⟩ := sound
  cases n with
  | before | after => cases next
  | inside m ready around =>
    cases whole : d.stack with
    | nil =>
      rw [whole] at stack
      exact stack.elim
    | cons s ss =>
      rw [whole] at stack
      unfold domEnd domPop
      rw [whole]
      cases stack.2 with
      | nil => exact ⟨_, rfl, granted.stack, granted.tree⟩
      | @cons m' ms s' ss key rest =>
        have granted' : Dom.Granted { d with stack := s' :: ss } := ⟨granted.stack, granted.tree⟩
        obtain ⟨memory, key', appended, free, given⟩ := Dom.append_ok granted' key s.val
        refine ⟨{ d with memory := memory, stack := { s' with key := key' } :: ss }, ?_, granted.stack, given⟩
        dsimp only [bind, Except.bind]
        rw [appended]
        dsimp only
        rw [free]

theorem Dom.key_ok (sound : d.Sound n) (granted : d.Granted) (next : n.next .key = some n') (data : Bytes) :
    ∃ d', domKey d data = .ok d' ∧ d'.Granted := by
  obtain ⟨stack, -⟩ := sound
  cases whole : d.stack with
  | nil =>
    rw [whole] at stack
    unfold Nesting.next at next
    dsimp only at next
    split at next
    · exact stack.elim
    · cases next
  | cons s ss =>
    refine ⟨{ d with stack := { s with key := .held data } :: ss, answers := d.answers.tail }, ?_,
      fun a inside => granted.stack a (List.mem_of_mem_tail inside), granted.tree⟩
    unfold domKey Dom.top
    rw [whole]
    dsimp only [bind, Except.bind]
    rw [Dom.alloc_granted granted.stack]

theorem Dom.data_ok {m : Mode} {around : List Mode} (sound : d.Sound (.inside m true around))
    (granted : d.Granted) (type : JsonType) (data : Bytes) :
    ∃ d', domData treeBuilder d type data = .ok d' ∧ d'.Granted := by
  obtain ⟨stack, -⟩ := sound
  cases whole : d.stack with
  | nil =>
    rw [whole] at stack
    exact stack.elim
  | cons s ss =>
    rw [whole] at stack
    obtain ⟨answers, given, created⟩ := created_data granted.tree type data
    let m : Vals := ⟨d.memory.vals ++ [⟨type, data.length, .data data⟩], answers⟩
    have granted' : Dom.Granted { d with memory := m, stack := s :: ss } := ⟨granted.stack, given⟩
    obtain ⟨memory, key', appended, free, given⟩ := Dom.append_ok granted' stack.1 d.memory.vals.length
    refine ⟨{ d with memory := memory, stack := { s with key := key' } :: ss }, ?_, granted.stack, given⟩
    unfold domData Dom.top
    rw [whole]
    dsimp only [bind, Except.bind]
    rw [created]
    dsimp only
    rw [appended]
    dsimp only
    rw [if_neg (by decide), free]

/-- What holds along events in order, when memory is given: `k` levels are open. -/
structure Counted (n : Nesting) (d : Dom Vals Nat) (k : Nat) : Prop where
  sound : d.Sound n
  granted : d.Granted
  levels : k = n.stack.length
  few : k ≤ 1024

theorem Nesting.begin_length {mode : Mode} (next : n.begin mode = some n') :
    n'.stack.length = n.stack.length + 1 := by
  cases n with
  | before => cases next; rfl
  | after => cases next
  | inside m ready around =>
    cases ready with
    | false => cases next
    | true => cases next; rfl

theorem Nesting.end_length {mode : Mode} (next : n.end_ mode = some n') :
    n'.stack.length = n.stack.length - 1 := by
  cases n with
  | before | after => cases next
  | inside m ready around =>
    change (if m = mode ∧ ready = m.free then some (Nesting.behind around) else none) = some n' at next
    split at next
    · rw [← Option.some.inj next, Nesting.behind_stack]
      rfl
    · cases next

variable {k : Nat}

theorem Counted.begins (h : Counted n d k) {mode : Mode} (next : n.begin mode = some n') (isObject : Bool) :
    Follows (fun _ => False) (Counted n') (domBegin treeBuilder d isObject)
      (if k < 1024 then .ok (k + 1) else .error noMeaning) := by
  obtain ⟨sound, granted, levels, few⟩ := h
  have stack : d.stack.length = k := sound.stack.length.trans levels.symm
  have begun := begun sound.size granted (stack ▸ few) isObject
  by_cases below : k < 1024
  · rw [if_pos below]
    have kept := sound.begins (b := treeBuilder) (levels ▸ below) next isObject
    cases result : domBegin treeBuilder d isObject with
    | error e => exact absurd (stack ▸ (begun.failure result).1) (Nat.ne_of_lt below)
    | ok d' =>
      refine .ok ⟨kept.result result, (begun.result result).1.granted, ?_, below⟩
      rw [Nesting.begin_length next, levels]
  · rw [if_neg below]
    cases result : domBegin treeBuilder d isObject with
    | error e => rw [(begun.failure result).2]; exact .error _
    | ok d' =>
      have more := (begun.result result).1
      have most := more.few
      rw [more.stack, List.length_cons, stack] at most
      omega

theorem Counted.ends (h : Counted n d k) {mode : Mode} (next : n.end_ mode = some n') :
    Follows (fun _ => False) (Counted n') (domEnd treeBuilder d) (.ok (k - 1)) := by
  obtain ⟨d', result, granted⟩ := Dom.end_ok h.sound h.granted next
  have kept := (h.sound.ends (b := treeBuilder) next).result result
  rw [result]
  exact .ok ⟨kept, granted, by rw [Nesting.end_length next, h.levels], Nat.le_trans (Nat.sub_le _ _) h.few⟩

/-- **One event.** -/
theorem Counted.event (h : Counted n d k) {e : Event} (next : n.next e.type = some n') :
    Follows (fun _ => False) (Counted n') (domCallback treeBuilder d e) (countLevels k e) := by
  obtain ⟨type, data⟩ := e
  have value : ∀ m around, n = .inside m true around → some (Nesting.behind (m :: around)) = some n' →
      Follows (fun _ => False) (Counted n') (domData treeBuilder d type data) (.ok k) := by
    rintro m around rfl same
    cases same
    obtain ⟨d', result, granted⟩ := Dom.data_ok h.sound h.granted type data
    rw [result]
    exact .ok ⟨(h.sound.data type data).result result, granted, h.levels, h.few⟩
  cases type with
  | arrayBegin => exact h.begins next false
  | objectBegin => exact h.begins next true
  | arrayEnd => exact h.ends next
  | objectEnd => exact h.ends next
  | key =>
    obtain ⟨d', result, granted⟩ := Dom.key_ok h.sound h.granted next data
    have sound := (h.sound.key next data).result result
    change Follows _ _ (domKey d data) (.ok k)
    rw [result]
    unfold Nesting.next at next
    dsimp only at next
    split at next
    · cases next
      exact .ok ⟨sound, granted, h.levels, h.few⟩
    · cases next
  | string | int | float | litTrue | litFalse | litNull =>
    unfold Nesting.next at next
    dsimp only at next
    split at next
    · exact value _ _ rfl next
    · cases next
  | none | bstring => cases next

variable {cfg : Config} {answers domAnswers treeAnswers : List Bool} {pieces : List Bytes}

theorem countLevels_ne_user (k : Nat) (e : Event) : countLevels k e ≠ .error (.user 1) := by
  unfold countLevels
  split
  · split <;> rintro ⟨⟩
  · split <;> rintro ⟨⟩
  · rintro ⟨⟩
  · rintro ⟨⟩
  · rintro ⟨⟩

theorem domCallback_ne_user (d : Dom Vals Nat) (e : Event) :
    domCallback treeBuilder d e ≠ .error (.user 1) := by
  intro same
  rcases (domCallback_errors treeBuilder d e).failure same with error | error | error <;> cases error

/-- The callback counts, as long as the events are in order. -/
theorem simulates_countLevels (cfg : Config) : Simulates (fun _ => False) Eq
    (fun (x : Nesting × Dom Vals Nat) (y : Nesting × Nat) => x.1 = y.1 ∧ Counted x.1 x.2 y.2) (growth cfg)
    (growth cfg) (inOrderOr (.user 1) (domCallback treeBuilder)) (inOrderOr (.user 1) countLevels) := by
  refine ⟨fun {x y} ev related => ?_, fun {m m'} k same => ?_, fun {m m'} k same => ?_⟩
  · obtain ⟨n, d⟩ := x
    obtain ⟨n', k⟩ := y
    obtain ⟨rfl, counted⟩ := related
    unfold inOrderOr
    cases next : n.next ev.type with
    | none => exact .error _
    | some n' => exact (counted.event next).map fun d k counted => ⟨rfl, counted⟩
  · subst same
    exact .same _
  · subst same
    exact .same _

/-- **`json_parser_dom_callback` leaves its stack where more than 1024 levels are open, and nowhere else.** -/
theorem dom_opens_deep (dom : ∀ a ∈ domAnswers, a = true) (tree : ∀ a ∈ treeAnswers, a = true) (sizes : Sizes)
    (s : Bytes) :
    readBytes cfg (growth cfg) (domCallback treeBuilder) (initial (domInit ⟨[], treeAnswers⟩ domAnswers) sizes)
        s = .error noMeaning ↔
      readBytes cfg (growth cfg) countLevels (initial 0 sizes) s = .error noMeaning := by
  have text := ofText_ne_user 1
  have memory := ofMemory_ne_user 1
  rw [← inOrder_error_iff cfg text memory domCallback_ne_user,
    ← inOrder_error_iff cfg text memory countLevels_ne_user]
  have start : Counted .before (domInit ⟨[], treeAnswers⟩ domAnswers) 0 :=
    ⟨⟨rfl, rfl, rfl⟩, ⟨dom, tree⟩, rfl, Nat.zero_le _⟩
  have follows := (simulates_countLevels cfg).readBytes cfg
    (u := (Nesting.before, domInit ⟨[], treeAnswers⟩ domAnswers)) (v := (.before, 0)) ⟨rfl, start⟩
    (Eq.refl sizes) s
  exact follows.error_iff (fun _ _ => id) noMeaning

end

/-! ## Levels of a tree -/

/-- What `countLevels` comes to along events with so many levels, and no more open than before behind them. -/
def Counts (depth : Nat) (es : List Event) : Prop :=
  ∀ k, k ≤ 1024 → es.foldlM countLevels k = if k + depth ≤ 1024 then .ok k else .error noMeaning

theorem Counts.single {e : Event} (same : ∀ k, countLevels k e = .ok k) : Counts 0 [e] := by
  intro k few
  rw [Nat.add_zero, if_pos few]
  change (countLevels k e).bind pure = _
  rw [same]
  rfl

theorem Counts.append {depth depth' : Nat} {es es' : List Event} (first : Counts depth es)
    (more : Counts depth' es') : Counts (max depth depth') (es ++ es') := by
  intro k few
  rw [List.foldlM_append, first k few]
  by_cases below : k + depth ≤ 1024
  · rw [if_pos below]
    change es'.foldlM countLevels k = _
    rw [more k few]
    by_cases below' : k + depth' ≤ 1024
    · rw [if_pos below', if_pos (by omega)]
    · rw [if_neg below', if_neg (by omega)]
  · rw [if_neg below, if_neg (by omega)]
    rfl

/-- Between the beginning and the end of an array or an object. -/
theorem Counts.enclosed {depth : Nat} {es : List Event} (inner : Counts depth es) {first last : Event}
    (begins : ∀ k, countLevels k first = if k < 1024 then .ok (k + 1) else .error noMeaning)
    (ends : ∀ k, countLevels k last = .ok (k - 1)) : Counts (depth + 1) (first :: (es ++ [last])) := by
  intro k few
  change (countLevels k first).bind (fun k => (es ++ [last]).foldlM countLevels k) = _
  rw [begins]
  by_cases below : k < 1024
  · rw [if_pos below]
    change (es ++ [last]).foldlM countLevels (k + 1) = _
    rw [List.foldlM_append, inner (k + 1) below]
    by_cases inside : k + 1 + depth ≤ 1024
    · rw [if_pos inside, if_pos (by omega)]
      change (countLevels (k + 1) last).bind pure = _
      rw [ends]
      rfl
    · rw [if_neg inside, if_neg (by omega)]
      rfl
  · rw [if_neg below, if_neg (by omega)]
    rfl

mutual

theorem counts_tree : ∀ t : Tree, Counts t.depth t.events
  | .arr ts => by
    rw [Tree.events, Tree.depth]
    exact (counts_items ts).enclosed (fun _ => rfl) fun _ => rfl
  | .obj ms => by
    rw [Tree.events, Tree.depth]
    exact (counts_members ms).enclosed (fun _ => rfl) fun _ => rfl
  | .litNull | .litTrue | .litFalse | .int _ | .float _ | .str _ => .single fun _ => rfl

theorem counts_items : ∀ ts : List Tree, Counts (itemsDepth ts) (itemEvents ts)
  | [] => fun _ few => (if_pos few).symm
  | t :: ts => by
    rw [itemEvents, itemsDepth]
    exact (counts_tree t).append (counts_items ts)

theorem counts_members : ∀ ms : List (Bytes × Tree), Counts (membersDepth ms) (memberEvents ms)
  | [] => fun _ few => (if_pos few).symm
  | (k, t) :: ms => by
    have named : Counts 0 [⟨.key, k⟩] := .single fun _ => rfl
    have whole := named.append ((counts_tree t).append (counts_members ms))
    rwa [Nat.zero_max] at whole

end

/-! ## Files -/

section

variable {cfg : Config} {answers domAnswers treeAnswers : List Bool} {pieces : List Bytes} {t : Tree}
  {fuel : Nat}

/-- The whole text: its tree is at the root. -/
theorem builds_root (structure_ : t.IsStructure) (dom : ∀ a ∈ domAnswers, a = true)
    (tree : ∀ a ∈ treeAnswers, a = true) :
    Meets (fun d => ∃ v, d.rootStructure = some v ∧ t.At d.memory.vals 0 v ∧ t.depth ≤ 1024)
      (fun _ => 1024 < t.depth) (builds (domInit ⟨[], treeAnswers⟩ domAnswers) t.events) := by
  let d₀ : Dom Vals Nat := domInit ⟨[], treeAnswers⟩ domAnswers
  have fresh : d₀.Fresh := ⟨rfl, rfl⟩
  have whole : ∀ last, (∀ d, domCallback treeBuilder d last = domEnd treeBuilder d) →
      Meets (Filled t d₀) (fun _ => 1024 < d₀.stack.length + t.depth) (builds d₀ t.front) →
      Meets (fun d => ∃ v, d.rootStructure = some v ∧ t.At d.memory.vals 0 v ∧ t.depth ≤ 1024)
        (fun _ => 1024 < t.depth) (builds d₀ (t.front ++ [last])) := by
    intro last ends filled
    rw [builds_append]
    refine (filled.weaken fun _ deep => ?_).bind fun d inner => ?_
    · rwa [show d₀.stack.length = 0 from rfl, Nat.zero_add] at deep
    · have few := inner.few
      rw [show d₀.stack.length = 0 from rfl, Nat.zero_add] at few
      rw [builds_cons, ends, inner.root rfl]
      exact .ok ⟨0, rfl, inner.at_, few⟩
  cases t with
  | arr ts =>
    exact whole ⟨.arrayEnd, []⟩ (fun _ => rfl)
      ((builds_items ts).filled fresh ⟨dom, tree⟩ (Nat.zero_le _))
  | obj ms =>
    exact whole ⟨.objectEnd, []⟩ (fun _ => rfl)
      ((builds_members ms).filled fresh ⟨dom, tree⟩ (Nat.zero_le _))
  | _ => exact structure_.elim

/-- The parser of `do_tree`, and what it answers. -/
theorem doTree_result (unlimited : Unlimited cfg answers) (dom : ∀ a ∈ domAnswers, a = true) :
    doTree cfg answers domAnswers treeAnswers pieces =
      (readBytes cfg (growth cfg) (domCallback treeBuilder) (initial (domInit ⟨[], treeAnswers⟩ domAnswers.tail)
        (initSizes cfg answers.tail.tail)) pieces.flatten).map fun p =>
          if jsonParserIsDone p then some (p.userdata.rootStructure, p.userdata.memory) else none := by
  have given : domAnswers.headD true = true := by
    cases domAnswers with
    | nil => rfl
    | cons a as => exact dom a List.mem_cons_self
  unfold doTree
  rw [if_pos given, unlimited.init, ← processFile_result]
  rfl

/-- `do_tree` has no meaning for the files that open more than 1024 levels. -/
theorem doTree_noMeaning (unlimited : Unlimited cfg answers) (dom : ∀ a ∈ domAnswers, a = true)
    (tree : ∀ a ∈ treeAnswers, a = true) :
    doTree cfg answers domAnswers treeAnswers pieces = .error noMeaning ↔ OpensDeep cfg answers pieces := by
  have rest : ∀ a ∈ domAnswers.tail, a = true := fun a inside => dom a (List.mem_of_mem_tail inside)
  unfold OpensDeep
  rw [doTree_result unlimited dom, unlimited.init]
  change _ ↔ (processFile cfg (growth cfg) countLevels _ pieces).1 = _
  rw [processFile_result, ← dom_opens_deep rest tree]
  cases readBytes cfg (growth cfg) (domCallback treeBuilder) _ pieces.flatten with
  | ok p => constructor <;> rintro ⟨⟩
  | error e => rw [Except.map, Except.error.injEq, Except.error.injEq]

/-- A text of the dialect opens as many levels as its tree has. -/
theorem opensDeep_document (unlimited : Unlimited cfg answers) (short : pieces.flatten.length < 2 ^ 31)
    (document : Document pieces.flatten t) : OpensDeep cfg answers pieces ↔ 1024 < t.depth := by
  have told := @callback_result _ cfg countLevels 0 answers t pieces unlimited short document
  have counted := counts_tree t 0 (Nat.zero_le _)
  rw [Nat.zero_add] at counted
  rw [show List.foldlM countLevels 0 t.events = _ from counted] at told
  unfold OpensDeep
  by_cases few : t.depth ≤ 1024
  · rw [if_pos few] at told
    refine ⟨fun deep => ?_, fun deep => absurd few (Nat.not_le.2 deep)⟩
    rw [deep] at told
    cases told
  · rw [if_neg few] at told
    refine ⟨fun _ => Nat.not_le.1 few, fun _ => ?_⟩
    cases result : (jsonParserInit cfg 0 answers).bind fun p =>
        (processFile cfg (growth cfg) countLevels p pieces).1 with
    | error e =>
      rw [result] at told
      exact congrArg _ (Except.error.inj told)
    | ok p =>
      rw [result] at told
      cases told

/-- A text of the dialect of at most 1024 levels. -/
theorem lintTree_document (unlimited : Unlimited cfg answers) (dom : ∀ a ∈ domAnswers, a = true)
    (tree : ∀ a ∈ treeAnswers, a = true) (short : pieces.flatten.length < 2 ^ 31) (deep : 1024 < fuel)
    (document : Document pieces.flatten t) (few : t.depth ≤ 1024) :
    lintTree fuel cfg answers domAnswers treeAnswers pieces = some t.outline := by
  have rest : ∀ a ∈ domAnswers.tail, a = true := fun a inside => dom a (List.mem_of_mem_tail inside)
  have built := builds_root document.1 rest tree
  have told := @Unlimited.told _ _ (domCallback treeBuilder) (domInit ⟨[], treeAnswers⟩ domAnswers.tail)
    _ _ _ unlimited short document
  unfold lintTree
  rw [doTree_result unlimited dom]
  cases result : builds (domInit ⟨[], treeAnswers⟩ domAnswers.tail) t.events with
  | error e => exact absurd (built.failure result) (Nat.not_lt.2 few)
  | ok d =>
    obtain ⟨v, root, at_, -⟩ := built.result result
    rw [show List.foldlM _ _ t.events = _ from result] at told
    cases read : readBytes cfg (growth cfg) (domCallback treeBuilder)
        (initial (domInit ⟨[], treeAnswers⟩ domAnswers.tail) (initSizes cfg answers.tail.tail)) pieces.flatten with
    | error e =>
      rw [read] at told
      cases told
    | ok p =>
      rw [read] at told
      have same : (jsonParserIsDone p, p.userdata) = (true, d) := Except.ok.inj told
      obtain ⟨done, rfl⟩ := Prod.mk.inj same
      dsimp only [Except.map]
      rw [if_pos done]
      change printTree fuel (p.userdata.rootStructure, p.userdata.memory) = _
      unfold printTree
      rw [root]
      exact at_.prints (Nat.lt_of_le_of_lt few deep)

/-- `do_tree` returns 0 for texts of the dialect only. -/
theorem doTree_document (plain : cfg.Plain) (unlimited : Unlimited cfg answers)
    (dom : ∀ a ∈ domAnswers, a = true) {result : Option Nat × Vals}
    (returned : doTree cfg answers domAnswers treeAnswers pieces = .ok (some result)) :
    ∃ t, Document pieces.flatten t := by
  rw [doTree_result unlimited dom] at returned
  cases read : readBytes cfg (growth cfg) (domCallback treeBuilder)
      (initial (domInit ⟨[], treeAnswers⟩ domAnswers.tail) (initSizes cfg answers.tail.tail)) pieces.flatten with
  | error e =>
    rw [read] at returned
    cases returned
  | ok p =>
    rw [read] at returned
    have answer : (if jsonParserIsDone p = true then some (p.userdata.rootStructure, p.userdata.memory)
      else none) = some result := Except.ok.inj returned
    split at answer
    · rename_i done
      obtain ⟨t, document, -⟩ := accepted_document plain read done
      exact ⟨t, document⟩
    · cases answer

/-- **`jsonlint --tree` prints the outline of the tree of the text, for the texts of the dialect of at most
1024 levels. It prints nothing for the files that are no texts of the dialect and nowhere open more than 1024
levels, and what it does has no meaning for the files that do**, among them the texts of more levels, when
comments are not allowed, no limit is set and no memory is refused, up to 2 GiB. -/
theorem tree_printed (plain : cfg.Plain) (unlimited : Unlimited cfg answers)
    (dom : ∀ a ∈ domAnswers, a = true) (tree : ∀ a ∈ treeAnswers, a = true)
    (short : pieces.flatten.length < 2 ^ 31) (deep : 1024 < fuel) :
    (∀ t, Document pieces.flatten t → (OpensDeep cfg answers pieces ↔ 1024 < t.depth) ∧
        (t.depth ≤ 1024 → lintTree fuel cfg answers domAnswers treeAnswers pieces = some t.outline)) ∧
      ((¬ ∃ t, Document pieces.flatten t) → ¬ OpensDeep cfg answers pieces →
        lintTree fuel cfg answers domAnswers treeAnswers pieces = some []) ∧
      (OpensDeep cfg answers pieces → lintTree fuel cfg answers domAnswers treeAnswers pieces = none) := by
  have noMeaning_iff : doTree cfg answers domAnswers treeAnswers pieces = .error noMeaning ↔
      OpensDeep cfg answers pieces := doTree_noMeaning unlimited dom tree
  refine ⟨fun t document => ⟨opensDeep_document unlimited short document,
    lintTree_document unlimited dom tree short deep document⟩, fun other shallow => ?_, fun opens => ?_⟩
  · unfold lintTree
    cases result : doTree cfg answers domAnswers treeAnswers pieces with
    | error e =>
      have real : e ≠ noMeaning := fun same => shallow (noMeaning_iff.1 (result.trans (congrArg _ same)))
      exact if_neg real
    | ok returned =>
      cases returned with
      | none => rfl
      | some result' => exact absurd (doTree_document plain unlimited dom result) other
  · unfold lintTree
    rw [noMeaning_iff.2 opens]
    exact if_pos rfl

theorem tree_printed_nested :
    lintTree 1025 ⟨0, 0, 0, false, false⟩ [] [] [] [nestedText.take 4, nestedText.drop 4] =
      some nestedTree.outline := by
  have plain : Config.Plain ⟨0, 0, 0, false, false⟩ := ⟨rfl, rfl⟩
  have unlimited : Unlimited ⟨0, 0, 0, false, false⟩ [] := ⟨rfl, rfl, List.forall_mem_nil _⟩
  have document : Document [nestedText.take 4, nestedText.drop 4].flatten nestedTree := nested_document
  exact ((tree_printed plain unlimited (List.forall_mem_nil _) (List.forall_mem_nil _) (by decide)
    (by decide)).1 _ document).2 (by decide)

end

end SpiderFrame.Libjson
