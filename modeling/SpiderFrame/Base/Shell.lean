import Mathlib.Data.List.Infix

/-!
# Lines of the POSIX shell

A line is cut into its simple commands, and these into words: lists and pipelines, the three ways of
quoting, comments, redirections, assignments, parameters and the substitution `$(..)`, in which there
are commands again. A command of a substitution counts as a command of the line. A machine reads the
line byte by byte. It keeps what is open, the outermost last: double quotes, and the substitutions,
each with the command around it.

The machine has a reading only of lines that it reads as the shell does. Compound commands and
anything else that begins with a reserved word, `${..}` with more than a name in it, `$((..))`,
backquotes, here-documents, a backslash before a newline and commands whose name is the result of an
expansion are left out, and so are lines that are not in the grammar: there `commands` is `none`.

What the machine has cut off it never takes back (`run_done`), and in every state some few bytes
make it cut off one more command, if it goes on at all (`run_intrude`).
-/

namespace SpiderFrame.Base.Shell

abbrev Word := List (BitVec 8)

/-- The parts that bytes play. `connect` is `&` and `|`, `angle` is `<` and `>`, and `pattern` are
`*`, `?`, `[` and `~`. -/
inductive Letter where
  | blank | newline | backslash | single | double | hash | dollar | backquote
  | opening | closing | openBrace | closeBrace | semicolon | connect | angle | equals | pattern
  | digit | alpha | plain
  deriving DecidableEq

def letter (b : BitVec 8) : Letter :=
  if b = 32#8 ∨ b = 9#8 then .blank
  else if b = 10#8 then .newline
  else if b = 92#8 then .backslash
  else if b = 39#8 then .single
  else if b = 34#8 then .double
  else if b = 35#8 then .hash
  else if b = 36#8 then .dollar
  else if b = 96#8 then .backquote
  else if b = 40#8 then .opening
  else if b = 41#8 then .closing
  else if b = 123#8 then .openBrace
  else if b = 125#8 then .closeBrace
  else if b = 59#8 then .semicolon
  else if b = 38#8 ∨ b = 124#8 then .connect
  else if b = 60#8 ∨ b = 62#8 then .angle
  else if b = 61#8 then .equals
  else if b = 42#8 ∨ b = 63#8 ∨ b = 91#8 ∨ b = 126#8 then .pattern
  else if 48#8 ≤ b ∧ b ≤ 57#8 then .digit
  else if 65#8 ≤ b ∧ b ≤ 90#8 ∨ 97#8 ≤ b ∧ b ≤ 122#8 ∨ b = 95#8 then .alpha
  else .plain

/-- The name of a variable. -/
def isName : Word → Bool
  | [] => false
  | b :: bs => letter b == .alpha && bs.all fun b => letter b == .alpha || letter b == .digit

/-- `!`, `{`, `}`, `case`, `do`, `done`, `elif`, `else`, `esac`, `fi`, `for`, `if`, `in`, `then`,
`until`, `while`, and the words that may be reserved: `]]`, `function`, `namespace`, `select` and
`time`. -/
def reservedWords : List Word :=
  [[33#8], [123#8], [125#8],
    [99#8, 97#8, 115#8, 101#8],
    [100#8, 111#8],
    [100#8, 111#8, 110#8, 101#8],
    [101#8, 108#8, 105#8, 102#8],
    [101#8, 108#8, 115#8, 101#8],
    [101#8, 115#8, 97#8, 99#8],
    [102#8, 105#8],
    [102#8, 111#8, 114#8],
    [105#8, 102#8],
    [105#8, 110#8],
    [116#8, 104#8, 101#8, 110#8],
    [117#8, 110#8, 116#8, 105#8, 108#8],
    [119#8, 104#8, 105#8, 108#8, 101#8],
    [93#8, 93#8],
    [102#8, 117#8, 110#8, 99#8, 116#8, 105#8, 111#8, 110#8],
    [110#8, 97#8, 109#8, 101#8, 115#8, 112#8, 97#8, 99#8, 101#8],
    [115#8, 101#8, 108#8, 101#8, 99#8, 116#8],
    [116#8, 105#8, 109#8, 101#8]]

/-! ## Commands -/

/-- A word that is being read: whether a part of it is quoted, whether the shell expands something in
it, and whether it is an assignment. -/
structure Token where
  text : Word
  quoted : Bool
  expanded : Bool
  assignment : Bool
  deriving DecidableEq

/-- What the next word is to a redirection. -/
inductive Target where
  | nothing | file | descriptor
  deriving DecidableEq

/-- A simple command that is being read: its words, without assignments and redirections, and whether
there is one of these (`prefixed`). -/
structure Cmd where
  words : List Word
  token : Option Token
  target : Target
  prefixed : Bool
  deriving DecidableEq

namespace Cmd

def new : Cmd := ⟨[], none, .nothing, false⟩

def change (c : Cmd) (f : Token → Token) : Cmd :=
  { c with token := some (f (c.token.getD ⟨[], false, false, false⟩)) }

def put (c : Cmd) (bs : Word) : Cmd := c.change fun t => { t with text := t.text ++ bs }

def quote (c : Cmd) (bs : Word) : Cmd :=
  c.change fun t => { t with text := t.text ++ bs, quoted := true }

def expand (c : Cmd) (bs : Word) : Cmd :=
  c.change fun t => { t with text := t.text ++ bs, expanded := true }

/-- At a `=`: behind a name, in front of the words of the command, it makes an assignment. -/
def equals (c : Cmd) : Cmd :=
  c.change fun t =>
    { t with
      text := t.text ++ [61#8]
      assignment :=
        t.assignment || c.words.isEmpty && c.target == .nothing && !t.quoted && !t.expanded &&
          isName t.text }

/-- The first word of a command is its name. -/
def addWord (c : Cmd) (t : Token) : Option Cmd :=
  if t.assignment then some { c with token := none, prefixed := true }
  else if c.words.isEmpty && (t.expanded || !t.quoted && reservedWords.contains t.text) then none
  else some { c with words := c.words ++ [t.text], token := none }

/-- A word that is a number. -/
def number (c : Cmd) : Bool :=
  c.token.any fun t => !t.quoted && !t.text.isEmpty && t.text.all fun b => letter b == .digit

/-- The word is over. A descriptor is a number or `-`. -/
def endWord (c : Cmd) : Option Cmd :=
  match c.token, c.target with
  | none, _ => some c
  | some t, .nothing => c.addWord t
  | some _, .file => some { c with token := none, target := .nothing }
  | some t, .descriptor =>
    if c.number || t == ⟨[45#8], false, false, false⟩ then
      some { c with token := none, target := .nothing }
    else none

/-- At a `<` or `>`. A number in front of it belongs to it. -/
def redirect (c : Cmd) : Option Cmd := do
  let c ←
    if !c.number then c.endWord
    else if c.target = .nothing then some { c with token := none }
    else none
  if c.target = .nothing then some { c with target := .file, prefixed := true } else none

end Cmd

/-! ## The machine -/

/-- What is open: double quotes, or a substitution, with the command around it and whether that one
had to be there. -/
inductive Ctx where
  | double
  | group (outer : Cmd) (must : Bool)
  deriving DecidableEq

/-- How the next byte is read: `dollar` behind a `$`, `brace` in `${..}`, `group` behind `$(`,
`connect` behind a `&` or a `|`, the `pipe`, and `redirect` behind a `<` or a `>`, for `output`. -/
inductive Mode where
  | normal
  | escape
  | single
  | comment
  | dollar
  | brace (name : Word)
  | group
  | connect (pipe : Bool)
  | redirect (output : Bool)
  deriving DecidableEq

/-- `must` says that a command has to follow, as behind a `|`. -/
structure State where
  ctx : List Ctx
  mode : Mode
  must : Bool
  cmd : Cmd
  done : List (List Word)
  deriving DecidableEq

namespace State

def start : State := ⟨[], .normal, false, .new, []⟩

def put (s : State) (bs : Word) : State := { s with cmd := s.cmd.put bs }

def quote (s : State) (bs : Word) : State := { s with cmd := s.cmd.quote bs }

def expand (s : State) (bs : Word) : State := { s with cmd := s.cmd.expand bs }

/-- The command is over, at an operator. -/
def endCommand (s : State) : Option State := do
  let c ← s.cmd.endWord
  if c.target != .nothing || c.words.isEmpty && !c.prefixed then none
  else some { s with must := false, cmd := .new, done := s.done ++ [c.words] }

/-- At a newline. -/
def newline (s : State) : Option State :=
  if s.cmd = .new then some s else s.endCommand

/-- At a `)`: the last command of a substitution is over. -/
def leave (s : State) : Option State :=
  match s.ctx with
  | .group outer must :: ctx => do
    let s ← s.newline
    if s.must then none else some { s with ctx := ctx, must := must, cmd := outer }
  | _ => none

/-- A substitution begins. -/
def enter (s : State) : State :=
  { s with ctx := .group s.cmd s.must :: s.ctx, must := false, cmd := .new }

/-- A byte where a command stands. -/
def inCommand (s : State) (b : BitVec 8) : Option State :=
  match letter b with
  | .blank => s.cmd.endWord.map fun c => { s with cmd := c }
  | .newline => s.newline
  | .semicolon => s.endCommand
  | .connect => s.endCommand.map fun s => { s with mode := .connect (b == 124#8) }
  | .angle => s.cmd.redirect.map fun c => { s with cmd := c, mode := .redirect (b == 62#8) }
  | .backslash => some { s with mode := .escape }
  | .single => some { s.quote [] with mode := .single }
  | .double => some { s.quote [] with ctx := .double :: s.ctx }
  | .hash => some (if s.cmd.token = none then { s with mode := .comment } else s.put [b])
  | .dollar => some { s.expand [b] with mode := .dollar }
  | .closing => s.leave
  | .equals => some { s with cmd := s.cmd.equals }
  | .pattern => some (s.expand [b])
  | .backquote | .opening => none
  | _ => some (s.put [b])

/-- A byte in double quotes. -/
def inDouble (s : State) (ctx : List Ctx) (b : BitVec 8) : Option State :=
  match letter b with
  | .backslash => some { s with mode := .escape }
  | .dollar => some { s.expand [b] with mode := .dollar }
  | .backquote => none
  | .double => some { s with ctx := ctx }
  | _ => some (s.quote [b])

/-- A byte that the one before does not bear on. -/
def next (s : State) (b : BitVec 8) : Option State :=
  let s := { s with mode := .normal }
  match s.ctx with
  | .double :: ctx => s.inDouble ctx b
  | _ => s.inCommand b

/-- The byte behind a backslash. In double quotes the backslash stays, unless the byte is special. -/
def escaped (s : State) (b : BitVec 8) : Option State :=
  let s := { s with mode := .normal }
  match letter b, s.ctx with
  | .newline, _ => none
  | .dollar, _ | .backquote, _ | .double, _ | .backslash, _ => some (s.quote [b])
  | _, .double :: _ => some (s.quote [92#8, b])
  | _, _ => some (s.quote [b])

/-- The byte behind a `$`. `$$` is a parameter, and `$'` and `$"` are no quotes. -/
def afterDollar (s : State) (b : BitVec 8) : Option State :=
  match letter b, s.ctx with
  | .opening, _ => some { s with mode := .group }
  | .openBrace, _ => some { s.put [b] with mode := .brace [] }
  | .dollar, _ => some { s.put [b] with mode := .normal }
  | .single, .double :: _ | .double, .double :: _ => s.next b
  | .single, _ | .double, _ => none
  | _, _ => s.next b

/-- A byte in `${..}`, of a name or a number. -/
def inBrace (s : State) (name : Word) (b : BitVec 8) : Option State :=
  match letter b with
  | .alpha | .digit => some { s.put [b] with mode := .brace (name ++ [b]) }
  | .closeBrace =>
    if isName name || !name.isEmpty && name.all fun b => letter b == .digit then
      some { s.put [b] with mode := .normal }
    else none
  | _ => none

def connector (pipe : Bool) : BitVec 8 := if pipe then 124#8 else 38#8

/-- The byte behind a `&` or `|`: two of them are one operator, and a command follows all but `&`.
`&>` is left out, which some shells take for one operator. -/
def afterConnect (s : State) (pipe : Bool) (b : BitVec 8) : Option State :=
  if b = connector pipe then some { s with mode := .normal, must := true }
  else if b = 62#8 ∧ pipe = false then none
  else ({ s with must := pipe } : State).next b

/-- The byte behind a `<` or `>`, which may belong to the operator; `<<` is left out. -/
def afterRedirect (s : State) (output : Bool) (b : BitVec 8) : Option State :=
  if b = 60#8 then none
  else if b = 38#8 then
    some { s with mode := .normal, cmd := { s.cmd with target := .descriptor } }
  else if b = 62#8 ∨ b = 124#8 ∧ output then some { s with mode := .normal }
  else s.next b

def step (s : State) (b : BitVec 8) : Option State :=
  match s.mode with
  | .normal => s.next b
  | .escape => s.escaped b
  | .single => some (if letter b = .single then { s with mode := .normal } else s.quote [b])
  | .comment => if letter b = .newline then s.next b else some s
  | .dollar => s.afterDollar b
  | .brace name => s.inBrace name b
  | .group => if letter b = .opening then none else s.enter.next b
  | .connect pipe => s.afterConnect pipe b
  | .redirect output => s.afterRedirect output b

def run (s : State) (line : Word) : Option State := line.foldlM step s

end State

/-- The simple commands of a line, by their words. The end of the line is a newline. -/
def commands (line : Word) : Option (List (List Word)) := do
  let s ← State.start.run (line ++ [10#8])
  if s.ctx = [] ∧ s.mode = .normal ∧ s.must = false then some s.done else none

/-- The names of the commands; one that consists of assignments and redirections has none. -/
def commandNames (line : Word) : Option (List (Option Word)) :=
  (commands line).map fun cs => cs.map List.head?

/-- `./a 'b;c' "d $(X=1 e)" 2>&1 | f # g`. -/
example : commands ([46#8, 47#8, 97#8, 32#8, 39#8, 98#8, 59#8, 99#8, 39#8, 32#8, 34#8, 100#8, 36#8,
    40#8, 88#8, 61#8, 49#8, 32#8, 101#8, 41#8, 34#8, 32#8, 50#8, 62#8, 38#8, 49#8, 32#8, 124#8,
    32#8, 102#8, 32#8, 35#8, 32#8, 103#8]) =
    some [[[101#8]], [[46#8, 47#8, 97#8], [98#8, 59#8, 99#8], [100#8, 36#8]], [[102#8]]] := by
  decide

/-! ## What has been cut off stays -/

namespace State

theorem run_cons (s : State) (b : BitVec 8) (line : Word) :
    s.run (b :: line) = (s.step b).bind fun s => s.run line := List.foldlM_cons

theorem run_append (s : State) (front rest : Word) :
    s.run (front ++ rest) = (s.run front).bind fun s => s.run rest := List.foldlM_append

/-- What has been cut off is still there, if the machine goes on. -/
def Keeps (s : State) (result : Option State) : Prop := ∀ s' ∈ result, s.done <+: s'.done

theorem keeps_none (s : State) : s.Keeps none := fun _ none_ => by cases none_

theorem keeps_some {s s' : State} (same : s'.done = s.done) : s.Keeps (some s') := by
  intro _ some_
  cases some_
  rw [same]

theorem Keeps.map {s : State} {result : Option State} (h : s.Keeps result) {f : State → State}
    (same : ∀ s, (f s).done = s.done) : s.Keeps (result.map f) := by
  intro s' mapped
  obtain ⟨s₁, some_, rfl⟩ := Option.map_eq_some_iff.1 mapped
  rw [same]
  exact h s₁ some_

theorem endCommand_keeps (s : State) : s.Keeps s.endCommand := by
  intro s' ended
  obtain ⟨c, -, rest⟩ := Option.bind_eq_some_iff.1 ended
  split at rest
  · cases rest
  · cases rest
    exact List.prefix_append _ _

theorem newline_keeps (s : State) : s.Keeps s.newline := by
  unfold newline
  split
  · exact keeps_some rfl
  · exact s.endCommand_keeps

theorem leave_keeps (s : State) : s.Keeps s.leave := by
  unfold leave
  split
  · intro s' left
    obtain ⟨s₁, ended, rest⟩ := Option.bind_eq_some_iff.1 left
    split at rest
    · cases rest
    · cases rest
      exact s.newline_keeps s₁ ended
  · exact s.keeps_none

/-- The command changes, if that is possible. -/
theorem keeps_cmd (s : State) (c : Option Cmd) {f : Cmd → State} (same : ∀ c, (f c).done = s.done) :
    s.Keeps (c.map f) := by
  cases c with
  | none => exact s.keeps_none
  | some c => exact keeps_some (same c)

theorem inCommand_keeps (s : State) (b : BitVec 8) : s.Keeps (s.inCommand b) := by
  unfold inCommand
  cases letter b with
  | blank | angle => exact s.keeps_cmd _ fun _ => rfl
  | newline => exact s.newline_keeps
  | semicolon => exact s.endCommand_keeps
  | connect => exact s.endCommand_keeps.map fun _ => rfl
  | closing => exact s.leave_keeps
  | backquote | opening => exact s.keeps_none
  | hash =>
    apply keeps_some
    split <;> rfl
  | _ => exact keeps_some rfl

theorem next_keeps (s : State) (b : BitVec 8) : s.Keeps (s.next b) := by
  unfold next
  dsimp only
  split
  · unfold inDouble
    split
    case h_3 => exact s.keeps_none
    all_goals exact keeps_some rfl
  · exact inCommand_keeps { s with mode := .normal } b

theorem escaped_keeps (s : State) (b : BitVec 8) : s.Keeps (s.escaped b) := by
  unfold escaped
  dsimp only
  split
  case h_1 => exact s.keeps_none
  all_goals exact keeps_some rfl

theorem afterDollar_keeps (s : State) (b : BitVec 8) : s.Keeps (s.afterDollar b) := by
  unfold afterDollar
  split
  case h_1 | h_2 | h_3 => exact keeps_some rfl
  case h_6 | h_7 => exact s.keeps_none
  all_goals exact s.next_keeps b

theorem inBrace_keeps (s : State) (name : Word) (b : BitVec 8) : s.Keeps (s.inBrace name b) := by
  unfold inBrace
  split
  case h_3 =>
    split
    · exact keeps_some rfl
    · exact s.keeps_none
  case h_4 => exact s.keeps_none
  all_goals exact keeps_some rfl

theorem step_keeps (s : State) (b : BitVec 8) : s.Keeps (s.step b) := by
  unfold step
  split
  · exact s.next_keeps b
  · exact s.escaped_keeps b
  · apply keeps_some
    split <;> rfl
  · split
    · exact s.next_keeps b
    · exact keeps_some rfl
  · exact s.afterDollar_keeps b
  · exact s.inBrace_keeps _ b
  · split
    · exact s.keeps_none
    · exact s.enter.next_keeps b
  · unfold afterConnect
    split
    · exact keeps_some rfl
    · split
      · exact s.keeps_none
      · exact next_keeps { s with must := _ } b
  · unfold afterRedirect
    split
    · exact s.keeps_none
    · split
      · exact keeps_some rfl
      · split
        · exact keeps_some rfl
        · exact s.next_keeps b

/-- **A command that has been cut off stays.** -/
theorem run_done {s s' : State} {line : Word} (run : s.run line = some s') : s.done <+: s'.done := by
  induction line generalizing s with
  | nil =>
    cases run
    exact List.prefix_rfl
  | cons b line ih =>
    rw [run_cons] at run
    obtain ⟨s₁, first, rest⟩ := Option.bind_eq_some_iff.1 run
    exact (s.step_keeps b s₁ first).trans (ih rest)

/-! ## One more command -/

/-- `$(x)`. -/
def substitution : Word := [36#8, 40#8, 120#8, 41#8]

/-- What brings the machine to where a `$` is one. -/
def opener (s : State) : Word :=
  match s.mode with
  | .escape | .dollar => [97#8]
  | .single => [39#8]
  | .comment => [10#8]
  | _ => []

/-- Bytes that make one more command. -/
def intruder (s : State) : Word := s.opener ++ substitution

theorem intruder_length (s : State) : s.intruder.length ≤ 5 := by
  unfold intruder opener
  split <;> decide

theorem intruder_noNul (s : State) : 0#8 ∉ s.intruder := by
  unfold intruder opener
  split <;> decide

/-- Where a `$` is one, it waits for the next byte. -/
theorem next_dollar {s s' : State} (dollar : s.next 36#8 = some s') : s'.mode = .dollar := by
  have part : letter 36#8 = .dollar := by decide
  unfold next inDouble inCommand at dollar
  rw [part] at dollar
  dsimp only at dollar
  split at dollar <;> cases dollar <;> rfl

theorem newline_mode {s s' : State} (ended : s.newline = some s') : s'.mode = s.mode := by
  unfold newline at ended
  split at ended
  · cases ended
    rfl
  · obtain ⟨c, -, rest⟩ := Option.bind_eq_some_iff.1 ended
    split at rest
    · cases rest
    · cases rest
      rfl

theorem next_newline {s s' : State} (went : s.next 10#8 = some s') : s'.mode = .normal := by
  have part : letter 10#8 = .newline := by decide
  unfold next inDouble inCommand at went
  rw [part] at went
  dsimp only at went
  split at went
  · cases went
    rfl
  · exact newline_mode went

theorem next_alpha {s s' : State} (went : s.next 97#8 = some s') : s'.mode = .normal := by
  have part : letter 97#8 = .alpha := by decide
  unfold next inDouble inCommand at went
  rw [part] at went
  dsimp only at went
  split at went <;> cases went <;> rfl

theorem escaped_alpha {s s' : State} (went : s.escaped 97#8 = some s') : s'.mode = .normal := by
  have part : letter 97#8 = .alpha := by decide
  unfold escaped at went
  rw [part] at went
  dsimp only at went
  split at went <;> cases went <;> rfl

theorem run_one {s : State} {b : BitVec 8} : s.run [b] = s.step b := by
  rw [run_cons]
  exact Option.bind_fun_some _

/-- The opener leads to where a `$` is one. -/
theorem run_opener {s s' : State} (run : s.run s.opener = some s') : s'.opener = [] := by
  have plain : s'.mode = .normal → s'.opener = [] := fun mode => by rw [opener, mode]
  unfold opener at run
  cases mode : s.mode with
  | escape =>
    rw [mode, run_one, step, mode] at run
    exact plain (escaped_alpha run)
  | dollar =>
    rw [mode, run_one, step, mode] at run
    exact plain (next_alpha run)
  | single =>
    rw [mode, run_one, step, mode] at run
    cases run
    rfl
  | comment =>
    rw [mode, run_one, step, mode] at run
    exact plain (next_newline run)
  | _ =>
    rw [mode] at run
    cases run
    rw [opener, mode]

theorem step_dollar {s s' : State} (plain : s.opener = []) (went : s.step 36#8 = some s') :
    s'.mode = .dollar := by
  cases mode : s.mode with
  | escape | single | comment | dollar =>
    rw [opener, mode] at plain
    cases plain
  | normal | redirect =>
    rw [step, mode] at went
    exact next_dollar went
  | group =>
    have other : letter 36#8 ≠ .opening := by decide
    rw [step, mode] at went
    dsimp only at went
    rw [if_neg other] at went
    exact next_dollar went
  | brace name =>
    rw [step, mode] at went
    cases went
  | connect pipe =>
    rw [step, mode] at went
    cases pipe <;> exact next_dollar went

/-- Behind the `$` the command `x` is read and cut off. -/
theorem run_group {s s' : State} (mode : s.mode = .dollar)
    (run : s.run [40#8, 120#8, 41#8] = some s') : [[120#8]] ∈ s'.done := by
  have opened : s.step 40#8 = some { s with mode := .group } := by
    rw [step, mode]
    rfl
  rw [run_cons, opened] at run
  cases run
  exact List.mem_append_right _ (List.mem_singleton.2 rfl)

/-- **In every state a few bytes make one more command, if the machine goes on.** -/
theorem run_intrude {s s' : State} (run : s.run s.intruder = some s') : [[120#8]] ∈ s'.done := by
  rw [intruder, run_append] at run
  obtain ⟨s₁, opened, rest⟩ := Option.bind_eq_some_iff.1 run
  rw [substitution, run_cons] at rest
  obtain ⟨s₂, dollar, group⟩ := Option.bind_eq_some_iff.1 rest
  exact run_group (step_dollar (run_opener opened) dollar) group

end State

/-- **Wherever a line has come to, some few bytes make it a line with one more command, or none.** -/
theorem commandNames_intrude (front : Word) : ∃ text : Word, text.length ≤ 5 ∧ 0#8 ∉ text ∧
    ∀ rest names, commandNames (front ++ (text ++ rest)) = some names → some [120#8] ∈ names := by
  cases before : State.start.run front with
  | none =>
    refine ⟨[], Nat.zero_le _, List.not_mem_nil, fun rest names line => ?_⟩
    obtain ⟨cs, whole, -⟩ := Option.map_eq_some_iff.1 line
    obtain ⟨s, run, -⟩ := Option.bind_eq_some_iff.1 whole
    rw [List.append_assoc, State.run_append, before] at run
    cases run
  | some s =>
    refine ⟨s.intruder, s.intruder_length, s.intruder_noNul, fun rest names line => ?_⟩
    obtain ⟨cs, whole, rfl⟩ := Option.map_eq_some_iff.1 line
    obtain ⟨last, run, ends⟩ := Option.bind_eq_some_iff.1 whole
    rw [List.append_assoc, List.append_assoc, State.run_append, before, Option.bind_some,
      State.run_append] at run
    obtain ⟨s₁, intruded, later⟩ := Option.bind_eq_some_iff.1 run
    have stays := (State.run_done later).subset (State.run_intrude intruded)
    split at ends
    · cases ends
      exact List.mem_map_of_mem stays
    · cases ends

end SpiderFrame.Base.Shell
