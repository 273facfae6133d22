import SpiderFrame.Base.Shell
import SpiderFrame.Page.Perform
import SpiderFrame.Page.Substitution

/-!
# The command of a trigger (`sf_pcre_perform` in `sf_pcre.c`)

`popen` gets `./program args`, in which `args` is expanded and nothing is quoted. So what a page has
put into a variable becomes part of a line of the shell. Two tables with the same names, which
differ in captured texts alone, give commands of the program only if and only if the line has no
other command and names no captured variable (`command_fixed_iff`).
-/

namespace SpiderFrame.Page
open SpiderFrame.Base SpiderFrame.Var

variable {Re : Type}

/-- `./program`. -/
def commandName (program : CString) : List Byte := 46#8 :: 47#8 :: program.bytes

/-- `sprintf(cmd, "./%s %s", trig->program, args)`. -/
def triggerLine (fuel : Nat) (m : VarMem) (handle : Option Nat) (trig : Trigger) :
    Option CString := do
  let args ← sfVarExp fuel m handle trig.args
  let program ← trig.program
  pure (.ofBytes (46#8 :: 47#8 :: (program.bytes ++ 32#8 :: args.bytes)))

/-- The line is what a trigger gives to `popen`. -/
theorem runTrigger_line (env : Env Re) (fuel : Nat) (r : Ref) (trig : Trigger) :
    runTrigger env fuel r trig = (do
      let _ ← poolOf r
      let w ← Prog.get
      let cmd ← Prog.ofOption (triggerLine fuel w.vars (w.spider r).varHandle trig)
      let result ← outside fun n => env.popen n cmd
      match result, trig.storeAs with
      | some result, some name => setVar fuel r name (some (.ofBytes (result.take 1000)))
      | _, _ => pure ()) := by
  unfold runTrigger expand triggerLine
  congr 1
  funext pool w
  rw [Prog.bind_assoc, Prog.get_bind, Prog.get_bind]
  cases sfVarExp fuel w.vars (w.spider r).varHandle trig.args with
  | none => rfl
  | some args =>
    cases trig.program with
    | none => rfl
    | some program => rfl

/-! ## Two tables -/

/-- The same names, and the same values but for captured variables. -/
structure Alike (captured : CString → Prop) (vars vars' : List VarTable) : Prop where
  names : ∀ name, (lookup vars' name).isSome = (lookup vars name).isSome
  values : ∀ name, ¬ captured name → lookup vars' name = lookup vars name

/-- A line that is read, of so many commands, all of the program. -/
def OnlyProgram (program cmd : CString) (n : Nat) : Prop :=
  Shell.commandNames cmd.bytes = some (List.replicate n (some (commandName program)))

/-- With the table and with any other one that differs in captured texts alone, the line has equally
many commands, and all of the program. -/
def CommandFixed (captured : CString → Prop) (trig : Trigger) (program : CString) (fuel : Nat)
    (m : VarMem) (handle : Option Nat) (vars : List VarTable) : Prop :=
  ∀ {fuel' m' handle' l' vars'}, TableAt m' handle' l' vars' → l'.length ≤ fuel' →
    Alike captured vars vars' → ∀ {cmd cmd'}, triggerLine fuel m handle trig = some cmd →
      triggerLine fuel' m' handle' trig = some cmd' →
        ∃ n, OnlyProgram program cmd n ∧ OnlyProgram program cmd' n

/-- No captured variable is named in the template and has a value. -/
def NamesNoCapture (captured : CString → Prop) (vars : List VarTable) (args : CString) : Prop :=
  ∀ name ∈ references 40#8 36#8 41#8 args.bytes, captured (varName name) →
    lookup vars (varName name) = none

/-- As it stands, the line has commands of the program alone, and its template names no captured
variable. -/
structure PlainLine (captured : CString → Prop) (trig : Trigger) (program args : CString)
    (fuel : Nat) (m : VarMem) (handle : Option Nat) (vars : List VarTable) : Prop where
  free : NamesNoCapture captured vars args
  only : ∀ cmd, triggerLine fuel m handle trig = some cmd → ∃ n, OnlyProgram program cmd n

section Line

variable {captured : CString → Prop} {fuel fuel' : Nat} {m m' : VarMem}
  {handle handle' : Option Nat} {l l' : List Nat} {vars vars' : List VarTable} {trig : Trigger}
  {program args : CString}

theorem Alike.refl (captured : CString → Prop) (vars : List VarTable) :
    Alike captured vars vars := ⟨fun _ => rfl, fun _ _ => rfl⟩

theorem Alike.trans {vars'' : List VarTable} (h : Alike captured vars vars')
    (h' : Alike captured vars' vars'') : Alike captured vars vars'' :=
  ⟨fun name => (h'.names name).trans (h.names name),
    fun name own => (h'.values name own).trans (h.values name own)⟩

/-! ## A line without captured texts -/

/-- Each table has a variable or neither has. -/
theorem Alike.nil_iff (alike : Alike captured vars vars') : vars' = [] ↔ vars = [] := by
  have empty : ∀ {env : List VarTable}, env = [] ↔ ∀ name, (lookup env name).isSome = false := by
    intro env
    constructor
    · rintro rfl name
      rfl
    · intro none_
      cases env with
      | nil => rfl
      | cons v env => simpa [lookup] using none_ v.name
  rw [empty, empty]
  simp only [alike.names]

/-- What a reference becomes in a table that is not empty. -/
theorem expandPiece_table (table : TableAt m handle l vars) (some_ : vars ≠ [])
    (enough : l.length ≤ fuel) (dststr name : List Byte) :
    expandPiece fuel m handle dststr (.reference name) =
      let text := (Piece.reference name).value 40#8 36#8 41#8 (varValue vars)
      some (if dststr.length + text.length < maxVarSize then dststr ++ text else dststr) := by
  rw [expandPiece_reference, sfVarSearch_table table (handle_ne_none table some_) enough,
    Option.map_some, varText_find, table.vars]

/-- In an empty one the search has no value. -/
theorem expandPiece_nil (table : TableAt m handle l []) (dststr name : List Byte) :
    expandPiece fuel m handle dststr (.reference name) = none := by
  rw [expandPiece_reference, table.ringAt.nil_iff.2 (List.map_eq_nil_iff.1 table.vars)]
  rfl

/-- One piece becomes the same with both. -/
theorem expandPiece_alike (table : TableAt m handle l vars) (enough : l.length ≤ fuel)
    (table' : TableAt m' handle' l' vars') (enough' : l'.length ≤ fuel')
    (alike : Alike captured vars vars') {p : Piece Byte}
    (free : ∀ name ∈ p.name?, captured (varName name) → lookup vars (varName name) = none)
    (dststr : List Byte) :
    expandPiece fuel' m' handle' dststr p = expandPiece fuel m handle dststr p := by
  cases p with
  | letter a => rfl
  | unclosed as => rfl
  | reference name =>
    have same : lookup vars' (varName name) = lookup vars (varName name) := by
      by_cases text : captured (varName name)
      · have none_ := free name rfl text
        have none' := alike.names (varName name)
        rw [none_] at none' ⊢
        exact Option.not_isSome_iff_eq_none.1 (by rw [none']; decide)
      · exact alike.values _ text
    by_cases ne : vars = []
    · have ne' := alike.nil_iff.2 ne
      subst ne ne'
      rw [expandPiece_nil table, expandPiece_nil table']
    · have ne' : vars' ≠ [] := fun e => ne (alike.nil_iff.1 e)
      rw [expandPiece_table table ne enough, expandPiece_table table' ne' enough', Piece.value,
        Piece.value, varValue, varValue, same]

/-- A template without captured variables gives the same line with both. -/
theorem triggerLine_alike (table : TableAt m handle l vars) (enough : l.length ≤ fuel)
    (table' : TableAt m' handle' l' vars') (enough' : l'.length ≤ fuel')
    (alike : Alike captured vars vars') (template : trig.args = some args)
    (free : NamesNoCapture captured vars args) :
    triggerLine fuel' m' handle' trig = triggerLine fuel m handle trig := by
  have pieces_ : ∀ {ps : List (Piece Byte)}, ps ⊆ varPieces args.bytes → ∀ dststr,
      ps.foldlM (expandPiece fuel' m' handle') dststr =
        ps.foldlM (expandPiece fuel m handle) dststr := by
    intro ps inside
    induction ps with
    | nil => exact fun _ => rfl
    | cons p ps ih =>
      intro dststr
      rw [List.cons_subset] at inside
      have own : ∀ name ∈ p.name?, captured (varName name) → lookup vars (varName name) = none :=
        fun name named => free name (List.mem_filterMap.2 ⟨p, inside.1, named⟩)
      rw [List.foldlM_cons, List.foldlM_cons,
        expandPiece_alike table enough table' enough' alike own]
      congr 1
      funext dststr
      exact ih inside.2 dststr
  have same : sfVarExp fuel' m' handle' trig.args = sfVarExp fuel m handle trig.args := by
    rw [template, sfVarExp, sfVarExp, Option.bind_some, Option.bind_some,
      pieces_ (List.Subset.refl _)]
  rw [triggerLine, triggerLine, same]

/-! ## A captured text in a line -/

/-- The line with a template that fits. -/
theorem triggerLine_substitutes (table : TableAt m handle l vars) (some_ : vars ≠ [])
    (enough : l.length ≤ fuel) (template : trig.args = some args)
    (named : trig.program = some program)
    (short : (varSubstitution vars args).length < maxVarSize) :
    ∃ cmd, triggerLine fuel m handle trig = some cmd ∧
      cmd.bytes = commandName program ++ 32#8 :: varSubstitution vars args := by
  have clean : 0#8 ∉ commandName program ++ 32#8 :: varSubstitution vars args := by
    simp only [commandName, List.cons_append, List.mem_cons, List.mem_append, not_or]
    exact ⟨by decide, by decide, program.noNul, by decide, varSubstitution_noNul vars args⟩
  refine ⟨.ofBytes (commandName program ++ 32#8 :: varSubstitution vars args), ?_,
    noNul_bytes clean⟩
  rw [← table.vars] at short ⊢
  rw [triggerLine, template, named,
    sfVarExp_substitutes table.ringAt (handle_ne_none table some_) enough short]
  show some (CString.ofBytes _) = _
  rw [noNul_bytes (varSubstitution_noNul _ args), table.vars]
  rfl

/-! ## Another value for one variable -/

/-- This text under the name. -/
def setValue (name text : CString) (v : VarTable) : VarTable :=
  if v.name = name then { v with value := text } else v

theorem setValue_name (name text : CString) (v : VarTable) :
    (setValue name text v).name = v.name := by
  unfold setValue
  split <;> rfl

theorem table_setValue (table : TableAt m handle l vars) (name text : CString) :
    TableAt { m with vars := fun a => setValue name text (m.vars a) } handle l
      (vars.map (setValue name text)) := by
  refine ⟨table.ringAt, table.taken, ?_, ?_⟩
  · rw [← table.vars, List.map_map]
    rfl
  · have names : VarTable.name ∘ setValue name text = VarTable.name := by
      funext v
      exact setValue_name name text v
    rw [List.map_map, names]
    exact table.distinct

theorem lookup_setValue (vars : List VarTable) (name text name' : CString) :
    lookup (vars.map (setValue name text)) name' =
      (lookup vars name').map (setValue name text) := by
  rw [lookup, List.find?_map, lookup]
  congr 2
  funext v
  simp [setValue_name]

theorem alike_setValue {name : CString} (text : captured name) (value : CString) :
    Alike captured vars (vars.map (setValue name value)) := by
  constructor
  · intro name'
    rw [lookup_setValue, Option.isSome_map]
  · intro name' other
    rw [lookup_setValue]
    cases found : lookup vars name' with
    | none => rfl
    | some v =>
      have named : v.name = name' := by simpa using List.find?_some found
      have ne : v.name ≠ name := fun same => other (named.symm.trans same ▸ text)
      rw [Option.map_some, setValue, if_neg ne]

/-- The value of a piece with another text under the name. -/
theorem value_setValue (name text : CString) (p : Piece Byte) :
    p.value 40#8 36#8 41#8 (varValue (vars.map (setValue name text))) =
      if p.name?.map varName = some name ∧ (lookup vars name).isSome then text.bytes
      else p.value 40#8 36#8 41#8 (varValue vars) := by
  cases p with
  | letter a => rfl
  | unclosed as => rfl
  | reference name' =>
    have bound : (Piece.reference name').name?.map varName = some (varName name') := rfl
    rw [bound, Piece.value, Piece.value, varValue, varValue, lookup_setValue]
    cases found : lookup vars (varName name') with
    | none =>
      rw [if_neg]
      · rfl
      · rintro ⟨same, known⟩
        rw [← Option.some.inj same, found] at known
        cases known
    | some v =>
      have named : v.name = varName name' := by simpa using List.find?_some found
      by_cases same : varName name' = name
      · subst same
        rw [if_pos ⟨rfl, by rw [found]; rfl⟩, Option.map_some, Option.map_some, setValue,
          if_pos named]
        rfl
      · rw [if_neg fun both => same (Option.some.inj both.1), Option.map_some, setValue,
          if_neg fun e => same (named.symm.trans e)]

/-- The expansion grows by the text in each piece at most. -/
theorem setValue_length (vars : List VarTable) (name text : CString) (ps : List (Piece Byte)) :
    (ps.flatMap (Piece.value 40#8 36#8 41#8 (varValue (vars.map (setValue name text))))).length ≤
      (ps.flatMap (Piece.value 40#8 36#8 41#8 (varValue vars))).length +
        text.bytes.length * ps.length := by
  induction ps with
  | nil => exact Nat.zero_le _
  | cons p ps ih =>
    have one : (p.value 40#8 36#8 41#8 (varValue (vars.map (setValue name text)))).length ≤
        (p.value 40#8 36#8 41#8 (varValue vars)).length + text.bytes.length := by
      rw [value_setValue]
      split <;> omega
    rw [List.flatMap_cons, List.flatMap_cons, List.length_append, List.length_append,
      List.length_cons, Nat.mul_succ]
    omega

/-- The first reference to a variable: what stands before it does not depend on the value. -/
theorem substitution_setValue {name : List Byte}
    (listed : name ∈ references 40#8 36#8 41#8 args.bytes)
    (known : (lookup vars (varName name)).isSome) :
    ∃ front, ∀ text : CString, ∃ rest,
      varSubstitution (vars.map (setValue (varName name) text)) args =
        front ++ (text.bytes ++ rest) := by
  obtain ⟨first, here, same⟩ := List.mem_filterMap.1 listed
  have some_ : ((varPieces args.bytes).find? fun p =>
      p.name?.map varName = some (varName name)).isSome :=
    List.find?_isSome.2 ⟨first, here, by simp [same]⟩
  obtain ⟨p, found⟩ := Option.isSome_iff_exists.1 some_
  obtain ⟨own, ps, ps', cut, before⟩ := List.find?_eq_some_iff_append.1 found
  refine ⟨ps.flatMap (Piece.value 40#8 36#8 41#8 (varValue vars)), fun text => ?_⟩
  refine ⟨ps'.flatMap
    (Piece.value 40#8 36#8 41#8 (varValue (vars.map (setValue (varName name) text)))), ?_⟩
  have unchanged : ps.flatMap
      (Piece.value 40#8 36#8 41#8 (varValue (vars.map (setValue (varName name) text)))) =
      ps.flatMap (Piece.value 40#8 36#8 41#8 (varValue vars)) := by
    apply List.flatMap_congr
    intro q inside
    have other := before q inside
    rw [value_setValue, if_neg]
    rintro ⟨own', -⟩
    simp [own'] at other
  rw [varSubstitution_pieces, cut, List.flatMap_append, List.flatMap_cons, unchanged,
    value_setValue, if_pos ⟨by simpa using own, known⟩]

/-- With a captured variable in the template, some text makes one more command. -/
theorem exists_intruding (table : TableAt m handle l vars) (enough : l.length ≤ fuel)
    (named : trig.program = some program) (template : trig.args = some args)
    (room : (varSubstitution vars args).length + 5 * (varPieces args.bytes).length < maxVarSize)
    {name : List Byte} (listed : name ∈ references 40#8 36#8 41#8 args.bytes)
    (known : (lookup vars (varName name)).isSome) :
    ∃ (text cmd : CString) (m' : VarMem),
      TableAt m' handle l (vars.map (setValue (varName name) text)) ∧
      triggerLine fuel m' handle trig = some cmd ∧ ∀ n, ¬ OnlyProgram program cmd n := by
  have some_ : vars ≠ [] := by
    rintro rfl
    cases known
  obtain ⟨front, behind⟩ := substitution_setValue listed known
  -- the text is chosen for what the shell has read before the reference
  obtain ⟨text, small, noNul, intrudes⟩ :=
    Shell.commandNames_intrude (commandName program ++ 32#8 :: front)
  obtain ⟨rest, whole⟩ := behind ⟨text, noNul⟩
  have changed := table_setValue table (varName name) ⟨text, noNul⟩
  have short : (varSubstitution (vars.map (setValue (varName name) ⟨text, noNul⟩)) args).length <
      maxVarSize := by
    have grown := setValue_length vars (varName name) ⟨text, noNul⟩ (varPieces args.bytes)
    have few := Nat.mul_le_mul_right (varPieces args.bytes).length small
    rw [← varSubstitution_pieces, ← varSubstitution_pieces] at grown
    dsimp only at grown
    omega
  obtain ⟨cmd, line, bytes⟩ :=
    triggerLine_substitutes changed (by simpa using some_) enough template named short
  refine ⟨⟨text, noNul⟩, cmd, _, changed, line, fun n only => ?_⟩
  have cut : cmd.bytes = (commandName program ++ 32#8 :: front) ++ (text ++ rest) := by
    rw [bytes, whole]
    simp
  rw [OnlyProgram, cut] at only
  cases List.eq_of_mem_replicate (intrudes rest _ only)

/-- **The commands are fixed when the line as it stands has no other one and names no captured
variable; they are fixed only then, if some captured texts leave room for a few bytes.** -/
theorem command_fixed_iff (table : TableAt m handle l vars) (enough : l.length ≤ fuel)
    (named : trig.program = some program) (template : trig.args = some args) :
    (PlainLine captured trig program args fuel m handle vars →
      CommandFixed captured trig program fuel m handle vars) ∧
    ∀ {cmd m₀ handle₀ l₀ vars₀}, triggerLine fuel m handle trig = some cmd →
      TableAt m₀ handle₀ l₀ vars₀ → l₀.length ≤ fuel → Alike captured vars vars₀ →
      (varSubstitution vars₀ args).length + 5 * (varPieces args.bytes).length < maxVarSize →
      CommandFixed captured trig program fuel m handle vars →
        PlainLine captured trig program args fuel m handle vars := by
  constructor
  · intro plain fuel' m' handle' l' vars' table' enough' alike cmd cmd' line line'
    rw [triggerLine_alike table enough table' enough' alike template plain.free, line] at line'
    cases line'
    obtain ⟨n, all⟩ := plain.only cmd line
    exact ⟨n, all, all⟩
  · intro cmd m₀ handle₀ l₀ vars₀ line table₀ enough₀ alike₀ room fixed
    refine ⟨fun name listed text => ?_, fun cmd line => ?_⟩
    · by_contra bound
      have known : (lookup vars₀ (varName name)).isSome := by
        rw [alike₀.names]
        exact Option.isSome_iff_ne_none.2 bound
      obtain ⟨text', cmd', m', changed, line', other⟩ :=
        exists_intruding table₀ enough₀ named template room listed known
      obtain ⟨n, -, only⟩ :=
        fixed changed enough₀ (alike₀.trans (alike_setValue text text')) line line'
      exact other n only
    · obtain ⟨n, all, -⟩ := fixed table enough (.refl captured vars) line line
      exact ⟨n, all⟩

end Line

/-! ## Two pages -/

/-- Any variables with distinct names are in some table. -/
theorem exists_table {vars : List VarTable} (distinct : (vars.map VarTable.name).Nodup) :
    ∃ m handle l, TableAt m handle l vars := by
  induction vars using List.reverseRecOn with
  | nil =>
    exact ⟨⟨⟨id, id⟩, fun _ => ⟨.empty, .empty⟩, 0⟩, none, [], .empty _, by simp, rfl,
      List.nodup_nil⟩
  | append_singleton vars v ih =>
    rw [List.map_append, List.nodup_append] at distinct
    obtain ⟨m, handle, l, table⟩ := ih distinct.1
    obtain ⟨m', handle', l', -, table', -⟩ : ∃ m' handle' l',
        createInsert l.length m handle v.name (some v.value) = some (m', handle') ∧
        TableAt m' handle' l' (others vars v.name ++ [v]) ∧ l'.length ≤ l.length + 1 :=
      createInsert_table table (some v.value) (Nat.le_refl l.length)
    have new : others vars v.name = vars := by
      rw [others, List.filter_eq_self]
      intro w inside
      have ne := distinct.2.2 w.name (List.mem_map_of_mem inside) v.name (by simp)
      simpa using ne
    rw [new] at table'
    exact ⟨m', handle', l', table'⟩

/-- The program `p` with the value of `$t` for its argument. -/
def oneArgument : Trigger := ⟨some (.letter 15), some (.ofBytes [40#8, 36#8, 116#8, 41#8]), none⟩

/-- The table in which `$t` has this text. -/
def oneText (text : CString) : List VarTable := [⟨varName [116#8], text⟩]

theorem oneText_table (text : CString) : ∃ m handle l, TableAt m handle l (oneText text) :=
  exists_table (by simp [oneText])

theorem oneText_line {m : VarMem} {handle : Option Nat} {l : List Nat} {text : CString}
    (table : TableAt m handle l (oneText text)) (short : text.bytes.length < maxVarSize) :
    ∃ cmd, triggerLine l.length m handle oneArgument = some cmd ∧
      cmd.bytes = commandName (.letter 15) ++ 32#8 :: text.bytes := by
  have cut : pieces 40#8 36#8 41#8 none (CString.ofBytes [40#8, 36#8, 116#8, 41#8]).bytes =
      [.reference [116#8]] := by decide
  have value : varSubstitution (oneText text) (.ofBytes [40#8, 36#8, 116#8, 41#8]) = text.bytes := by
    rw [varSubstitution, substitute_pieces, cut]
    simp [Piece.value, varValue, lookup, oneText]
  rw [← value] at short ⊢
  exact triggerLine_substitutes table (by simp [oneText]) (Nat.le_refl _) rfl rfl short

/-- Only the value of `$u` comes from pages. -/
theorem command_fixed_letter : ∃ m handle l, TableAt m handle l (oneText (.letter 0)) ∧
    CommandFixed (· = varName [117#8]) oneArgument (.letter 15) l.length m handle
      (oneText (.letter 0)) := by
  obtain ⟨m, handle, l, table⟩ := oneText_table (.letter 0)
  refine ⟨m, handle, l, table, (command_fixed_iff table (Nat.le_refl _) rfl rfl).1 ⟨?_, ?_⟩⟩
  · intro name listed text
    have only : references 40#8 36#8 41#8 (CString.ofBytes [40#8, 36#8, 116#8, 41#8]).bytes =
        [[116#8]] := by decide
    rw [only, List.mem_singleton] at listed
    rw [listed] at text
    exact absurd text (by decide)
  · intro cmd line
    obtain ⟨cmd', line', bytes⟩ := oneText_line table (by decide)
    rw [line] at line'
    cases line'
    refine ⟨1, ?_⟩
    rw [OnlyProgram, bytes]
    decide

/-- A page with the text `a`, and one with the text `;x`. -/
theorem command_of_page : ¬ ∀ (captured : CString → Prop) (trig : Trigger) (program : CString)
    (m : VarMem) (handle : Option Nat) (l : List Nat) (vars : List VarTable),
    trig.program = some program → TableAt m handle l vars →
      CommandFixed captured trig program l.length m handle vars := by
  intro claim
  obtain ⟨m, handle, l, table⟩ := oneText_table (.letter 0)
  obtain ⟨m', handle', l', table'⟩ := oneText_table (.ofBytes [59#8, 120#8])
  obtain ⟨cmd, line, bytes⟩ := oneText_line table (by decide)
  obtain ⟨cmd', line', bytes'⟩ := oneText_line table' (by decide)
  have alike : Alike (· = varName [116#8]) (oneText (.letter 0))
      (oneText (.ofBytes [59#8, 120#8])) :=
    @alike_setValue (· = varName [116#8]) (oneText (.letter 0)) (varName [116#8]) rfl _
  obtain ⟨n, -, only⟩ := claim _ oneArgument _ m handle l _ rfl table table' (Nat.le_refl _) alike
    line line'
  rw [OnlyProgram, bytes'] at only
  have names : Shell.commandNames (commandName (.letter 15) ++
      32#8 :: (CString.ofBytes [59#8, 120#8]).bytes) =
      some [some (commandName (.letter 15)), some [120#8]] := by decide
  rw [names] at only
  have member : some [120#8] ∈ List.replicate n (some (commandName (.letter 15))) := by
    rw [← Option.some.inj only]
    decide
  cases List.eq_of_mem_replicate member

end SpiderFrame.Page
