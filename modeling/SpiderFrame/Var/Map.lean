import SpiderFrame.Var.Table

/-!
# The variable table is a map

Any sequence of insertions and deletions through one handle, from the NULL handle on,
is compared with `binding`, the value of the last call about a name. As long as the
table stays non-empty, every call and every search ends, names in the ring stay
distinct and a search finds the node that carries the binding (`var_table_is_map`).
-/

namespace SpiderFrame.Var
open SpiderFrame.Base SpiderFrame.Link

/-- A call that changes the table. -/
inductive VarOp where
  | insert (name : CString) (value : Option CString)
  | delete (name : CString)

def VarOp.name : VarOp → CString
  | insert name _ => name
  | delete name => name

/-- One call through a handle. -/
def varStep (fuel : Nat) : VarMem × Option Nat → VarOp → Option (VarMem × Option Nat)
  | (m, handle), .insert name value => createInsert fuel m handle name value
  | (m, handle), .delete name => sfVarDelete fuel m handle name

def varRun (fuel : Nat) (st : VarMem × Option Nat) (ops : List VarOp) :
    Option (VarMem × Option Nat) := ops.foldlM (varStep fuel) st

/-! ## What the table is for -/

/-- What one call makes of the binding of `name`. -/
def bind (name : CString) (v : Option CString) : VarOp → Option CString
  | .insert n value => if n = name then some (value.getD .empty) else v
  | .delete n => if n = name then none else v

/-- The most recently inserted and not since deleted value of `name`. -/
def binding (ops : List VarOp) (name : CString) : Option CString := ops.foldl (bind name) none

/-- After each call some variable is bound. -/
def KeepsNonEmpty (ops : List VarOp) : Prop :=
  ops ≠ [] ∧ ∀ p, p <+: ops → p ≠ [] → ∃ name, binding p name ≠ none

/-- The variables in ring order. -/
def envStep (env : List VarTable) : VarOp → List VarTable
  | .insert name value => others env name ++ [⟨name, value.getD .empty⟩]
  | .delete name => others env name

def envOf (ops : List VarOp) : List VarTable := ops.foldl envStep []

def lookup (env : List VarTable) (name : CString) : Option VarTable :=
  env.find? fun v => v.name = name

theorem binding_concat (ops : List VarOp) (op : VarOp) (name : CString) :
    binding (ops ++ [op]) name = bind name (binding ops name) op := by
  simp [binding]

theorem envOf_concat (ops : List VarOp) (op : VarOp) :
    envOf (ops ++ [op]) = envStep (envOf ops) op := by
  simp [envOf]

theorem lookup_others (env : List VarTable) (n name : CString) :
    lookup (others env n) name = if n = name then none else lookup env name := by
  simp only [lookup, others, List.find?_filter]
  split
  · rename_i e
    subst e
    exact List.find?_eq_none.2 fun v _ => by simp
  · rename_i ne
    congr 1
    funext v
    by_cases h : v.name = name
    · simp [h, Ne.symm ne]
    · simp [h]

theorem lookup_envStep (env : List VarTable) (op : VarOp) (name : CString) :
    (lookup (envStep env op) name).map VarTable.value =
      bind name ((lookup env name).map VarTable.value) op := by
  cases op with
  | delete n => simp only [envStep, bind, lookup_others]; split <;> simp
  | insert n value =>
    have split_ : lookup (others env n ++ [⟨n, value.getD .empty⟩]) name =
        (lookup (others env n) name).or (lookup [⟨n, value.getD .empty⟩] name) := by
      simp only [lookup, List.find?_append]
    simp only [envStep, bind, split_, lookup_others]
    by_cases e : n = name
    · simp [e, lookup]
    · simp [e, lookup]

/-- The list of variables holds exactly the bindings. -/
theorem lookup_envOf (ops : List VarOp) (name : CString) :
    (lookup (envOf ops) name).map VarTable.value = binding ops name := by
  induction ops using List.reverseRecOn with
  | nil => rfl
  | append_singleton ops op ih => rw [envOf_concat, binding_concat, lookup_envStep, ih]

theorem env_nonempty {ops : List VarOp} {name : CString} (bound : binding ops name ≠ none) :
    envOf ops ≠ [] := by
  intro e
  rw [← lookup_envOf, e] at bound
  exact bound rfl

variable {m : VarMem} {handle : Option Nat} {l : List Nat} {env : List VarTable}

theorem handle_ne_none (h : TableAt m handle l env) (ne : env ≠ []) : handle ≠ none := by
  intro e
  have hl := h.ringAt.nil_iff.1 e
  rw [← h.vars, hl] at ne
  exact ne rfl

/-- One call on a non-empty table; an insertion also works on an empty one. -/
theorem varStep_table (h : TableAt m handle l env) (op : VarOp) {fuel : Nat}
    (enough : l.length ≤ fuel) (ready : env ≠ [] ∨ ∃ name value, op = .insert name value) :
    ∃ m' handle' l', varStep fuel (m, handle) op = some (m', handle') ∧
      TableAt m' handle' l' (envStep env op) ∧ l'.length ≤ l.length + 1 := by
  cases op with
  | insert name value => exact createInsert_table h value enough
  | delete name =>
    rcases ready with ne | ⟨_, _, e⟩
    · obtain ⟨m', handle', l', run, table, bound⟩ :=
        sfVarDelete_table h (handle_ne_none h ne) enough
      exact ⟨m', handle', l', run, table, Nat.le_succ_of_le bound⟩
    · cases e

/-- A search from the handle finds the node that carries the binding. -/
theorem search_binding {ops : List VarOp} (h : TableAt m handle l (envOf ops))
    (ne : envOf ops ≠ []) {fuel : Nat} (enough : l.length ≤ fuel) (name : CString) :
    ∃ found, sfVarSearch fuel m handle name = some found ∧
      found.map m.vars = (binding ops name).map (VarTable.mk name) := by
  refine ⟨_, sfVarSearch_table h (handle_ne_none h ne) enough, ?_⟩
  have mapped : (l.find? (named m name)).map m.vars = lookup (envOf ops) name := by
    rw [← h.vars, lookup, List.find?_map]
    congr 2
  rw [mapped, ← lookup_envOf]
  cases found : lookup (envOf ops) name with
  | none => rfl
  | some v =>
    have : v.name = name := by simpa using List.find?_some found
    simp [← this]

/-- The table after a sequence of calls that keeps it non-empty. -/
theorem varRun_table (ops : List VarOp) (m₀ : VarMem) {fuel : Nat} (enough : ops.length ≤ fuel)
    (nonEmpty : ∀ p, p <+: ops → p ≠ [] → ∃ name, binding p name ≠ none) :
    ∃ m handle l, varRun fuel (m₀, none) ops = some (m, handle) ∧
      TableAt m handle l (envOf ops) ∧ l.length ≤ ops.length := by
  induction ops using List.reverseRecOn with
  | nil =>
    exact ⟨m₀, none, [], rfl, ⟨.empty _, by simp, rfl, List.nodup_nil⟩, Nat.le_refl _⟩
  | append_singleton ops op ih =>
    rw [List.length_append, List.length_singleton] at enough
    obtain ⟨m, handle, l, run, table, bound⟩ := ih (by omega)
      fun p hp => nonEmpty p (hp.trans (List.prefix_append _ _))
    have ready : envOf ops ≠ [] ∨ ∃ name value, op = .insert name value := by
      cases op with
      | insert name value => exact .inr ⟨name, value, rfl⟩
      | delete n =>
        left
        by_cases e : ops = []
        · -- a deletion as the first call leaves nothing bound
          obtain ⟨name, bound⟩ := nonEmpty _ (List.prefix_refl _) (by simp)
          simp [e, binding, bind] at bound
        · obtain ⟨name, bound⟩ := nonEmpty _ (List.prefix_append _ _) e
          exact env_nonempty bound
    obtain ⟨m', handle', l', step, table', bound'⟩ :=
      varStep_table table op (show l.length ≤ fuel by omega) ready
    refine ⟨m', handle', l', ?_, by rw [envOf_concat]; exact table', ?_⟩
    · simp only [varRun, List.foldlM_append, List.foldlM_cons, List.foldlM_nil] at run ⊢
      simp [run, step]
    · rw [List.length_append, List.length_singleton]
      omega

/-! ## A table that keeps an entry -/

/-- **The variable table is a map.** -/
theorem var_table_is_map (ops : List VarOp) (keeps : KeepsNonEmpty ops) (m₀ : VarMem)
    {fuel : Nat} (enough : ops.length ≤ fuel) :
    ∃ m handle l, varRun fuel (m₀, none) ops = some (m, handle) ∧
      RingAt m.links handle l ∧ (l.map fun a => (m.vars a).name).Nodup ∧
      (∀ name, ∃ found, sfVarSearch fuel m handle name = some found ∧
        found.map m.vars = (binding ops name).map (VarTable.mk name)) ∧
      ∀ op, KeepsNonEmpty (ops ++ [op]) →
        ∃ m' handle', varStep fuel (m, handle) op = some (m', handle') ∧
          ∀ name, name ≠ op.name → ∃ before after,
            sfVarSearch fuel m handle name = some before ∧
            sfVarSearch (fuel + 1) m' handle' name = some after ∧
            after.map m'.vars = before.map m.vars := by
  obtain ⟨notNil, nonEmpty⟩ := keeps
  obtain ⟨m, handle, l, run, table, bound⟩ := varRun_table ops m₀ enough nonEmpty
  obtain ⟨_, some_⟩ := nonEmpty ops (List.prefix_refl _) notNil
  have ne := env_nonempty some_
  have found := search_binding table ne (show l.length ≤ fuel by omega)
  refine ⟨m, handle, l, run, table.ringAt, ?_, found, ?_⟩
  · have distinct := table.distinct
    rwa [← table.vars, List.map_map] at distinct
  · intro op keeps'
    obtain ⟨m', handle', l', step, table', bound'⟩ :=
      varStep_table table op (show l.length ≤ fuel by omega) (.inl ne)
    refine ⟨m', handle', step, fun name other => ?_⟩
    obtain ⟨_, some'⟩ := keeps'.2 _ (List.prefix_refl _) (by simp)
    rw [← envOf_concat] at table'
    obtain ⟨before, hb, eb⟩ := found name
    obtain ⟨after, ha, ea⟩ := search_binding table' (env_nonempty some')
      (show l'.length ≤ fuel + 1 by omega) name
    refine ⟨before, after, hb, ha, ?_⟩
    have same : binding (ops ++ [op]) name = binding ops name := by
      rw [binding_concat]
      cases op <;> simp_all [bind, VarOp.name, Ne.symm]
    rw [ea, eb, same]

/-- `a = x`, `b = y`, then `a = y`: the replaced node is the root of the ring. -/
def rootReplaced : List VarOp :=
  [.insert (.letter 0) (some (.letter 23)),
    .insert (.letter 1) (some (.letter 24)),
    .insert (.letter 0) (some (.letter 24))]

theorem rootReplaced_keeps : KeepsNonEmpty rootReplaced := by
  refine ⟨by simp [rootReplaced], fun p hp ne => ⟨.letter 0, ?_⟩⟩
  obtain ⟨k, bound, rfl⟩ : ∃ k, k ≤ 3 ∧ p = rootReplaced.take k :=
    ⟨p.length, hp.length_le, List.prefix_iff_eq_take.1 hp⟩
  match k, bound with
  | 0, _ => exact absurd rfl ne
  | 1, _ | 2, _ | 3, _ => decide

/-- The search finds the value of the later insertion. -/
theorem var_table_is_map_replaced : ∃ m handle found,
    varRun 3 (⟨⟨id, id⟩, fun _ => ⟨.empty, .empty⟩, 0⟩, none) rootReplaced = some (m, handle) ∧
    sfVarSearch 3 m handle (.letter 0) = some found ∧
    found.map m.vars = some ⟨.letter 0, .letter 24⟩ := by
  obtain ⟨m, handle, l, run, -, -, search, -⟩ := var_table_is_map rootReplaced rootReplaced_keeps
    ⟨⟨id, id⟩, fun _ => ⟨.empty, .empty⟩, 0⟩ (Nat.le_refl 3)
  obtain ⟨found, ends, value⟩ := search (.letter 0)
  exact ⟨m, handle, found, run, ends, value⟩

end SpiderFrame.Var
