import SpiderFrame.Var.Map

/-!
# Two handles of one variable table (`sf_pcre.c`)

`sf_pcre_perform` gives a nested spider a copy of the parent's `var_handle`. The nested spider
inserts and deletes through its copy: its own handle follows the root of the ring, the
parent's does not. The node at the parent's handle stays in the ring until a call names its
variable, and that call takes it out for good (`varStep_shape`). So the handles agree if and
only if no call names the variable at the parent's handle (`handles_agree_iff`), which is what
the variable of the empty name that `sf_proc_init_varhandle` puts at the root is for; only the
first spider of a process gets it.
-/

namespace SpiderFrame.Var
open SpiderFrame.Base SpiderFrame.Link

variable {m m' : VarMem} {handle handle' : Option Nat} {l : List Nat} {env : List VarTable}
  {name : CString} {fuel : Nat}

/-! ## What one call does to the nodes -/

/-- What a call leaves of the ring before it appends. -/
def keptNodes (m : VarMem) (l : List Nat) (name : CString) : List Nat :=
  match l.find? (named m name) with
  | none => l
  | some a => l.erase a

/-- The nodes that a call leaves carry other names. -/
theorem TableAt.mem_keptNodes (h : TableAt m handle l env) {b : Nat} :
    b ∈ keptNodes m l name ↔ b ∈ l ∧ (m.vars b).name ≠ name := by
  unfold keptNodes
  cases found : l.find? (named m name) with
  | none =>
    refine ⟨fun hb => ⟨hb, ?_⟩, And.left⟩
    simpa [named] using List.find?_eq_none.1 found b hb
  | some a =>
    have member := List.mem_of_find?_eq_some found
    have hname : (m.vars a).name = name := by simpa [named] using List.find?_some found
    show b ∈ l.erase a ↔ _
    rw [h.ringAt.ring.nodup.mem_erase_iff]
    constructor
    · rintro ⟨other, hb⟩
      exact ⟨hb, fun e => other (h.name_inj hb member (e.trans hname.symm))⟩
    · rintro ⟨hb, other⟩
      exact ⟨fun e => other (e ▸ hname), hb⟩

/-- The first node stays the first unless the call names its variable. -/
theorem keptNodes_first {r : Nat} {rest : List Nat} (other : (m.vars r).name ≠ name) :
    (keptNodes m (r :: rest) name).head? = some r := by
  unfold keptNodes
  cases found : (r :: rest).find? (named m name) with
  | none => rfl
  | some a =>
    have hname : (m.vars a).name = name := by simpa [named] using List.find?_some found
    have ne : r ≠ a := fun e => other (e ▸ hname)
    simp [ne]

/-- The parts of a node that calls through any handle keep, and the nodes in the ring. -/
structure Shape (m m' : VarMem) (l l' : List Nat) (name : CString) : Prop where
  grown : m.fresh ≤ m'.fresh
  vars : ∀ a, a < m.fresh → m'.vars a = m.vars a
  nodes : l' = keptNodes m l name ∨ l' = keptNodes m l name ++ [m.fresh]

theorem varDelete_shape (h : TableAt m handle l env) (enough : l.length ≤ fuel)
    (run : sfVarDelete fuel m handle name = some (m', handle')) :
    ∃ l', TableAt m' handle' l' (others env name) ∧ Shape m m' l l' name := by
  have some_ : handle ≠ none := by
    rintro rfl
    simp [sfVarDelete, sfVarSearch] at run
  simp only [sfVarDelete, sfVarSearch_table h some_ enough] at run
  cases found : l.find? (named m name) with
  | none =>
    simp only [found, Option.some_inj, Prod.mk.injEq] at run
    obtain ⟨rfl, rfl⟩ := run
    refine ⟨l, ?_, Nat.le_refl _, fun _ _ => rfl, .inl (by simp [keptNodes, found])⟩
    rw [h.others_of_not_found found]
    exact h
  | some a =>
    simp only [found, Option.some_inj, Prod.mk.injEq] at run
    obtain ⟨rfl, rfl⟩ := run
    exact ⟨_, h.remove found, Nat.le_refl _, fun _ _ => rfl, .inl (by simp [keptNodes, found])⟩

theorem createInsert_shape (h : TableAt m handle l env) (enough : l.length ≤ fuel)
    {value : Option CString} (run : createInsert fuel m handle name value = some (m', handle')) :
    ∃ l', TableAt m' handle' l' (others env name ++ [⟨name, value.getD .empty⟩]) ∧
      Shape m m' l l' name := by
  obtain ⟨kept, new, own⟩ : TableAt (sfVarCreate m name value).1 handle l env ∧ _ := h.create value
  have older : ∀ a, a < m.fresh → (sfVarCreate m name value).1.vars a = m.vars a :=
    fun a below => Function.update_of_ne (Nat.ne_of_lt below) _ _
  have distinct := others_append_distinct h.distinct ⟨name, value.getD .empty⟩
  have tests : ∀ b ∈ l, named (sfVarCreate m name value).1 name b = named m name b := by
    intro b hb
    simp only [named, older b (h.taken b hb)]
  have search : sameName fuel (sfVarCreate m name value).1 handle name =
      some (l.find? (named m name)) := by
    rw [sameName_table kept enough, Ring.find_congr tests]
  have fresh : (sfVarCreate m name value).2 = m.fresh := rfl
  simp only [createInsert, sfVarInsert, fresh, own, search] at run
  cases found : l.find? (named m name) with
  | none =>
    simp only [found, Option.some_inj, Prod.mk.injEq] at run
    obtain ⟨rfl, rfl⟩ := run
    rw [h.others_of_not_found found] at distinct ⊢
    refine ⟨_, own ▸ kept.append new (Nat.lt_succ_self m.fresh) (own.symm ▸ distinct),
      Nat.le_succ _, older, .inr (by simp [keptNodes, found])⟩
  | some a =>
    simp only [found, Option.some_inj, Prod.mk.injEq] at run
    obtain ⟨rfl, rfl⟩ := run
    have found' : l.find? (named (sfVarCreate m name value).1 name) = some a := by
      rw [Ring.find_congr tests, found]
    have removed := kept.remove found'
    have new' : m.fresh ∉ l.erase a := fun hv => new (List.mem_of_mem_erase hv)
    refine ⟨_, own ▸ removed.append new' (Nat.lt_succ_self m.fresh) (own.symm ▸ distinct),
      Nat.le_succ _, older, .inr (by simp [keptNodes, found])⟩

/-- **A call keeps the nodes of other names, where they are, and adds at most its own.** -/
theorem varStep_shape (h : TableAt m handle l env) {op : VarOp} (enough : l.length ≤ fuel)
    (run : varStep fuel (m, handle) op = some (m', handle')) :
    ∃ l', TableAt m' handle' l' (envStep env op) ∧ Shape m m' l l' op.name := by
  cases op with
  | insert name value => exact createInsert_shape h enough run
  | delete name => exact varDelete_shape h enough run

/-! ## The node at the parent's handle -/

/-- A node in or out of the ring after one call. -/
theorem Shape.mem_iff {l' : List Nat} (shape : Shape m m' l l' name) (h : TableAt m handle l env)
    {r : Nat} (older : r < m.fresh) : r ∈ l' ↔ r ∈ l ∧ (m.vars r).name ≠ name := by
  rw [← h.mem_keptNodes]
  rcases shape.nodes with rfl | rfl
  · rfl
  · rw [List.mem_append, List.mem_singleton, or_iff_left (Nat.ne_of_lt older)]

/-- A handle whose node stays does not move. -/
theorem Shape.handle_eq {l' : List Nat} {env' : List VarTable} {r : Nat}
    (shape : Shape m m' l l' name) (h : TableAt m (some r) l env) (h' : TableAt m' handle' l' env')
    (other : (m.vars r).name ≠ name) : handle' = some r := by
  obtain ⟨rest, rfl⟩ : ∃ rest, l = r :: rest := by
    have root := h.ringAt.root_eq
    cases l with
    | nil => cases root
    | cons a rest => cases root; exact ⟨rest, rfl⟩
  rw [h'.ringAt.root_eq]
  rcases shape.nodes with rfl | rfl
  · exact keptNodes_first other
  · rw [List.head?_append, keptNodes_first other, Option.some_or]

/-- **After a run of calls a node is in the ring if it was and no call named its variable, and
then it is where the handle pointed.** -/
theorem varRun_node {ops : List VarOp} {r : Nat} (h : TableAt m handle l env)
    (older : r < m.fresh) (enough : l.length + ops.length ≤ fuel)
    (run : varRun fuel (m, handle) ops = some (m', handle')) :
    ∃ l' env', TableAt m' handle' l' env' ∧ l'.length ≤ l.length + ops.length ∧
      m'.vars r = m.vars r ∧
      (r ∈ l' ↔ r ∈ l ∧ ∀ op ∈ ops, (m.vars r).name ≠ op.name) ∧
      (handle = some r → (∀ op ∈ ops, (m.vars r).name ≠ op.name) → handle' = some r) := by
  induction ops generalizing m handle l env with
  | nil =>
    cases run
    exact ⟨l, env, h, Nat.le_refl _, rfl, by simp, fun at_ _ => at_⟩
  | cons op ops ih =>
    rw [List.length_cons] at enough ⊢
    unfold varRun at run
    rw [List.foldlM_cons] at run
    cases first : varStep fuel (m, handle) op with
    | none => simp [first] at run
    | some st =>
      obtain ⟨m₁, handle₁⟩ := st
      rw [first] at run
      obtain ⟨l₁, h₁, shape⟩ := varStep_shape h (by omega) first
      have grown : l₁.length ≤ l.length + 1 := by
        have kept : (keptNodes m l op.name).length ≤ l.length := by
          unfold keptNodes
          split
          · exact Nat.le_refl _
          · exact List.length_erase_le
        rcases shape.nodes with rfl | rfl
        · exact Nat.le_succ_of_le kept
        · rw [List.length_append, List.length_singleton]
          omega
      obtain ⟨l', env', h', bound, vars, node, at_⟩ :=
        ih h₁ (Nat.lt_of_lt_of_le older shape.grown) (by omega) run
      rw [shape.vars r older] at vars node at_
      refine ⟨l', env', h', by omega, vars, ?_, ?_⟩
      · rw [node, shape.mem_iff h older, List.forall_mem_cons, and_assoc]
      · rintro rfl others
        rw [List.forall_mem_cons] at others
        exact at_ (shape.handle_eq h h₁ others.1) others.2

/-- Searches through the two handles end with the same result. -/
def Agree (m : VarMem) (parent nested : Option Nat) : Prop :=
  ∀ name, ∃ fuel found, sfVarSearch fuel m parent name = some found ∧
    sfVarSearch fuel m nested name = some found

/-- A handle whose node has been taken out finds that node and the other handle does not. -/
theorem not_agree_of_removed {r : Nat} (h : TableAt m handle l env) (out : r ∉ l) :
    ¬ Agree m (some r) handle := by
  intro agree
  obtain ⟨fuel, found, old, new⟩ := agree (m.vars r).name
  have stale : found = some r := by
    cases fuel with
    | zero => cases old
    | succ fuel => simpa [sfVarSearch, Ring.walk, named] using old.symm
  rw [stale] at new
  cases root : handle with
  | none => rw [root] at new; cases new
  | some a =>
    rw [root] at new
    have first : a ∈ l := List.mem_of_head? (by rw [← h.ringAt.root_eq, root])
    exact out (h.ringAt.ring.walk_mem first new)

/-- **The parent's handle and the nested spider's agree if and only if no call named the
variable at the parent's handle.** -/
theorem handles_agree_iff {r : Nat} (h : TableAt m (some r) l env) {ops : List VarOp}
    (enough : l.length + ops.length ≤ fuel)
    (run : varRun fuel (m, some r) ops = some (m', handle')) :
    Agree m' (some r) handle' ↔ ∀ op ∈ ops, (m.vars r).name ≠ op.name := by
  have member : r ∈ l := List.mem_of_head? h.ringAt.root_eq.symm
  obtain ⟨l', env', h', bound, vars, node, at_⟩ := varRun_node h (h.taken r member) enough run
  constructor
  · intro agree
    by_contra named_
    exact not_agree_of_removed h' (fun inside => named_ (node.1 inside).2) agree
  · intro others name
    rw [at_ rfl others] at h' ⊢
    have search : sfVarSearch l'.length m' (some r) name = some (l'.find? (named m' name)) :=
      sfVarSearch_table h' (by simp) (Nat.le_refl _)
    exact ⟨l'.length, _, search, search⟩

/-- The parent's table: `a = x` at the handle, then `b = y`. -/
def parentTable : VarMem × Option Nat :=
  (varRun 2 (⟨⟨id, id⟩, fun _ => ⟨.empty, .empty⟩, 0⟩, none)
    [.insert (.letter 0) (some (.letter 23)), .insert (.letter 1) (some (.letter 24))]).get rfl

theorem parentTable_table : ∃ env, TableAt parentTable.1 (some 0) [0, 1] env := by
  refine ⟨_, ⟨⟨by decide, ?_⟩, rfl⟩, by decide, rfl, by decide⟩
  simp only [List.head?_cons, Option.toList_some, List.cons_append, List.nil_append,
    List.isChain_cons_cons, List.isChain_singleton, and_true]
  exact ⟨⟨rfl, rfl⟩, rfl, rfl⟩

/-- The nested spider replaces `b` and adds `c`. -/
def otherReplaced : Option (VarMem × Option Nat) :=
  varRun 4 (parentTable.1, some 0) [.insert (.letter 1) none, .insert (.letter 2) none]

theorem otherReplaced_runs : otherReplaced.isSome := rfl

theorem handles_agree_iff_other : Agree (otherReplaced.get otherReplaced_runs).1 (some 0)
    (otherReplaced.get otherReplaced_runs).2 := by
  obtain ⟨env, table⟩ := parentTable_table
  apply (handles_agree_iff table (Nat.le_refl 4) (Option.some_get otherReplaced_runs).symm).2
  decide

/-- The nested spider replaces `a`. -/
def takesRoot : List VarOp := [.insert (.letter 0) (some (.letter 24))]

def rootTaken : Option (VarMem × Option Nat) := varRun 3 (parentTable.1, some 0) takesRoot

theorem rootTaken_runs : rootTaken.isSome := rfl

theorem handles_disagree : ¬ ∀ (m m' : VarMem) (r : Nat) (l : List Nat) (env : List VarTable)
    (ops : List VarOp) (fuel : Nat) (handle' : Option Nat), TableAt m (some r) l env →
      l.length + ops.length ≤ fuel → varRun fuel (m, some r) ops = some (m', handle') →
      handle' ≠ none → Agree m' (some r) handle' := by
  intro claim
  obtain ⟨env, table⟩ := parentTable_table
  have run : varRun 3 (parentTable.1, some 0) takesRoot =
      some ((rootTaken.get rootTaken_runs).1, (rootTaken.get rootTaken_runs).2) :=
    (Option.some_get rootTaken_runs).symm
  obtain ⟨l', env', table', -, -, node, -⟩ := varRun_node table (show 0 < 2 by decide)
    (Nat.le_refl 3) run
  refine not_agree_of_removed table' (fun inside => ?_)
    (claim _ _ 0 _ env takesRoot 3 _ table (Nat.le_refl 3) run (by decide))
  exact (node.1 inside).2 _ (List.mem_singleton.2 rfl) rfl

end SpiderFrame.Var
