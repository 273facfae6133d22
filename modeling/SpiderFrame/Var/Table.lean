import SpiderFrame.CString
import SpiderFrame.Link.DualLink

/-!
# The variable table (`sf_var.c`)

A table is a ring of `sf_vartable_t` nodes reached from a handle. `sf_var_create`
takes a new node from the spider's pool, so the memory hands out addresses in order.
The calls that walk the ring take fuel and answer `none` when it runs out, and so does
`sf_var_search` on a NULL handle, which leaves the function without returning a value.

`TableAt` ties a handle to the variables of its ring in order. `createInsert_table` and
`sfVarDelete_table` give both updates as list operations on them.
-/

namespace SpiderFrame.Var
open SpiderFrame.Base SpiderFrame.Link

/-- `sf_vartable_t` without its links. -/
structure VarTable where
  name : CString
  value : CString
  deriving DecidableEq

/-- The nodes of all tables; the addresses below `fresh` are taken. -/
structure VarMem where
  links : Links Nat
  vars : Nat → VarTable
  fresh : Nat

/-- `sf_var_create(name, value, pool)`; a NULL value is the empty string. -/
def sfVarCreate (m : VarMem) (name : CString) (value : Option CString) : VarMem × Nat :=
  ({ m with
      vars := Function.update m.vars m.fresh ⟨name, value.getD .empty⟩
      fresh := m.fresh + 1 }, m.fresh)

/-- `!strcmp(head->name, name)`. -/
def named (m : VarMem) (name : CString) (a : Nat) : Bool := (m.vars a).name == name

/-- `sf_var_search(handle, name)`. -/
def sfVarSearch (fuel : Nat) (m : VarMem) (handle : Option Nat) (name : CString) :
    Option (Option Nat) :=
  match handle with
  | none => none
  | some head => Ring.walk m.links (named m name) head fuel head

/-- `sf_var_delete(phandle, name)`. -/
def sfVarDelete (fuel : Nat) (m : VarMem) (handle : Option Nat) (name : CString) :
    Option (VarMem × Option Nat) :=
  match sfVarSearch fuel m handle name with
  | none => none
  | some none => some (m, handle)
  | some (some v) =>
    let (links, handle) := dualLinkRemove m.links handle v
    some ({ m with links := links }, handle)

/-- The `while (head)` loop of `sf_var_insert`, up to the node it stops at. -/
def sameName (fuel : Nat) (m : VarMem) (handle : Option Nat) (name : CString) :
    Option (Option Nat) :=
  match handle with
  | none => some none
  | some head => Ring.walk m.links (named m name) head fuel head

/-- `sf_var_insert(handle, v)`: the node of the same name goes, `v` comes last. -/
def sfVarInsert (fuel : Nat) (m : VarMem) (handle : Option Nat) (v : Nat) :
    Option (VarMem × Option Nat) :=
  match sameName fuel m handle (m.vars v).name with
  | none => none
  | some none =>
    let (links, handle) := dualLinkAppend m.links handle v
    some ({ m with links := links }, handle)
  | some (some head) =>
    let (links, handle) := dualLinkRemove m.links handle head
    let (links, handle) := dualLinkAppend links handle v
    some ({ m with links := links }, handle)

/-! ## The ring as a list of variables -/

/-- The ring at `handle` consists of the nodes `l` with the variables `env`. -/
structure TableAt (m : VarMem) (handle : Option Nat) (l : List Nat) (env : List VarTable) :
    Prop where
  ringAt : RingAt m.links handle l
  taken : ∀ a ∈ l, a < m.fresh
  vars : l.map m.vars = env
  distinct : (env.map VarTable.name).Nodup

/-- The variables of other names. -/
def others (env : List VarTable) (name : CString) : List VarTable :=
  env.filter fun v => v.name ≠ name

variable {m : VarMem} {handle : Option Nat} {l : List Nat} {env : List VarTable} {name : CString}

theorem others_distinct (h : (env.map VarTable.name).Nodup) :
    ((others env name).map VarTable.name).Nodup :=
  h.sublist (List.filter_sublist.map _)

theorem others_append_distinct (h : (env.map VarTable.name).Nodup) (v : VarTable) :
    ((others env v.name ++ [v]).map VarTable.name).Nodup := by
  rw [List.map_append, List.nodup_append]
  refine ⟨others_distinct h, List.nodup_singleton _, ?_⟩
  intro n hn n' hn' e
  obtain ⟨w, hw, rfl⟩ := List.mem_map.1 hn
  have ne : w.name ≠ v.name := by simpa using (List.mem_filter.1 hw).2
  exact ne (e.trans (by simpa using hn'))

/-- A walk from the handle is `List.find?` on the ring. -/
theorem ring_walk (h : RingAt m.links handle l) {head fuel : Nat} (root : handle = some head)
    (enough : l.length ≤ fuel) (test : Nat → Bool) :
    Ring.walk m.links test head fuel head = some (l.find? test) := by
  obtain ⟨ring, e⟩ := h
  cases l with
  | nil => rw [root] at e; cases e
  | cons a l =>
    rw [root] at e
    cases e
    exact ring.walk_eq_find? test enough

/-- A search in a ring that is not empty. -/
theorem sfVarSearch_ring (h : RingAt m.links handle l) (some_ : handle ≠ none) {fuel : Nat}
    (enough : l.length ≤ fuel) :
    sfVarSearch fuel m handle name = some (l.find? (named m name)) := by
  obtain ⟨head, root⟩ := Option.ne_none_iff_exists'.1 some_
  simp only [sfVarSearch, root, ring_walk h root enough]

namespace TableAt

theorem name_inj (h : TableAt m handle l env) {a b : Nat} (ha : a ∈ l) (hb : b ∈ l)
    (e : (m.vars a).name = (m.vars b).name) : a = b := by
  have distinct := h.distinct
  rw [← h.vars, List.map_map] at distinct
  exact List.inj_on_of_nodup_map distinct ha hb e

/-- Taking out the node a search by name finds leaves the variables of other names. -/
theorem remove (h : TableAt m handle l env) {a : Nat} (found : l.find? (named m name) = some a) :
    TableAt { m with links := (dualLinkRemove m.links handle a).1 }
      (dualLinkRemove m.links handle a).2 (l.erase a) (others env name) := by
  have member := List.mem_of_find?_eq_some found
  have hname : (m.vars a).name = name := by simpa [named] using List.find?_some found
  refine ⟨dualLinkRemove_ring h.ringAt member, fun b hb => h.taken b (List.mem_of_mem_erase hb),
    ?_, others_distinct h.distinct⟩
  rw [h.ringAt.ring.nodup.erase_eq_filter, ← h.vars, others, List.filter_map]
  congr 1
  apply List.filter_congr
  intro b hb
  by_cases e : b = a
  · simp [e, hname]
  · have : (m.vars b).name ≠ name := fun hn => e (h.name_inj hb member (hn.trans hname.symm))
    simp [e, this]

theorem others_of_not_found (h : TableAt m handle l env)
    (found : l.find? (named m name) = none) : others env name = env := by
  rw [others, List.filter_eq_self, ← h.vars]
  intro v hv
  obtain ⟨a, ha, rfl⟩ := List.mem_map.1 hv
  simpa [named] using List.find?_eq_none.1 found a ha

/-- A new node put in last. -/
theorem append (h : TableAt m handle l env) {v : Nat} (new : v ∉ l) (taken : v < m.fresh)
    (distinct : ((env ++ [m.vars v]).map VarTable.name).Nodup) :
    TableAt { m with links := (dualLinkAppend m.links handle v).1 }
      (dualLinkAppend m.links handle v).2 (l ++ [v]) (env ++ [m.vars v]) := by
  refine ⟨dualLinkAppend_ring h.ringAt new, ?_, by simp [h.vars], distinct⟩
  intro a ha
  rcases List.mem_append.1 ha with ha | ha
  · exact h.taken a ha
  · rw [List.mem_singleton.1 ha]; exact taken

/-- Creating a node keeps every table. -/
theorem create (h : TableAt m handle l env) (value : Option CString) :
    TableAt (sfVarCreate m name value).1 handle l env ∧ m.fresh ∉ l ∧
      (sfVarCreate m name value).1.vars m.fresh = ⟨name, value.getD .empty⟩ := by
  have new : m.fresh ∉ l := fun hm => Nat.lt_irrefl _ (h.taken _ hm)
  refine ⟨⟨h.ringAt, fun a ha => Nat.lt_succ_of_lt (h.taken a ha), ?_, h.distinct⟩, new, ?_⟩
  · rw [← h.vars]
    apply List.map_congr_left
    intro a ha
    have : a ≠ m.fresh := fun e => new (e ▸ ha)
    simp [sfVarCreate, Function.update_of_ne this]
  · simp [sfVarCreate]

end TableAt

/-- **`sf_var_search` ends and finds the node of that name.** -/
theorem sfVarSearch_table (h : TableAt m handle l env) (some_ : handle ≠ none) {fuel : Nat}
    (enough : l.length ≤ fuel) :
    sfVarSearch fuel m handle name = some (l.find? (named m name)) :=
  sfVarSearch_ring h.ringAt some_ enough

/-- **`sf_var_delete` keeps the variables of other names.** -/
theorem sfVarDelete_table (h : TableAt m handle l env) (some_ : handle ≠ none) {fuel : Nat}
    (enough : l.length ≤ fuel) :
    ∃ m' handle' l', sfVarDelete fuel m handle name = some (m', handle') ∧
      TableAt m' handle' l' (others env name) ∧ l'.length ≤ l.length := by
  simp only [sfVarDelete, sfVarSearch_table h some_ enough]
  cases found : l.find? (named m name) with
  | none => exact ⟨m, handle, l, rfl, by rw [h.others_of_not_found found]; exact h, Nat.le_refl _⟩
  | some a => exact ⟨_, _, _, rfl, h.remove found, List.length_erase_le⟩

theorem sameName_table (h : TableAt m handle l env) {fuel : Nat} (enough : l.length ≤ fuel) :
    sameName fuel m handle name = some (l.find? (named m name)) := by
  unfold sameName
  split
  · rw [h.ringAt.nil_iff.1 rfl]; rfl
  · exact ring_walk h.ringAt rfl enough _

/-- **`sf_var_insert` of a new node keeps the variables of other names and adds its own.** -/
theorem sfVarInsert_table (h : TableAt m handle l env) {v fuel : Nat} (new : v ∉ l)
    (taken : v < m.fresh) (enough : l.length ≤ fuel) :
    ∃ m' handle' l', sfVarInsert fuel m handle v = some (m', handle') ∧
      TableAt m' handle' l' (others env (m.vars v).name ++ [m.vars v]) ∧
      l'.length ≤ l.length + 1 := by
  have distinct := others_append_distinct h.distinct (m.vars v)
  simp only [sfVarInsert, sameName_table h enough]
  cases found : l.find? (named m (m.vars v).name) with
  | none =>
    rw [h.others_of_not_found found] at distinct ⊢
    exact ⟨_, _, _, rfl, h.append new taken distinct, by simp⟩
  | some a =>
    have kept := (h.remove found).append (fun hv => new (List.mem_of_mem_erase hv)) taken distinct
    refine ⟨_, _, _, rfl, kept, ?_⟩
    rw [List.length_append, List.length_singleton]
    exact Nat.add_le_add_right List.length_erase_le 1

/-- `sf_var_insert(&handle, sf_var_create(name, value))`, as every caller writes it. -/
def createInsert (fuel : Nat) (m : VarMem) (handle : Option Nat) (name : CString)
    (value : Option CString) : Option (VarMem × Option Nat) :=
  let (m, v) := sfVarCreate m name value
  sfVarInsert fuel m handle v

theorem createInsert_table (h : TableAt m handle l env) (value : Option CString) {fuel : Nat}
    (enough : l.length ≤ fuel) :
    ∃ m' handle' l', createInsert fuel m handle name value = some (m', handle') ∧
      TableAt m' handle' l' (others env name ++ [⟨name, value.getD .empty⟩]) ∧
      l'.length ≤ l.length + 1 := by
  obtain ⟨kept, new, own⟩ : TableAt (sfVarCreate m name value).1 handle l env ∧ _ := h.create value
  obtain ⟨m', handle', l', run, table, bound⟩ :=
    sfVarInsert_table kept new (Nat.lt_succ_self m.fresh) enough
  rw [own] at table
  exact ⟨m', handle', l', run, table, bound⟩

/-! ## More fuel -/

end SpiderFrame.Var
