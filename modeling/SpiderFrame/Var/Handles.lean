import SpiderFrame.Base.Run
import SpiderFrame.Var.Table

/-!
# The handles of a process's variable tables (`sf_proc.c`, `sf_conf.c`, `sf_pcre.c`)

`sf_spider_init` starts a spider with a NULL handle. `sf_proc_init_varhandle` puts a variable of the
empty name at it, in the first call of the process, and `sf_conf_vars` puts the `var` elements of
the configuration. A nested spider then gets its parent's handle. Captures are inserted, a rule that
does not match deletes its captures, and templates are looked up.

`bare` records for which spiders nothing of this has put a variable; the handle is NULL for these
and no others (`handle_none_iff`).
-/

namespace SpiderFrame.Var
open SpiderFrame.Base SpiderFrame.Link

/-- The tables of a process. `isdone` is the static variable of `sf_proc_init_varhandle`; `bare` is
a record of what was done, which no function reads. -/
structure Process where
  mem : VarMem
  isdone : Bool
  spiderCnt : Nat
  handles : Nat → Option Nat
  bare : Nat → Bool

/-- A call on the table of a spider object. -/
inductive Act where
  /-- `sf_spider_init`, for a configuration with these `var` elements -/
  | init (vars : List (CString × CString))
  /-- `s_new->var_handle = s->var_handle` -/
  | copy (parent nested : Nat)
  | insert (s : Nat) (name : CString) (value : Option CString)
  | delete (s : Nat) (name : CString)
  | search (s : Nat) (name : CString)

/-- `sf_proc_init_varhandle(s)`. -/
def sfProcInitVarhandle (fuel : Nat) (isdone : Bool) (m : VarMem) (handle : Option Nat) :
    Option (VarMem × Option Nat) :=
  if isdone then some (m, handle) else createInsert fuel m none .empty (some .empty)

/-- The insertions of `sf_conf_vars`. -/
def confVars (fuel : Nat) (st : VarMem × Option Nat) (vars : List (CString × CString)) :
    Option (VarMem × Option Nat) :=
  vars.foldlM (fun st var => createInsert fuel st.1 st.2 var.1 (some var.2)) st

/-- `sf_spider_init(conf_fn)`: the tables, and the handle of the new spider. -/
def sfSpiderInit (fuel : Nat) (p : Process) (vars : List (CString × CString)) :
    Option (VarMem × Option Nat) :=
  (sfProcInitVarhandle fuel p.isdone p.mem none).bind fun st => confVars fuel st vars

/-- The deletion of `name` takes out the only entry of the table: the node at the handle, which is
linked to itself. -/
def takesLast (fuel : Nat) (m : VarMem) (handle : Option Nat) (name : CString) : Bool :=
  handle.any fun r => sfVarSearch fuel m handle name == some (some r) && m.links.next r == r

/-- The call gives the spider `s` this handle. -/
def Process.store (p : Process) (s : Nat) (next : VarMem × Option Nat) (bare : Bool) : Process :=
  { p with
    mem := next.1
    handles := Function.update p.handles s next.2
    bare := Function.update p.bare s bare }

/-- One call; `none` is a walk that has not ended within the fuel, or has no start. -/
def actStep (fuel : Nat) (p : Process) : Act → Option Process
  | .init vars =>
    (sfSpiderInit fuel p vars).map fun next =>
      { p.store p.spiderCnt next (p.isdone && vars.isEmpty) with
        isdone := true
        spiderCnt := p.spiderCnt + 1 }
  | .copy parent nested => some (p.store nested (p.mem, p.handles parent) (p.bare parent))
  | .insert s name value =>
    (createInsert fuel p.mem (p.handles s) name value).map fun next => p.store s next false
  | .delete s name =>
    (sfVarDelete fuel p.mem (p.handles s) name).map fun next =>
      p.store s next (takesLast fuel p.mem (p.handles s) name)
  | .search s name => (sfVarSearch fuel p.mem (p.handles s) name).map fun _ => p

/-- The process before the first `sf_spider_init`. -/
def Process.start (m : VarMem) : Process := ⟨m, false, 0, fun _ => none, fun _ => true⟩

/-- The spider whose table the call hands to `sf_var_search`. -/
def Act.searched : Act → Option Nat
  | .delete s _ | .search s _ => some s
  | _ => none

/-- The handle passed to `sf_var_search` is not NULL. -/
def SearchesTable (p : Process) (act : Act) : Prop := ∀ s ∈ act.searched, p.handles s ≠ none

/-- The spider whose table is searched has a variable in it. -/
def SearchesFilled (p : Process) (act : Act) : Prop := ∀ s ∈ act.searched, p.bare s = false

instance (p : Process) (act : Act) : Decidable (SearchesTable p act) :=
  inferInstanceAs (Decidable (∀ s ∈ act.searched, p.handles s ≠ none))

/-! ## The handle after a call -/

variable {fuel : Nat} {m m' : VarMem} {handle handle' : Option Nat} {name : CString}

theorem dualLinkAppend_root {α : Type*} [DecidableEq α] (L : Links α) (root : Option α) (item : α) :
    (dualLinkAppend L root item).2 ≠ none := by
  cases root <;> simp [dualLinkAppend]

/-- A removal leaves no root only when it takes out a root that is linked to itself. -/
theorem dualLinkRemove_root {α : Type*} [DecidableEq α] (L : Links α) {r : α} (item : α) :
    (dualLinkRemove L (some r) item).2 = none ↔ r = item ∧ L.next item = item := by
  by_cases root : r = item
  · by_cases own : L.prev item = item
    · simp [dualLinkRemove, root, own]
    · simp [dualLinkRemove, root, Ne.symm own]
  · simp [dualLinkRemove, root]

theorem createInsert_handle {value : Option CString}
    (run : createInsert fuel m handle name value = some (m', handle')) : handle' ≠ none := by
  unfold createInsert sfVarInsert at run
  dsimp only at run
  split at run
  · cases run
  · cases run
    exact dualLinkAppend_root _ _ _
  · cases run
    exact dualLinkAppend_root _ _ _

theorem sfVarDelete_handle (run : sfVarDelete fuel m handle name = some (m', handle')) :
    handle' = none ↔ takesLast fuel m handle name = true := by
  cases handle with
  | none => cases run
  | some r =>
    unfold takesLast
    unfold sfVarDelete at run
    cases found : sfVarSearch fuel m (some r) name with
    | none =>
      rw [found] at run
      cases run
    | some node =>
      rw [found] at run
      cases node with
      | none =>
        cases run
        simp
      | some v =>
        cases run
        refine (dualLinkRemove_root m.links v).trans ?_
        simp only [Option.any_some, Bool.and_eq_true, beq_iff_eq, Option.some_inj]
        constructor
        · rintro ⟨rfl, own⟩
          exact ⟨rfl, own⟩
        · rintro ⟨rfl, own⟩
          exact ⟨rfl, own⟩

theorem confVars_handle {vars : List (CString × CString)} :
    ∀ {m : VarMem} {handle : Option Nat}, confVars fuel (m, handle) vars = some (m', handle') →
      (handle' = none ↔ handle = none ∧ vars = []) := by
  induction vars with
  | nil =>
    intro m handle run
    cases run
    simp
  | cons var vars ih =>
    intro m handle run
    unfold confVars at run
    rw [List.foldlM_cons] at run
    obtain ⟨⟨m₁, handle₁⟩, first, rest⟩ := Option.bind_eq_some_iff.1 run
    rw [ih rest]
    simp [createInsert_handle first]

theorem sfSpiderInit_handle {p : Process} {vars : List (CString × CString)}
    (run : sfSpiderInit fuel p vars = some (m', handle')) :
    handle' = none ↔ (p.isdone && vars.isEmpty) = true := by
  obtain ⟨⟨m₁, handle₁⟩, first, rest⟩ := Option.bind_eq_some_iff.1 run
  rw [confVars_handle rest, Bool.and_eq_true, List.isEmpty_iff]
  apply and_congr_left'
  unfold sfProcInitVarhandle at first
  split at first
  · rename_i done
    cases first
    simp [done]
  · rename_i new
    simp [createInsert_handle first, new]

/-! ## Every run -/

/-- A spider has a NULL handle if and only if it is bare. -/
def HandlesBare (p : Process) : Prop := ∀ s, p.handles s = none ↔ p.bare s = true

theorem HandlesBare.store {p : Process} (inv : HandlesBare p) {s : Nat} {bare : Bool}
    {next : VarMem × Option Nat} (own : next.2 = none ↔ bare = true) :
    HandlesBare (p.store s next bare) := by
  intro i
  by_cases same : i = s
  · subst same
    simpa [Process.store] using own
  · simpa [Process.store, same] using inv i

/-- **A call gives a NULL handle exactly to the spiders that it leaves bare.** -/
theorem HandlesBare.step {p p' : Process} {act : Act} (inv : HandlesBare p)
    (taken : actStep fuel p act = some p') : HandlesBare p' := by
  cases act with
  | init vars =>
    obtain ⟨next, run, rfl⟩ := Option.map_eq_some_iff.1 taken
    exact inv.store (sfSpiderInit_handle run)
  | copy parent nested =>
    cases taken
    exact inv.store (inv parent)
  | insert s name value =>
    obtain ⟨next, run, rfl⟩ := Option.map_eq_some_iff.1 taken
    exact inv.store (by simp [createInsert_handle run])
  | delete s name =>
    obtain ⟨next, run, rfl⟩ := Option.map_eq_some_iff.1 taken
    exact inv.store (sfVarDelete_handle run)
  | search s name =>
    obtain ⟨found, -, rfl⟩ := Option.map_eq_some_iff.1 taken
    exact inv

theorem handle_none_iff {p : Process} (h : Reach (actStep fuel) Any (.start m) p) :
    HandlesBare p := by
  refine h.invariant (fun s => by simp [Process.start]) ?_
  intro p act p' _ inv _ taken
  exact inv.step taken

/-- **No search of a run is on a NULL handle if and only if each is on a table that something has
put a variable in, and no deletion has taken out the last.** -/
theorem searches_table_iff (fuel : Nat) (m : VarMem) (acts : List Act) :
    Along (actStep fuel) SearchesTable (.start m) acts ↔
      Along (actStep fuel) SearchesFilled (.start m) acts := by
  apply along_congr
  intro p act reached
  refine forall₂_congr fun s _ => ?_
  rw [ne_eq, handle_none_iff reached s, Bool.not_eq_true]

/-! ## The second spider of a process -/

/-- Two spiders whose configuration has no `var`, and a template of the second. -/
def secondActs : List Act := [.init [], .init []]

def emptyMem : VarMem := ⟨⟨id, id⟩, fun _ => ⟨.empty, .empty⟩, 0⟩

theorem secondActs_runs : (exec (actStep 1) (.start emptyMem) secondActs).isSome := rfl

/-- `sf_var_search` gets a NULL handle. -/
theorem searches_null_handle : ¬ ∀ (fuel : Nat) (m : VarMem) (acts : List Act),
    Along (actStep fuel) SearchesTable (.start m) acts := by
  intro claim
  have table := (claim 1 emptyMem (secondActs ++ [.search 1 (.letter 0)])).at_step
    (Option.some_get secondActs_runs).symm
  revert table
  decide +kernel

end SpiderFrame.Var
