import SpiderFrame.Conf.Confset
import SpiderFrame.Queue.Record

/-!
# Saving and loading checkpoints (`sf_checkpoint.c`)

`sf_save_chkpoint` appends a line `conf_fn|line` to the file `check_point`. `sf_load_chkpoint`
reads with the format `SF_CHKPOINT_FN`, which is the name of that file and not the pattern of its
lines: the format has no conversion, so a call stores nothing, and it stops at the first byte
that differs from the name. A saved line has a `|`, which the name has not, so no call gets past
a saved line and the loop does not end (`sfLoadChkpoint_endless`).
-/

namespace SpiderFrame.Conf
open SpiderFrame.Hash SpiderFrame.Queue

/-- `fprintf(fp, SF_CHKPOINT_PATTERN, conf_fn, line)`, with the pattern `"%s|%d\n"`. -/
def fprintfChkpoint (confFn : CString) (line : Int) : List Byte :=
  confFn.bytes ++ 124#8 :: (printInt line ++ [10#8])

/-- `sf_save_chkpoint(conf_fn, line)` on the bytes of the file. -/
def sfSaveChkpoint (file : List Byte) (confFn : CString) (line : Int) : List Byte :=
  file ++ fprintfChkpoint confFn line

/-- `SF_CHKPOINT_FN`: `check_point`. -/
def chkpointFn : List Byte :=
  [99#8, 104#8, 101#8, 99#8, 107#8, 95#8, 112#8, 111#8, 105#8, 110#8, 116#8]

/-- `fscanf` with a format of ordinary characters: what it returns and the bytes it leaves. -/
def fscanfLiteral : List Byte → List Byte → Int × List Byte
  | [], bs => (0, bs)
  | _ :: _, [] => (EOF, [])
  | d :: format, b :: bs => if b = d then fscanfLiteral format bs else (0, b :: bs)

/-- The loop of `sf_load_chkpoint`, with its variables `conf_fn` and `line`. -/
def loadChkpoints : Nat → Confset → CString → Int → List Byte → Option Confset
  | 0, _, _, _, _ => none
  | fuel + 1, t, confFn, line, bs =>
    let (rc, bs) := fscanfLiteral chkpointFn bs
    if rc = EOF then some t
    else
      let t :=
        match sfConfsetSearch t confFn with
        | some h => t.store h ⟨(t.data h).body.2.s, line⟩
        | none => sfConfsetInsert t confFn ⟨none, line⟩
      loadChkpoints fuel t confFn line bs

/-- `sf_load_chkpoint()`; its variables start out as garbage. Without a file it returns. -/
def sfLoadChkpoint (fuel : Nat) (garbage : CString × Int) (t : Confset) (file : Option (List Byte)) :
    Option Confset :=
  match file with
  | none => some t
  | some bs => loadChkpoints fuel t garbage.1 garbage.2 bs

/-- `sf_get_checkpoint(conf_fn)`. -/
def sfGetCheckpoint (t : Confset) (confFn : CString) : Int :=
  match sfConfsetSearch t confFn with
  | some h => (t.data h).body.2.line
  | none => 0

theorem sfGetCheckpoint_eq (t : Confset) (confFn : CString) :
    sfGetCheckpoint t confFn = ((t.lookup confFn).map HashConf.line).getD 0 := by
  unfold sfGetCheckpoint sfConfsetSearch NameTable.lookup
  cases t.search confFn <;> rfl

/-! ## What is loaded from what was saved -/

/-- The file after these calls on an empty one. -/
def savedFile (saves : List (CString × Int)) : List Byte :=
  saves.foldl (fun file save => sfSaveChkpoint file save.1 save.2) []

/-- The line of the last save for a name, 0 when there is none. -/
def lastSaved (saves : List (CString × Int)) (confFn : CString) : Int :=
  saves.foldl (fun line save => if save.1 = confFn then save.2 else line) 0

/-- The load ends, and then each name has the line of its last save. -/
def RoundTrip (garbage : CString × Int) (saves : List (CString × Int)) : Prop :=
  ∃ fuel t, sfLoadChkpoint fuel garbage sfConfsetInit (some (savedFile saves)) = some t ∧
    ∀ confFn, sfGetCheckpoint t confFn = lastSaved saves confFn

/-- A call does not get past a byte that the format has not. -/
theorem fscanfLiteral_stops {format : List Byte} {x : Byte} (notIn : x ∉ format) :
    ∀ {bs : List Byte}, x ∈ bs →
      (fscanfLiteral format bs).1 = 0 ∧ x ∈ (fscanfLiteral format bs).2 := by
  induction format with
  | nil => exact fun inside => ⟨rfl, inside⟩
  | cons d format ih =>
    intro bs inside
    rw [List.mem_cons, not_or] at notIn
    cases bs with
    | nil => cases inside
    | cons b bs =>
      unfold fscanfLiteral
      split
      · rename_i same
        exact ih notIn.2 ((List.mem_cons.1 inside).resolve_left (same ▸ notIn.1))
      · exact ⟨rfl, inside⟩

theorem loadChkpoints_endless {x : Byte} (notIn : x ∉ chkpointFn) (fuel : Nat) :
    ∀ {t : Confset} {confFn : CString} {line : Int} {bs : List Byte}, x ∈ bs →
      loadChkpoints fuel t confFn line bs = none := by
  induction fuel with
  | zero => exact fun _ => rfl
  | succ fuel ih =>
    intro t confFn line bs inside
    obtain ⟨rc, rest⟩ := fscanfLiteral_stops notIn inside
    have going : (fscanfLiteral chkpointFn bs).1 ≠ EOF := by
      rw [rc]
      decide
    unfold loadChkpoints
    simp only [going, if_false]
    exact ih rest

theorem bar_mem_savedFile {saves : List (CString × Int)} (some_ : saves ≠ []) :
    124#8 ∈ savedFile saves := by
  obtain ⟨before, save, rfl⟩ := List.eq_nil_or_concat saves |>.resolve_left some_
  rw [List.concat_eq_append, savedFile, List.foldl_append]
  simp [sfSaveChkpoint, fprintfChkpoint]

/-- **A load of a file with a saved line does not end.** -/
theorem sfLoadChkpoint_endless {saves : List (CString × Int)} (some_ : saves ≠ [])
    (garbage : CString × Int) (t : Confset) (fuel : Nat) :
    sfLoadChkpoint fuel garbage t (some (savedFile saves)) = none :=
  loadChkpoints_endless (by decide) fuel (bar_mem_savedFile some_)

/-- **Checkpoints come back if and only if none was saved.** -/
theorem checkpoint_round_trip_iff (garbage : CString × Int) (saves : List (CString × Int)) :
    RoundTrip garbage saves ↔ saves = [] := by
  constructor
  · rintro ⟨fuel, t, run, -⟩
    by_contra some_
    rw [sfLoadChkpoint_endless some_] at run
    cases run
  · rintro rfl
    refine ⟨1, sfConfsetInit, rfl, fun confFn => ?_⟩
    rw [sfGetCheckpoint_eq, lookup_sfConfsetInit]
    rfl

/-- One checkpoint, of the configuration file `a`. -/
theorem checkpoint_lost : ¬ ∀ (garbage : CString × Int) (saves : List (CString × Int)),
    (∀ save ∈ saves, save.1.bytes ≠ [] ∧ (∀ b ∈ save.1.bytes, isSpace b = false) ∧
      save.1.bytes.length < 255) → RoundTrip garbage saves := by
  intro claim
  obtain ⟨fuel, t, run, -⟩ := claim (.empty, 0) [(.letter 0, 10)] (by decide)
  rw [sfLoadChkpoint_endless (List.cons_ne_nil _ _)] at run
  cases run

end SpiderFrame.Conf
