import SpiderFrame.Page.Stores
import SpiderFrame.Page.TraceRun

/-!
# The references that templates resolve (`sf_var.c`, `sf_json.c`)

`sf_var_exp` and `sf_json_print_buf` have a loop each for the same templates. Both are followed here
with the variables that they find: the first goes on behind the end of its buffer, as in the
results about its stores. `references_agree` says that they find the same variables;
`json_resolves_iff` says for which templates `sf_json_print_buf` prints them in full, since
`sf_json_print_field` takes the length of its data in 32 bits.
-/

namespace SpiderFrame.Page
open SpiderFrame.Base SpiderFrame.Var SpiderFrame.Link SpiderFrame.Json

/-- What `sf_var_exp` does, with the variables that it has found. -/
def resolveActions (fuel : Nat) (m : VarMem) (handle : Option Nat) :
    Actions (Trail × List Nat) where
  letter c t := (t.1.write [c], t.2)
  closed name t :=
    (sfVarSearch fuel m handle (.ofBytes name)).map fun v =>
      let text := varText m name v
      (if t.1.d + text.length < maxVarSize then t.1.write text else t.1, t.2 ++ v.toList)
  tail text t := (t.1.strcpy text, t.2)

/-- The variables whose references `sf_var_exp(handle, varexp, pool)` resolves. -/
def sfVarExpResolved (fuel : Nat) (m : VarMem) (handle : Option Nat) (varexp : CString) :
    Option (List Nat) :=
  (scanLoop 36#8 (resolveActions fuel m handle) (varexp.bytes.length + 1) varexp.bytes
    (.start, [])).map Prod.snd

/-- The data of a call of `sf_json_print_field` whose length is `strlen` of them: the parameter is
a `uint32_t`. -/
def passed (data : List Byte) : List Byte := data.take (data.length % 2 ^ 32)

/-- The calls for a variable: the key is `v->name + 1`. -/
def printFound (m : VarMem) (v : Nat) : List Op :=
  [.key (passed ((m.vars v).name.bytes.drop 1)), .string (passed (m.vars v).value.bytes)]

/-- The loop of `sf_json_print_buf`. -/
def printLoop (fuel : Nat) (m : VarMem) (handle : Option Nat) : Nat → List Byte → Option (List Op)
  | 0, _ => none
  | _ + 1, [] => some []
  | n + 1, c :: cs =>
    if c = 40#8 ∧ cs.head? = some 36#8 then
      match cs.dropWhile (· ≠ 41#8) with
      | _ :: behind =>
        (sfVarSearch fuel m handle (.ofBytes (cs.takeWhile (· ≠ 41#8)))).bind fun v =>
          (printLoop fuel m handle n behind).map (v.toList.flatMap (printFound m) ++ ·)
      | [] => printLoop fuel m handle n []
    else printLoop fuel m handle n cs

/-- The calls of `sf_json_print_field` in `sf_json_print_buf(handle, varexp)`. -/
def sfJsonPrintBufCalls (fuel : Nat) (m : VarMem) (handle : Option Nat) (varexp : CString) :
    Option (List Op) :=
  (printLoop fuel m handle (varexp.bytes.length + 1) varexp.bytes).map fun calls =>
    .objectBegin :: (calls ++ [.objectEnd])

/-! ## What is to be printed -/

/-- The name without its `$` as the key, and the value. -/
def member (m : VarMem) (v : Nat) : List Op :=
  [.key ((m.vars v).name.bytes.drop 1), .string (m.vars v).value.bytes]

/-- The variables in the ring `l` that these references name. -/
def resolved (m : VarMem) (l : List Nat) (names : List (List Byte)) : List Nat :=
  names.filterMap fun name => l.find? (named m (varName name))

/-- Both functions resolve the same references, and what is printed is an object with these
variables as its members. -/
def SameReferences (fuel : Nat) (m : VarMem) (handle : Option Nat) (varexp : CString) : Prop :=
  ∃ vs, sfVarExpResolved fuel m handle varexp = some vs ∧
    sfJsonPrintBufCalls fuel m handle varexp =
      some (.objectBegin :: (vs.flatMap (member m) ++ [.objectEnd]))

/-- The lengths of the variable are a `uint32_t`. -/
def FitsWord (m : VarMem) (v : Nat) : Prop :=
  ((m.vars v).name.bytes.drop 1).length < 2 ^ 32 ∧ (m.vars v).value.bytes.length < 2 ^ 32

section

variable {fuel : Nat} {m : VarMem} {handle : Option Nat} {l : List Nat}

theorem resolved_append (names names' : List (List Byte)) :
    resolved m l (names ++ names') = resolved m l names ++ resolved m l names' :=
  List.filterMap_append

/-! ## `sf_var_exp` -/

/-- The stores are those of the scanner. -/
theorem resolveActions_trail {ps : List (Piece Byte)} : ∀ {t : Trail × List Nat},
    (ps.foldlM ((resolveActions fuel m handle).piece 36#8) t).map Prod.fst =
      ps.foldlM ((varActions fuel m handle).piece 36#8) t.1 := by
  induction ps with
  | nil =>
    intro t
    rfl
  | cons p ps ih =>
    intro t
    have one : ((resolveActions fuel m handle).piece 36#8 t p).map Prod.fst =
        (varActions fuel m handle).piece 36#8 t.1 p := by
      cases p with
      | letter a => rfl
      | unclosed as => rfl
      | reference name => simp [Actions.piece, resolveActions, varActions, Function.comp_def]
    rw [List.foldlM_cons, List.foldlM_cons, ← one]
    cases (resolveActions fuel m handle).piece 36#8 t p with
    | none => rfl
    | some t' => exact ih

theorem sfVarExpResolved_stores (varexp : CString) :
    (scanLoop 36#8 (resolveActions fuel m handle) (varexp.bytes.length + 1) varexp.bytes
      (.start, [])).map (fun t => t.1.stores) = sfVarExpStores fuel m handle varexp := by
  have split_ : (fun t : Trail × List Nat => t.1.stores) = Trail.stores ∘ Prod.fst := rfl
  rw [sfVarExpStores, scanLoop_pieces (by decide) _ (Nat.lt_succ_self _),
    scanLoop_pieces (by decide) _ (Nat.lt_succ_self _), split_, ← Option.map_map,
    resolveActions_trail]

/-- **The pieces of a template resolve the references that name a variable.** -/
theorem resolveActions_pieces (ring : RingAt m.links handle l) (some_ : handle ≠ none)
    (enough : l.length ≤ fuel) {ps : List (Piece Byte)} : ∀ {t : Trail × List Nat},
    (ps.foldlM ((resolveActions fuel m handle).piece 36#8) t).map Prod.snd =
      some (t.2 ++ resolved m l (ps.filterMap Piece.name?)) := by
  induction ps with
  | nil =>
    intro t
    simp [resolved]
  | cons p ps ih =>
    intro t
    rw [List.foldlM_cons]
    cases p with
    | letter a => exact ih
    | unclosed as => exact ih
    | reference name =>
      have found : sfVarSearch fuel m handle (.ofBytes (36#8 :: name)) =
          some (l.find? (named m (varName name))) := sfVarSearch_ring ring some_ enough
      have names : (Piece.reference name :: ps).filterMap Piece.name? =
          [name] ++ ps.filterMap Piece.name? := rfl
      have own : resolved m l [name] = (l.find? (named m (varName name))).toList := by
        cases here : l.find? (named m (varName name)) <;> simp [resolved, here]
      simp only [Actions.piece, resolveActions, found, Option.map_some]
      rw [names, resolved_append, ← List.append_assoc, own]
      exact ih

theorem sfVarExpResolved_eq (ring : RingAt m.links handle l) (some_ : handle ≠ none)
    (enough : l.length ≤ fuel) (varexp : CString) :
    sfVarExpResolved fuel m handle varexp =
      some (resolved m l (references 40#8 36#8 41#8 varexp.bytes)) := by
  rw [sfVarExpResolved, scanLoop_pieces (by decide) _ (Nat.lt_succ_self _),
    resolveActions_pieces ring some_ enough]
  rfl

/-! ## `sf_json_print_buf` -/

/-- **The loop prints the variables that the references name.** -/
theorem printLoop_pieces (ring : RingAt m.links handle l) (some_ : handle ≠ none)
    (enough : l.length ≤ fuel) {n : Nat} : ∀ {cs : List Byte}, cs.length < n →
      printLoop fuel m handle n cs =
        some ((resolved m l (references 40#8 36#8 41#8 cs)).flatMap (printFound m)) := by
  induction n with
  | zero =>
    intro cs enough
    omega
  | succ n ih =>
    intro cs long
    cases begins 40#8 36#8 41#8 cs with
    | nil => rfl
    | letter c cs notOpen =>
      rw [List.length_cons] at long
      rw [printLoop, if_neg notOpen, ih (by omega), references, references, pieces_letter notOpen]
      rfl
    | reference name behind open_ =>
      have cut : (36#8 :: (name ++ 41#8 :: behind)).dropWhile (· ≠ 41#8) = 41#8 :: behind :=
        dropWhile_closed (marked_open (by decide) open_) behind
      have name_ : (36#8 :: (name ++ 41#8 :: behind)).takeWhile (· ≠ 41#8) = 36#8 :: name :=
        takeWhile_closed (marked_open (by decide) open_) behind
      have found : sfVarSearch fuel m handle (.ofBytes (36#8 :: name)) =
          some (l.find? (named m (varName name))) := sfVarSearch_ring ring some_ enough
      simp only [List.length_cons, List.length_append] at long
      have rest := ih (show behind.length < n by omega)
      rw [printLoop, if_pos ⟨rfl, rfl⟩, references, pieces_reference open_]
      simp only [cut, name_, found, Option.bind_some, rest, Option.map_some]
      cases here : l.find? (named m (varName name)) <;>
        simp [resolved, references, Piece.name?, here]
    | unclosed as open_ =>
      have cut : (36#8 :: as).dropWhile (· ≠ 41#8) = [] :=
        dropWhile_open (marked_open (by decide) open_)
      simp only [List.length_cons] at long
      have rest := ih (show ([] : List Byte).length < n by rw [List.length_nil]; omega)
      rw [printLoop, if_pos ⟨rfl, rfl⟩, references, pieces_tail open_]
      simp only [cut, rest]
      rfl

theorem sfJsonPrintBufCalls_eq (ring : RingAt m.links handle l) (some_ : handle ≠ none)
    (enough : l.length ≤ fuel) (varexp : CString) :
    sfJsonPrintBufCalls fuel m handle varexp =
      some (.objectBegin :: ((resolved m l (references 40#8 36#8 41#8 varexp.bytes)).flatMap
        (printFound m) ++ [.objectEnd])) := by
  rw [sfJsonPrintBufCalls, printLoop_pieces ring some_ enough (Nat.lt_succ_self _)]
  rfl

/-- **The variables that `sf_var_exp` resolves are those that `sf_json_print_buf` prints.** -/
theorem references_agree (ring : RingAt m.links handle l) (some_ : handle ≠ none)
    (enough : l.length ≤ fuel) (varexp : CString) :
    ∃ vs, sfVarExpResolved fuel m handle varexp = some vs ∧
      sfJsonPrintBufCalls fuel m handle varexp =
        some (.objectBegin :: (vs.flatMap (printFound m) ++ [.objectEnd])) :=
  ⟨_, sfVarExpResolved_eq ring some_ enough varexp, sfJsonPrintBufCalls_eq ring some_ enough varexp⟩

/-! ## Lengths in 32 bits -/

theorem passed_iff (data : List Byte) : passed data = data ↔ data.length < 2 ^ 32 := by
  constructor
  · intro whole
    have length := congrArg List.length whole
    rw [passed, List.length_take] at length
    have word := Nat.mod_lt data.length (show 0 < 2 ^ 32 by decide)
    omega
  · intro short
    rw [passed, Nat.mod_eq_of_lt short, List.take_length]

theorem printFound_iff (v : Nat) : printFound m v = member m v ↔ FitsWord m v := by
  rw [FitsWord, ← passed_iff, ← passed_iff]
  simp [printFound, member]

/-- Members of two calls each are the same one by one. -/
theorem flatMap_printFound (vs : List Nat) :
    vs.flatMap (printFound m) = vs.flatMap (member m) ↔ ∀ v ∈ vs, FitsWord m v := by
  induction vs with
  | nil => simp
  | cons v vs ih =>
    have same : (printFound m v).length = (member m v).length := rfl
    rw [List.flatMap_cons, List.flatMap_cons, List.forall_mem_cons, ← ih, ← printFound_iff]
    constructor
    · intro both
      exact List.append_inj both same
    · rintro ⟨first, rest⟩
      rw [first, rest]

/-- **What `sf_json_print_buf` prints is the object of the variables that `sf_var_exp` resolves,
if and only if their names and values are shorter than `2 ^ 32` bytes.** -/
theorem json_resolves_iff (ring : RingAt m.links handle l) (nonEmpty : l ≠ [])
    (enough : l.length ≤ fuel) (varexp : CString) :
    SameReferences fuel m handle varexp ↔
      ∀ v ∈ resolved m l (references 40#8 36#8 41#8 varexp.bytes), FitsWord m v := by
  have some_ : handle ≠ none := fun e => nonEmpty (ring.nil_iff.1 e)
  rw [SameReferences, sfVarExpResolved_eq ring some_ enough,
    sfJsonPrintBufCalls_eq ring some_ enough, ← flatMap_printFound]
  constructor
  · rintro ⟨vs, same, calls⟩
    cases same
    simpa using calls
  · intro same
    exact ⟨_, rfl, by rw [same]⟩

end

/-! ## The calls in a run -/

section

variable {Re : Type} {fuel : Nat} {r : Ref} {w : World Re} {l : List Nat}

/-- The loop over the pieces prints the members of the variables found. -/
theorem printPieces_run (ring : RingAt w.vars.links (w.spider r).varHandle l)
    (some_ : (w.spider r).varHandle ≠ none) (enough : l.length ≤ fuel) (ps : List (Piece Byte)) :
    Prog.each (printPiece fuel r) ps w =
      (((resolved w.vars l (ps.filterMap Piece.name?)).flatMap (member w.vars)).map .json,
        some ((), w)) := by
  induction ps with
  | nil => rfl
  | cons p ps ih =>
    cases p with
    | letter a => exact (Prog.pure_bind _ _ w).trans ih
    | unclosed as => exact (Prog.pure_bind _ _ w).trans ih
    | reference name =>
      have found : sfVarSearch fuel w.vars (w.spider r).varHandle (varName name) =
          some (l.find? (named w.vars (varName name))) := sfVarSearch_ring ring some_ enough
      have first : printPiece fuel r (.reference name) w =
          (((l.find? (named w.vars (varName name))).toList.flatMap (member w.vars)).map .json,
            some ((), w)) := by
        rw [printPiece, Prog.get_bind, found]
        cases l.find? (named w.vars (varName name)) with
        | none => rfl
        | some v => rfl
      refine (Prog.bind_then first ih).trans ?_
      cases here : l.find? (named w.vars (varName name)) <;>
        simp [resolved, Piece.name?, here]

/-- **For short variables, the calls are those of the function over pieces.** -/
theorem sfJsonPrintBuf_calls (ring : RingAt w.vars.links (w.spider r).varHandle l)
    (some_ : (w.spider r).varHandle ≠ none) (enough : l.length ≤ fuel) (varexp : CString)
    (fits : ∀ v ∈ resolved w.vars l (references 40#8 36#8 41#8 varexp.bytes), FitsWord w.vars v) :
    ∃ calls, sfJsonPrintBufCalls fuel w.vars (w.spider r).varHandle varexp = some calls ∧
      sfJsonPrintBuf fuel r varexp w = (calls.map .json, some ((), w)) := by
  rw [sfJsonPrintBufCalls_eq ring some_ enough, (flatMap_printFound _).2 fits]
  refine ⟨_, rfl, (around_done (printPieces_run ring some_ enough _)).trans ?_⟩
  simp [references]

end

theorem json_resolves_iff_oneVar : SameReferences 1 oneVar (some 0) knownTemplate := by
  apply (json_resolves_iff oneVar_ring (by simp) (Nat.le_refl 1) knownTemplate).2
  have names : references 40#8 36#8 41#8 knownTemplate.bytes = [[97#8]] := by decide
  have found : [0].find? (named oneVar (varName [97#8])) = some 0 := by decide
  intro v hv
  simp only [names, resolved, List.filterMap_cons, found, List.filterMap_nil,
    List.mem_singleton] at hv
  subst hv
  exact ⟨by decide, by decide⟩

/-- The table with the variable `$a` alone, of `2 ^ 32` letters. -/
def wideVar : VarMem where
  links := ⟨id, id⟩
  vars := fun _ => ⟨.ofBytes [36#8, 97#8], xs (2 ^ 32)⟩
  fresh := 1

/-- The length of the value is 0 in 32 bits, so that the empty string is printed. -/
theorem json_prints_nothing : ¬ SameReferences 1 wideVar (some 0) knownTemplate := by
  have ring : RingAt wideVar.links (some 0) [0] :=
    ⟨⟨List.nodup_singleton 0, by simp [wideVar, Linked]⟩, rfl⟩
  have names : references 40#8 36#8 41#8 knownTemplate.bytes = [[97#8]] := by decide
  have named_ : named wideVar (varName [97#8]) 0 = true := by decide
  rw [json_resolves_iff ring (by simp) (Nat.le_refl 1)]
  intro all
  have fits := (all 0 (by simp [names, resolved, named_])).2
  -- the value is only measured, never written out
  have length : (wideVar.vars 0).value.bytes.length = 2 ^ 32 := List.length_replicate
  rw [length] at fits
  exact Nat.lt_irrefl _ fits

end SpiderFrame.Page
