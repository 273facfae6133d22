import SpiderFrame.Page.Scan
import SpiderFrame.Var.Map

/-!
# Templates as substitutions (`sf_var.c`, `sf_proc.c`)

`substitute` says what the expansion of a template is for. `sf_var_exp` computes it for each
template and each table that is not empty. `sf_rewrite_exp` does not: it keeps the text of the last
known group in `outstr` and frees `outstr` after each reference, so an unknown group behind a known
one frees that text twice. It computes the substitution if and only if there is no such group
(`template_substitutes_iff`).
-/

namespace SpiderFrame.Page
open SpiderFrame.Base SpiderFrame.Var SpiderFrame.Queue SpiderFrame.Link

variable {Re : Type}

/-- The value of the variable `$name`. -/
def varValue (env : List VarTable) (name : List Byte) : Option (List Byte) :=
  (lookup env (varName name)).map fun v => v.value.bytes

/-- The text of the group `name`. -/
def groupValue (named : CString → Option CString) (name : List Byte) : Option (List Byte) :=
  (named (.ofBytes name)).map CString.bytes

/-- A template with the values of variables. -/
def varSubstitution (env : List VarTable) (varexp : CString) : List Byte :=
  substitute 40#8 36#8 41#8 (varValue env) varexp.bytes

/-- A template with the texts of groups. -/
def groupSubstitution (named : CString → Option CString) (varexp : CString) : List Byte :=
  substitute 40#8 35#8 41#8 (groupValue named) varexp.bytes

/-- Both functions give the substitution, when it fits: `sf_var_exp` with the variables of the nodes
`l`, and `sf_rewrite_exp` with the groups of the match. -/
structure Substitutes (fuel : Nat) (m : VarMem) (handle : Option Nat) (l : List Nat)
    (pcre : Pcre Re) (re : Re) (buf : CString) (hit : Int × List Int) (varexp : CString) :
    Prop where
  var : (varSubstitution (l.map m.vars) varexp).length < maxVarSize →
    (sfVarExpScan fuel m handle varexp).map CString.bytes =
      some (varSubstitution (l.map m.vars) varexp)
  group : (groupSubstitution (pcre.getNamedSubstring re buf.bytes hit) varexp).length < 1024 →
    (sfRewriteExpScan pcre (some varexp) re buf hit).map CString.bytes =
      some (groupSubstitution (pcre.getNamedSubstring re buf.bytes hit) varexp)

/-- No unknown group stands behind a known one. -/
def KnownLast (named : CString → Option CString) (names : List (List Byte)) : Prop :=
  names.Pairwise fun first later => (groupValue named first).isSome → (groupValue named later).isSome

theorem noNul_bytes {text : List Byte} (noNul : 0#8 ∉ text) :
    (CString.ofBytes text).bytes = text :=
  congrArg CString.bytes (CString.ofBytes_bytes ⟨text, noNul⟩)

/-! ## `sf_var_exp` -/

section Expand

variable {fuel : Nat} {m : VarMem} {handle : Option Nat} {l : List Nat}

theorem varSubstitution_noNul (env : List VarTable) (varexp : CString) :
    0#8 ∉ varSubstitution env varexp := by
  intro inside
  obtain h | ⟨name, v, known, h⟩ := mem_substitute inside
  · exact varexp.noNul h
  · obtain ⟨v, -, rfl⟩ := Option.map_eq_some_iff.1 known
    exact v.value.noNul h

/-- What is copied for a reference is its value. -/
theorem varText_find (name : List Byte) :
    varText m (36#8 :: name) (l.find? (named m (varName name))) =
      (Piece.reference name).value 40#8 36#8 41#8 (varValue (l.map m.vars)) := by
  have found : lookup (l.map m.vars) (varName name) =
      (l.find? (named m (varName name))).map m.vars := by
    rw [lookup, List.find?_map]
    congr 2
  rw [Piece.value, varValue, found]
  cases l.find? (named m (varName name)) with
  | none => rfl
  | some v => rfl

/-- While there is room, the pieces are copied one after the other. -/
theorem expandPieces_run (ring : RingAt m.links handle l) (some_ : handle ≠ none)
    (enough : l.length ≤ fuel) {ps : List (Piece Byte)} :
    ∀ {dststr : List Byte},
      (dststr ++ ps.flatMap (Piece.value 40#8 36#8 41#8 (varValue (l.map m.vars)))).length <
        maxVarSize →
      ps.foldlM (expandPiece fuel m handle) dststr =
        some (dststr ++ ps.flatMap (Piece.value 40#8 36#8 41#8 (varValue (l.map m.vars)))) := by
  induction ps with
  | nil =>
    intro dststr _
    rw [List.flatMap_nil, List.append_nil]
    rfl
  | cons p ps ih =>
    intro dststr short
    have step : expandPiece fuel m handle dststr p =
        some (dststr ++ p.value 40#8 36#8 41#8 (varValue (l.map m.vars))) := by
      cases p with
      | letter a => rfl
      | unclosed as => rfl
      | reference name =>
        rw [expandPiece_reference, sfVarSearch_ring ring some_ enough, Option.map_some]
        simp only [varText_find]
        rw [if_pos]
        simp only [List.flatMap_cons, List.length_append] at short
        omega
    rw [List.flatMap_cons, ← List.append_assoc] at short ⊢
    rw [List.foldlM_cons, step]
    exact ih short

theorem varSubstitution_pieces (env : List VarTable) (varexp : CString) :
    varSubstitution env varexp =
      (varPieces varexp.bytes).flatMap (Piece.value 40#8 36#8 41#8 (varValue env)) :=
  substitute_pieces _ _

theorem sfVarExp_substitutes (ring : RingAt m.links handle l) (some_ : handle ≠ none)
    (enough : l.length ≤ fuel) {varexp : CString}
    (short : (varSubstitution (l.map m.vars) varexp).length < maxVarSize) :
    sfVarExp fuel m handle (some varexp) =
      some (.ofBytes (varSubstitution (l.map m.vars) varexp)) := by
  have run : (varPieces varexp.bytes).foldlM (expandPiece fuel m handle) [] =
      some (varSubstitution (l.map m.vars) varexp) := by
    rw [varSubstitution_pieces] at short ⊢
    exact expandPieces_run ring some_ enough short
  rw [sfVarExp, Option.bind_some, run, Option.bind_some, if_pos short]

theorem sfVarExpScan_substitutes (ring : RingAt m.links handle l) (some_ : handle ≠ none)
    (enough : l.length ≤ fuel) {varexp : CString}
    (short : (varSubstitution (l.map m.vars) varexp).length < maxVarSize) :
    (sfVarExpScan fuel m handle varexp).map CString.bytes =
      some (varSubstitution (l.map m.vars) varexp) := by
  have noNul := varSubstitution_noNul (l.map m.vars) varexp
  rw [sfVarExp_scan, sfVarExp_substitutes ring some_ enough short, Option.map_some,
    noNul_bytes noNul]

end Expand

/-! ## `sf_rewrite_exp` -/

section Rewrite

variable {named : CString → Option CString}

theorem groupSubstitution_noNul (named : CString → Option CString) (varexp : CString) :
    0#8 ∉ groupSubstitution named varexp := by
  intro inside
  obtain h | ⟨name, v, known, h⟩ := mem_substitute inside
  · exact varexp.noNul h
  · obtain ⟨outstr, -, rfl⟩ := Option.map_eq_some_iff.1 known
    exact outstr.noNul h

/-- The pieces of a template that `sf_rewrite_exp` comes through. -/
theorem rewritePieces_run {ps : List (Piece Byte)} :
    ∀ {r : Rewriting}, (ps.foldlM (rewritePiece named) r).isSome ↔
      (r.freed = true → ∀ name ∈ ps.filterMap Piece.name?, (groupValue named name).isSome) ∧
        KnownLast named (ps.filterMap Piece.name?) := by
  induction ps with
  | nil =>
    intro r
    simp [KnownLast]
  | cons p ps ih =>
    intro r
    rw [List.foldlM_cons]
    cases p with
    | letter a => exact ih
    | unclosed as => exact ih
    | reference name =>
      have names : (Piece.reference name :: ps).filterMap Piece.name? =
          name :: ps.filterMap Piece.name? := rfl
      rw [names, KnownLast, List.pairwise_cons]
      cases known : named (.ofBytes name) with
      | some outstr =>
        have here : (groupValue named name).isSome := by simp [groupValue, known]
        rw [rewritePiece_known known]
        refine ih.trans ⟨?_, ?_⟩
        · rintro ⟨all, tail⟩
          refine ⟨fun _ => List.forall_mem_cons.2 ⟨here, all rfl⟩, ?_, tail⟩
          intro later inside _
          exact all rfl later inside
        · rintro ⟨-, all, tail⟩
          exact ⟨fun _ later inside => all later inside here, tail⟩
      | none =>
        have here : ¬ (groupValue named name).isSome := by simp [groupValue, known]
        rw [rewritePiece_unknown known]
        cases freed : r.freed with
        | true =>
          constructor
          · intro run
            cases run
          · rintro ⟨all, -⟩
            exact absurd (all rfl name List.mem_cons_self) here
        | false =>
          refine ih.trans ⟨?_, ?_⟩
          · rintro ⟨-, tail⟩
            exact ⟨nofun, fun _ _ known' => absurd known' here, tail⟩
          · rintro ⟨-, -, tail⟩
            exact ⟨nofun, tail⟩

theorem pieceText_value (p : Piece Byte) :
    pieceText named p = p.value 40#8 35#8 41#8 (groupValue named) := by
  cases p with
  | letter a => rfl
  | unclosed as => rfl
  | reference name => rfl

theorem sfRewriteExpScan_substitutes_iff (pcre : Pcre Re) (re : Re) (buf : CString)
    (hit : Int × List Int) {varexp : CString}
    (short : (groupSubstitution (pcre.getNamedSubstring re buf.bytes hit) varexp).length < 1024) :
    (sfRewriteExpScan pcre (some varexp) re buf hit).map CString.bytes =
        some (groupSubstitution (pcre.getNamedSubstring re buf.bytes hit) varexp) ↔
      KnownLast (pcre.getNamedSubstring re buf.bytes hit)
        (references 40#8 35#8 41#8 varexp.bytes) := by
  rw [sfRewriteExp_scan, sfRewriteExp]
  generalize pcre.getNamedSubstring re buf.bytes hit = named at short ⊢
  have runs : ((rewritePieces varexp.bytes).foldlM (rewritePiece named) ⟨[], false⟩).isSome ↔
      KnownLast named (references 40#8 35#8 41#8 varexp.bytes) :=
    rewritePieces_run.trans (and_iff_right fun freed => by cases freed)
  rw [← runs]
  cases run : (rewritePieces varexp.bytes).foldlM (rewritePiece named) ⟨[], false⟩ with
  | none => simp
  | some r =>
    have text : r.dststr = groupSubstitution named varexp := by
      rw [rewritePieces_text run, groupSubstitution, substitute_pieces, List.nil_append,
        List.flatMap_def]
      exact congrArg List.flatten (List.map_congr_left fun p _ => pieceText_value p)
    simp only [Option.bind_some, Option.isSome_some, iff_true]
    rw [text, buffered, if_pos short, Option.map_some,
      noNul_bytes (groupSubstitution_noNul named varexp)]

end Rewrite

/-- **Both functions give the substitution if and only if no unknown group of the template stands
behind a known one.** -/
theorem template_substitutes_iff {fuel : Nat} {m : VarMem} {handle : Option Nat} {l : List Nat}
    (ring : RingAt m.links handle l) (nonEmpty : l ≠ []) (enough : l.length ≤ fuel)
    (pcre : Pcre Re) (re : Re) (buf : CString) (hit : Int × List Int) (varexp : CString) :
    Substitutes fuel m handle l pcre re buf hit varexp ↔
      ((groupSubstitution (pcre.getNamedSubstring re buf.bytes hit) varexp).length < 1024 →
        KnownLast (pcre.getNamedSubstring re buf.bytes hit)
          (references 40#8 35#8 41#8 varexp.bytes)) := by
  have some_ : handle ≠ none := fun e => nonEmpty (ring.nil_iff.1 e)
  constructor
  · intro both short
    exact (sfRewriteExpScan_substitutes_iff pcre re buf hit short).1 (both.group short)
  · intro known
    refine ⟨fun short => sfVarExpScan_substitutes ring some_ enough short, fun short => ?_⟩
    exact (sfRewriteExpScan_substitutes_iff pcre re buf hit short).2 (known short)

/-! ## One variable and one group -/

/-- The table with the variable `$a`, of value `x`, alone. -/
def oneVar : VarMem where
  links := ⟨id, id⟩
  vars := fun _ => ⟨.ofBytes [36#8, 97#8], .ofBytes [120#8]⟩
  fresh := 1

/-- A match whose group `a` is `y`. -/
def oneGroup : Pcre Unit where
  exec _ _ := (2, [0, 1, 0, 1])
  getNamedSubstring _ _ _ name :=
    if name = .ofBytes [97#8] then some (.ofBytes [121#8]) else none

/-- `($a)(#a)`. -/
def knownTemplate : CString :=
  .ofBytes [40#8, 36#8, 97#8, 41#8, 40#8, 35#8, 97#8, 41#8]

/-- `(#a)(#b)`. -/
def unknownTemplate : CString :=
  .ofBytes [40#8, 35#8, 97#8, 41#8, 40#8, 35#8, 98#8, 41#8]

theorem oneVar_ring : RingAt oneVar.links (some 0) [0] :=
  ⟨⟨List.nodup_singleton 0, by simp [oneVar, Linked]⟩, rfl⟩

theorem template_substitutes_iff_oneVar :
    Substitutes 1 oneVar (some 0) [0] oneGroup () (.ofBytes [121#8]) (2, [0, 1, 0, 1])
      knownTemplate := by
  apply (template_substitutes_iff oneVar_ring (by simp) (Nat.le_refl 1) oneGroup () _ _ _).2
  intro _
  have names : references 40#8 35#8 41#8 knownTemplate.bytes = [[97#8]] := by decide
  rw [names]
  exact List.pairwise_singleton _ _

/-- The text `y` is freed twice. -/
theorem template_frees_twice :
    ¬ Substitutes 1 oneVar (some 0) [0] oneGroup () (.ofBytes [121#8]) (2, [0, 1, 0, 1])
      unknownTemplate := by
  intro both
  have undefined : sfRewriteExpScan oneGroup (some unknownTemplate) () (.ofBytes [121#8])
      (2, [0, 1, 0, 1]) = none := by decide
  have short : (groupSubstitution
      (oneGroup.getNamedSubstring () [121#8] (2, [0, 1, 0, 1])) unknownTemplate).length < 1024 := by
    rw [groupSubstitution, substitute_pieces]
    decide
  have result := both.group short
  rw [undefined] at result
  cases result

end SpiderFrame.Page
