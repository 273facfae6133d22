import SpiderFrame.Page.Ranges
import SpiderFrame.Page.Substitution

/-!
# Where the scanners of templates write (`sf_var.c`, `sf_proc.c`)

`sf_var_exp` tests the room in its buffer for a reference, but neither for a letter nor for the tail
of a template; `sf_rewrite_exp` tests none. Here the loop goes on behind the end of the buffer, and
keeps a list of its stores. `sfVarExp_stays_iff` and `rewrite_stays_iff` say for which templates the
stores are inside the buffer, and the NUL behind the string too.
-/

namespace SpiderFrame.Page
open SpiderFrame.Base SpiderFrame.Var SpiderFrame.Queue SpiderFrame.Link

variable {τ Re : Type}

/-! ## The loop -/

/-- What the loop does with a letter, with a reference that is closed, and with the rest of a
template in which a reference is not. -/
structure Actions (τ : Type) where
  letter : Byte → τ → τ
  closed : List Byte → τ → Option τ
  tail : List Byte → τ → τ

/-- The loop of `sf_var_exp` and `sf_rewrite_exp`. -/
def scanLoop (marker : Byte) (acts : Actions τ) : Nat → List Byte → τ → Option τ
  | 0, _, _ => none
  | _ + 1, [], t => some t
  | n + 1, c :: cs, t =>
    if c = 40#8 ∧ cs.head? = some marker then
      match cs.dropWhile (· ≠ 41#8) with
      | _ :: behind =>
        (acts.closed (cs.takeWhile (· ≠ 41#8)) t).bind (scanLoop marker acts n behind)
      | [] => scanLoop marker acts n [] (acts.tail (c :: cs) t)
    else scanLoop marker acts n cs (acts.letter c t)

/-- What the loop does with a piece. -/
def Actions.piece (marker : Byte) (acts : Actions τ) (t : τ) : Piece Byte → Option τ
  | .letter c => some (acts.letter c t)
  | .reference name => acts.closed (marker :: name) t
  | .unclosed as => some (acts.tail (40#8 :: marker :: as) t)

/-- **The loop goes over the pieces of the template.** -/
theorem scanLoop_pieces {marker : Byte} (mark : marker ≠ 41#8) (acts : Actions τ) {n : Nat} :
    ∀ {cs : List Byte} {t : τ}, cs.length < n →
      scanLoop marker acts n cs t =
        (pieces 40#8 marker 41#8 none cs).foldlM (acts.piece marker) t := by
  induction n with
  | zero =>
    intro cs t enough
    omega
  | succ n ih =>
    intro cs t enough
    cases begins 40#8 marker 41#8 cs with
    | nil => rfl
    | letter c cs notOpen =>
      rw [List.length_cons] at enough
      rw [scanLoop, if_neg notOpen, pieces_letter notOpen, List.foldlM_cons]
      apply ih
      omega
    | reference name behind open_ =>
      have cut : (marker :: (name ++ 41#8 :: behind)).dropWhile (· ≠ 41#8) = 41#8 :: behind :=
        dropWhile_closed (marked_open mark open_) behind
      have name_ : (marker :: (name ++ 41#8 :: behind)).takeWhile (· ≠ 41#8) = marker :: name :=
        takeWhile_closed (marked_open mark open_) behind
      simp only [List.length_cons, List.length_append] at enough
      rw [scanLoop, if_pos ⟨rfl, rfl⟩, pieces_reference open_, List.foldlM_cons]
      simp only [cut, name_]
      refine congrArg (Option.bind _) (funext fun t => ?_)
      apply ih
      omega
    | unclosed as open_ =>
      have cut : (marker :: as).dropWhile (· ≠ 41#8) = [] :=
        dropWhile_open (marked_open mark open_)
      simp only [List.length_cons] at enough
      rw [scanLoop, if_pos ⟨rfl, rfl⟩, pieces_tail open_, List.foldlM_cons]
      simp only [cut]
      apply ih
      rw [List.length_nil]
      omega

/-! ## The stores -/

/-- `d`, as the distance from `dststr`, and what has been stored. -/
structure Trail where
  d : Nat
  stores : List (Nat × List Byte)

namespace Trail

/-- The beginning of the buffer. -/
def start : Trail := ⟨0, []⟩

/-- `strncpy(d, text, n)` of `n` bytes, or `*d = c`, and `d + n`. -/
def write (trail : Trail) (text : List Byte) : Trail :=
  ⟨trail.d + text.length, trail.stores ++ [(trail.d, text)]⟩

/-- `strcpy(d, text)`, and `d + strlen(text)`. -/
def strcpy (trail : Trail) (text : List Byte) : Trail :=
  ⟨trail.d + text.length, trail.stores ++ [(trail.d, text ++ [0#8])]⟩

end Trail

/-- The stores are inside the `size` bytes of zeroes, and leave a NUL there. -/
structure Contained (size : Nat) (stores : List (Nat × List Byte)) : Prop where
  below : Below size stores
  ends : ∃ i < size, storeAll (fun _ => 0#8) stores i = 0#8

/-- The function returns, and its stores are inside the buffer. -/
def Stays (size : Nat) (stores : Option (List (Nat × List Byte))) : Prop :=
  ∃ ws, stores = some ws ∧ Contained size ws

/-- The text in the buffer. -/
structure Trail.Holds (trail : Trail) (text : List Byte) : Prop where
  d : trail.d = text.length
  mem : storeAll (fun _ => 0#8) trail.stores = store (fun _ => 0#8) 0 text
  within : Below (text.length + 1) trail.stores

namespace Trail.Holds

variable {trail : Trail} {text : List Byte}

theorem start : Trail.start.Holds [] where
  d := rfl
  mem := (store_nil _ _).symm
  within := by simp [Trail.start, Below]

theorem write (h : trail.Holds text) (more : List Byte) :
    (trail.write more).Holds (text ++ more) where
  d := by simp [Trail.write, h.d]
  mem := by
    show storeAll _ (trail.stores ++ [(trail.d, more)]) = _
    rw [storeAll_snoc, h.mem, h.d, Dst.store_holding]
  within := by
    refine below_snoc.2 ⟨h.within.mono (by simp), fun i hi => ?_⟩
    simp only at hi ⊢
    rw [List.length_append, h.d]
    omega

theorem strcpy (h : trail.Holds text) (more : List Byte) :
    (trail.strcpy more).Holds (text ++ more) where
  d := by simp [Trail.strcpy, h.d]
  mem := by
    show storeAll _ (trail.stores ++ [(trail.d, more ++ [0#8])]) = _
    rw [storeAll_snoc, h.mem, h.d, Dst.store_holding_nul]
  within := by
    refine below_snoc.2 ⟨h.within.mono (by simp), fun i hi => ?_⟩
    simp only [List.length_append, List.length_singleton] at hi ⊢
    rw [h.d]
    omega

/-- **The stores are inside the buffer if and only if the text is shorter.** -/
theorem contained_iff (h : trail.Holds text) (noNul : 0#8 ∉ text) {size : Nat} :
    Contained size trail.stores ↔ text.length < size := by
  constructor
  · rintro ⟨-, i, inside, nul⟩
    rw [h.mem] at nul
    by_contra long
    have letter : store (fun _ => 0#8) 0 text (0 + i) = text[i] :=
      store_inside (fun _ => 0#8) 0 (show i < text.length by omega)
    rw [Nat.zero_add, nul] at letter
    exact noNul (letter ▸ List.getElem_mem _)
  · intro short
    refine ⟨h.within.mono short, text.length, short, ?_⟩
    rw [h.mem]
    exact store_outside _ (.inr (by omega))

end Trail.Holds

/-! ## `sf_var_exp` -/

/-- What `sf_var_exp` does. -/
def varActions (fuel : Nat) (m : VarMem) (handle : Option Nat) : Actions Trail where
  letter c trail := trail.write [c]
  closed name trail :=
    (sfVarSearch fuel m handle (.ofBytes name)).map fun v =>
      let text := varText m name v
      if trail.d + text.length < maxVarSize then trail.write text else trail
  tail text trail := trail.strcpy text

/-- The stores of `sf_var_exp(handle, varexp, pool)`. -/
def sfVarExpStores (fuel : Nat) (m : VarMem) (handle : Option Nat) (varexp : CString) :
    Option (List (Nat × List Byte)) :=
  (scanLoop 36#8 (varActions fuel m handle) (varexp.bytes.length + 1) varexp.bytes .start).map
    Trail.stores

/-- The bytes that some pieces take behind the first `n`: a letter and a tail always, and a
reference where there is room for its text. -/
def packed (env : List VarTable) : Nat → List (Piece Byte) → Nat
  | n, [] => n
  | n, .reference name :: ps =>
    let text := (Piece.reference name).value 40#8 36#8 41#8 (varValue env)
    if n + text.length < maxVarSize then packed env (n + text.length) ps else packed env n ps
  | n, p :: ps => packed env (n + (p.text 40#8 36#8 41#8).length) ps

section Expand

variable {fuel : Nat} {m : VarMem} {handle : Option Nat} {l : List Nat}

theorem varActions_piece {trail : Trail} {dststr dststr' : List Byte} {p : Piece Byte}
    (holds : trail.Holds dststr) (h : expandPiece fuel m handle dststr p = some dststr') :
    ∃ trail', (varActions fuel m handle).piece 36#8 trail p = some trail' ∧
      trail'.Holds dststr' := by
  cases p with
  | letter a =>
    cases h
    exact ⟨_, rfl, holds.write [a]⟩
  | unclosed as =>
    cases h
    exact ⟨_, rfl, holds.strcpy _⟩
  | reference name =>
    rw [expandPiece_reference] at h
    obtain ⟨v, found, rfl⟩ := Option.map_eq_some_iff.1 h
    have found' : sfVarSearch fuel m handle (.ofBytes (36#8 :: name)) = some v := found
    simp only [Actions.piece, varActions, found', Option.map_some, holds.d]
    by_cases fits : dststr.length + (varText m (36#8 :: name) v).length < maxVarSize
    · rw [if_pos fits, if_pos fits]
      exact ⟨_, rfl, holds.write _⟩
    · rw [if_neg fits, if_neg fits]
      exact ⟨_, rfl, holds⟩

theorem varActions_pieces {ps : List (Piece Byte)} :
    ∀ {trail : Trail} {dststr dststr' : List Byte}, trail.Holds dststr →
      ps.foldlM (expandPiece fuel m handle) dststr = some dststr' →
        ∃ trail', ps.foldlM ((varActions fuel m handle).piece 36#8) trail = some trail' ∧
          trail'.Holds dststr' := by
  induction ps with
  | nil =>
    intro trail dststr dststr' holds h
    cases h
    exact ⟨trail, rfl, holds⟩
  | cons p ps ih =>
    intro trail dststr dststr' holds h
    rw [List.foldlM_cons] at h
    obtain ⟨dststr₁, first, rest⟩ := Option.bind_eq_some_iff.1 h
    obtain ⟨trail₁, step, holds₁⟩ := varActions_piece holds first
    rw [List.foldlM_cons, step]
    exact ih holds₁ rest

/-- The text that the pieces give has the packed length, and no NUL. -/
theorem expandPieces_packed (ring : RingAt m.links handle l) (some_ : handle ≠ none)
    (enough : l.length ≤ fuel) {ps : List (Piece Byte)} :
    ∀ {dststr : List Byte}, (∀ p ∈ ps, 0#8 ∉ p.text 40#8 36#8 41#8) → 0#8 ∉ dststr →
      ∃ dststr', ps.foldlM (expandPiece fuel m handle) dststr = some dststr' ∧
        dststr'.length = packed (l.map m.vars) dststr.length ps ∧ 0#8 ∉ dststr' := by
  induction ps with
  | nil =>
    intro dststr _ noNul
    exact ⟨dststr, rfl, rfl, noNul⟩
  | cons p ps ih =>
    intro dststr clean noNul
    obtain ⟨clean, clean'⟩ := List.forall_mem_cons.1 clean
    have plain : p.name? = none → ∃ dststr',
        (p :: ps).foldlM (expandPiece fuel m handle) dststr = some dststr' ∧
          dststr'.length = packed (l.map m.vars)
            (dststr.length + (p.text 40#8 36#8 41#8).length) ps ∧ 0#8 ∉ dststr' := by
      intro named
      rw [List.foldlM_cons, expandPiece_plain named, ← List.length_append]
      apply ih clean'
      rw [List.mem_append, not_or]
      exact ⟨noNul, clean⟩
    cases p with
    | letter a => exact plain rfl
    | unclosed as => exact plain rfl
    | reference name =>
      have clean_ : 0#8 ∉
          (Piece.reference name).value 40#8 36#8 41#8 (varValue (l.map m.vars)) := by
        rw [← varText_find]
        exact varText_noNul clean _
      rw [List.foldlM_cons, expandPiece_reference, sfVarSearch_ring ring some_ enough,
        Option.map_some]
      simp only [varText_find, packed]
      by_cases fits : dststr.length + ((Piece.reference name).value 40#8 36#8 41#8
          (varValue (l.map m.vars))).length < maxVarSize
      · rw [if_pos fits, if_pos fits, ← List.length_append]
        apply ih clean'
        rw [List.mem_append, not_or]
        exact ⟨noNul, clean_⟩
      · rw [if_neg fits, if_neg fits]
        exact ih clean' noNul

/-- When the pieces give a text, the stores are those of the text. -/
theorem sfVarExpStores_stays {varexp : CString} {dststr : List Byte}
    (run : (varPieces varexp.bytes).foldlM (expandPiece fuel m handle) [] = some dststr)
    (noNul : 0#8 ∉ dststr) :
    Stays maxVarSize (sfVarExpStores fuel m handle varexp) ↔ dststr.length < maxVarSize := by
  obtain ⟨trail, scan, holds⟩ := varActions_pieces .start run
  have stores : sfVarExpStores fuel m handle varexp = some trail.stores := by
    rw [sfVarExpStores, scanLoop_pieces (by decide) _ (Nat.lt_succ_self _)]
    exact congrArg (Option.map Trail.stores) scan
  rw [Stays, stores, ← holds.contained_iff noNul]
  constructor
  · rintro ⟨ws, same, contained⟩
    cases same
    exact contained
  · intro contained
    exact ⟨_, rfl, contained⟩

theorem varPieces_noNul (varexp : CString) :
    ∀ p ∈ varPieces varexp.bytes, 0#8 ∉ p.text 40#8 36#8 41#8 :=
  fun _ hp inside => varexp.noNul (Piece.text_subset hp inside)

/-- **`sf_var_exp` stays in its buffer if and only if the pieces of the template take less.** -/
theorem sfVarExp_stays_iff (ring : RingAt m.links handle l) (nonEmpty : l ≠ [])
    (enough : l.length ≤ fuel) (varexp : CString) :
    Stays maxVarSize (sfVarExpStores fuel m handle varexp) ↔
      packed (l.map m.vars) 0 (varPieces varexp.bytes) < maxVarSize := by
  have some_ : handle ≠ none := fun e => nonEmpty (ring.nil_iff.1 e)
  obtain ⟨dststr, run, length, noNul⟩ :=
    expandPieces_packed ring some_ enough (varPieces_noNul varexp) List.not_mem_nil
  rw [sfVarExpStores_stays run noNul, length]
  rfl

/-- It has a result if and only if it stays in its buffer. -/
theorem sfVarExpScan_isSome (ring : RingAt m.links handle l) (some_ : handle ≠ none)
    (enough : l.length ≤ fuel) (varexp : CString) :
    (sfVarExpScan fuel m handle varexp).isSome ↔
      Stays maxVarSize (sfVarExpStores fuel m handle varexp) := by
  obtain ⟨dststr, run, -, noNul⟩ :=
    expandPieces_packed ring some_ enough (varPieces_noNul varexp) List.not_mem_nil
  rw [sfVarExpStores_stays run noNul, sfVarExp_scan, sfVarExp, Option.bind_some, run,
    Option.bind_some]
  by_cases short : dststr.length < maxVarSize
  · rw [if_pos short]
    simp [short]
  · rw [if_neg short]
    simp [short]

end Expand

theorem sfVarExp_stays_iff_oneVar :
    Stays maxVarSize (sfVarExpStores 1 oneVar (some 0) knownTemplate) := by
  apply (sfVarExp_stays_iff oneVar_ring (by simp) (Nat.le_refl 1) knownTemplate).2
  have pieces_ : varPieces knownTemplate.bytes =
      [.reference [97#8], .letter 40#8, .letter 35#8, .letter 97#8, .letter 41#8] := by decide
  rw [pieces_]
  decide

/-- So many letters `x`. -/
def xs (n : Nat) : CString := ⟨List.replicate n 120#8, fun h => by simp at h⟩

/-- The table with the variable `$a` alone, one byte shorter than the buffer. -/
def longVar : VarMem where
  links := ⟨id, id⟩
  vars := fun _ => ⟨.ofBytes [36#8, 97#8], xs 131071⟩
  fresh := 1

/-- `($a)xx`. -/
def lettersTemplate : CString := .ofBytes [40#8, 36#8, 97#8, 41#8, 120#8, 120#8]

/-- A value for which there is room, and two letters. -/
theorem packed_twoLetters (text : CString) (room : 0 + text.bytes.length < maxVarSize) :
    packed [⟨.ofBytes [36#8, 97#8], text⟩] 0 [.reference [97#8], .letter 120#8, .letter 120#8] =
      text.bytes.length + 2 := by
  have value : (Piece.reference [97#8]).value 40#8 36#8 41#8
      (varValue [⟨.ofBytes [36#8, 97#8], text⟩]) = text.bytes := rfl
  simp only [packed, value, if_pos room]
  rw [Nat.zero_add]
  rfl

/-- The first `x` takes the place of the NUL, and the second one is behind the buffer. -/
theorem sfVarExp_overruns :
    ¬ Stays maxVarSize (sfVarExpStores 1 longVar (some 0) lettersTemplate) := by
  have ring : RingAt longVar.links (some 0) [0] :=
    ⟨⟨List.nodup_singleton 0, by simp [longVar, Linked]⟩, rfl⟩
  have pieces_ : varPieces lettersTemplate.bytes =
      [.reference [97#8], .letter 120#8, .letter 120#8] := by decide
  -- the value is only ever measured, never written out
  have long : (xs 131071).bytes.length = 131071 := List.length_replicate
  have all := packed_twoLetters (xs 131071) (by rw [long]; decide)
  obtain ⟨dststr, run, length, noNul⟩ :=
    expandPieces_packed ring (by simp) (Nat.le_refl 1) (varPieces_noNul lettersTemplate)
      List.not_mem_nil
  rw [sfVarExpStores_stays run noNul, length, pieces_]
  change ¬ packed [⟨.ofBytes [36#8, 97#8], xs 131071⟩] 0 _ < maxVarSize
  rw [all, long]
  decide

/-! ## `sf_rewrite_exp` -/

/-- What `sf_rewrite_exp` does with its buffer. -/
def rewriteActions (named : CString → Option CString) : Actions Trail where
  letter c trail := trail.write [c]
  closed name trail :=
    match named (.ofBytes (name.drop 1)) with
    | none => some (trail.write (40#8 :: (name ++ [41#8])))
    | some outstr => some (trail.write outstr.bytes)
  tail text trail := trail.strcpy text

/-- The stores of `sf_rewrite_exp(varexp, re, buf, vector, rc, pool)` for the match `hit`. -/
def sfRewriteExpStores (pcre : Pcre Re) (varexp : Option CString) (re : Re) (buf : CString)
    (hit : Int × List Int) : Option (List (Nat × List Byte)) :=
  match varexp with
  | none => some (Trail.start.strcpy buf.bytes).stores
  | some varexp =>
    (scanLoop 35#8 (rewriteActions (pcre.getNamedSubstring re buf.bytes hit))
      (varexp.bytes.length + 1) varexp.bytes .start).map Trail.stores

/-- The texts that the new URL is put together from. -/
def rewriteTexts (pcre : Pcre Re) (varexp : Option CString) (re : Re) (buf : CString)
    (hit : Int × List Int) : List (List Byte) :=
  match varexp with
  | none => [buf.bytes]
  | some varexp =>
    (rewritePieces varexp.bytes).map (pieceText (pcre.getNamedSubstring re buf.bytes hit))

/-- The stores for a URL that goes through the ranges. -/
def rangeStores (pcre : Pcre Re) (url : CString) (ranges : List (Range Re)) :
    Option (List (Nat × List Byte)) :=
  match rangeWalk pcre url ranges with
  | .rewrite urlRewrite re hit => sfRewriteExpStores pcre urlRewrite re url hit
  | _ => some []

/-- The length of the texts for the range that takes the URL. -/
def rangeLength (pcre : Pcre Re) (url : CString) (ranges : List (Range Re)) : Nat :=
  match rangeWalk pcre url ranges with
  | .rewrite urlRewrite re hit =>
    (rewriteTexts pcre urlRewrite re url hit).flatten.length
  | _ => 0

theorem rewriteActions_piece (named : CString → Option CString) {trail : Trail} {text : List Byte}
    (holds : trail.Holds text) (p : Piece Byte) :
    ∃ trail', (rewriteActions named).piece 35#8 trail p = some trail' ∧
      trail'.Holds (text ++ pieceText named p) := by
  cases p with
  | letter a => exact ⟨_, rfl, holds.write [a]⟩
  | unclosed as => exact ⟨_, rfl, holds.strcpy _⟩
  | reference name =>
    cases known : named (.ofBytes name) with
    | none =>
      refine ⟨trail.write (40#8 :: 35#8 :: (name ++ [41#8])), ?_, ?_⟩
      · simp [Actions.piece, rewriteActions, known]
      · have text_ : pieceText named (.reference name) = 40#8 :: 35#8 :: (name ++ [41#8]) := by
          simp [pieceText, known, Piece.text]
        rw [text_]
        exact holds.write _
    | some outstr =>
      refine ⟨trail.write outstr.bytes, ?_, ?_⟩
      · simp [Actions.piece, rewriteActions, known]
      · have text_ : pieceText named (.reference name) = outstr.bytes := by
          simp [pieceText, known]
        rw [text_]
        exact holds.write _

theorem rewriteActions_pieces (named : CString → Option CString) (ps : List (Piece Byte)) :
    ∀ {trail : Trail} {text : List Byte}, trail.Holds text →
      ∃ trail', ps.foldlM ((rewriteActions named).piece 35#8) trail = some trail' ∧
        trail'.Holds (text ++ (ps.map (pieceText named)).flatten) := by
  induction ps with
  | nil =>
    intro trail text holds
    exact ⟨trail, rfl, by simpa using holds⟩
  | cons p ps ih =>
    intro trail text holds
    obtain ⟨trail₁, step, holds₁⟩ := rewriteActions_piece named holds p
    rw [List.foldlM_cons, step, List.map_cons, List.flatten_cons, ← List.append_assoc]
    exact ih holds₁

/-- The stores are those of the texts, one after the other. -/
theorem sfRewriteExpStores_holds (pcre : Pcre Re) (varexp : Option CString) (re : Re)
    (buf : CString) (hit : Int × List Int) :
    ∃ trail : Trail, sfRewriteExpStores pcre varexp re buf hit = some trail.stores ∧
      trail.Holds (rewriteTexts pcre varexp re buf hit).flatten := by
  cases varexp with
  | none =>
    refine ⟨_, rfl, ?_⟩
    have text : (rewriteTexts pcre none re buf hit).flatten = [] ++ buf.bytes := by
      simp [rewriteTexts]
    rw [text]
    exact Trail.Holds.start.strcpy buf.bytes
  | some varexp =>
    obtain ⟨trail, scan, holds⟩ := rewriteActions_pieces
      (pcre.getNamedSubstring re buf.bytes hit) (rewritePieces varexp.bytes) .start
    refine ⟨trail, ?_, holds⟩
    rw [sfRewriteExpStores, scanLoop_pieces (by decide) _ (Nat.lt_succ_self _)]
    exact congrArg (Option.map Trail.stores) scan

theorem rewriteTexts_noNul (pcre : Pcre Re) (varexp : Option CString) (re : Re) (buf : CString)
    (hit : Int × List Int) : 0#8 ∉ (rewriteTexts pcre varexp re buf hit).flatten := by
  cases varexp with
  | none =>
    rw [rewriteTexts, List.flatten_singleton]
    exact buf.noNul
  | some varexp =>
    intro inside
    obtain ⟨text, member, inside⟩ := List.mem_flatten.1 inside
    obtain ⟨p, hp, rfl⟩ := List.mem_map.1 member
    exact pieceText_noNul _ (fun h => varexp.noNul (Piece.text_subset hp h)) inside

theorem sfRewriteExp_stays (pcre : Pcre Re) (varexp : Option CString) (re : Re) (buf : CString)
    (hit : Int × List Int) :
    Stays 1024 (sfRewriteExpStores pcre varexp re buf hit) ↔
      (rewriteTexts pcre varexp re buf hit).flatten.length < 1024 := by
  obtain ⟨trail, stores, holds⟩ := sfRewriteExpStores_holds pcre varexp re buf hit
  rw [Stays, stores, ← holds.contained_iff (rewriteTexts_noNul pcre varexp re buf hit)]
  constructor
  · rintro ⟨ws, same, contained⟩
    cases same
    exact contained
  · intro contained
    exact ⟨_, rfl, contained⟩

theorem stays_nothing : Stays 1024 (some []) :=
  ⟨[], rfl, by simp [Below], 0, by omega, rfl⟩

/-- **A rewritten URL stays in its buffer if and only if its texts are shorter.** -/
theorem rewrite_stays_iff (pcre : Pcre Re) (url : CString) (ranges : List (Range Re)) :
    Stays 1024 (rangeStores pcre url ranges) ↔ rangeLength pcre url ranges < 1024 := by
  rw [rangeStores, rangeLength]
  cases rangeWalk pcre url ranges with
  | url => exact iff_of_true stays_nothing (Nat.zero_lt_succ _)
  | null => exact iff_of_true stays_nothing (Nat.zero_lt_succ _)
  | rewrite urlRewrite re hit => exact sfRewriteExp_stays pcre urlRewrite re url hit

/-- `http://` and so many letters `x`. -/
def httpXs (n : Nat) : CString :=
  ⟨[104#8, 116#8, 116#8, 112#8, 58#8, 47#8, 47#8] ++ List.replicate n 120#8, fun h => by simp at h⟩

/-- `http://` and 1024 letters, and one range without a template. -/
theorem rewrite_overruns :
    ¬ Stays 1024 (rangeStores bytePcre (httpXs 1024) [⟨some 120#8, none, none⟩]) := by
  have found : 120#8 ∈ (httpXs 1024).bytes :=
    List.mem_append_right _ (List.mem_replicate.2 ⟨by decide, rfl⟩)
  have hit : 0 ≤ (bytePcre.exec 120#8 (httpXs 1024).bytes).1 := by
    rw [bytePcre]
    simp only [if_pos found]
    decide
  have takes : rangeWalk bytePcre (httpXs 1024) [⟨some 120#8, none, none⟩] =
      .rewrite none 120#8 (bytePcre.exec 120#8 (httpXs 1024).bytes) := by
    rw [rangeWalk, if_neg (by simp), if_neg (by simp [blackLoop])]
    simp only [whiteLoop, if_pos hit]
  have long : (rewriteTexts bytePcre none 120#8 (httpXs 1024)
      (bytePcre.exec 120#8 (httpXs 1024).bytes)).flatten.length = 1031 := by
    rw [rewriteTexts, List.flatten_cons, List.flatten_nil, List.append_nil, httpXs, List.length_append,
      List.length_replicate]
    rfl
  rw [rangeStores, takes]
  simp only [sfRewriteExp_stays, long]
  decide

end SpiderFrame.Page
