import SpiderFrame.Base.Memory
import SpiderFrame.Page.Expand
import SpiderFrame.Queue.Rewrite

/-!
# The scanners of templates (`sf_var.c`, `sf_proc.c`)

`sf_var_exp` and `sf_rewrite_exp` are two copies of one loop: a pointer `c` goes over the template,
and a pointer `d` over a buffer of zeroes, whose string is the result. `expLoop` is that loop, with
the reference as its parameter. `sfVarExp_scan` and `sfRewriteExp_scan` say that the two scanners do
what the functions of the model, which go over the pieces of the template, do; one simulation
(`expLoop_fold`) gives both.
-/

namespace SpiderFrame.Page
open SpiderFrame.Base SpiderFrame.Var SpiderFrame.Queue

variable {σ R Re : Type}

/-- `dststr` and `d`, and what else the function keeps. -/
structure Dst (σ : Type) where
  dststr : Nat → Byte
  d : Nat
  own : σ

namespace Dst

/-- `ngx_pcalloc(pool, ..)`. -/
def zeroed (own : σ) : Dst σ := ⟨fun _ => 0#8, 0, own⟩

/-- `strncpy(d, text, n)` of `n` bytes, and `d + n`. -/
def write (size : Nat) (dst : Dst σ) (text : List Byte) : Option (Dst σ) :=
  if dst.d + text.length ≤ size then
    some { dst with dststr := store dst.dststr dst.d text, d := dst.d + text.length }
  else none

/-- `strcpy(d, text)`, which writes the NUL too, and `d + strlen(text)`. -/
def strcpy (size : Nat) (dst : Dst σ) (text : List Byte) : Option (Dst σ) :=
  if dst.d + text.length < size then
    some { dst with
      dststr := store dst.dststr dst.d (text ++ [0#8]), d := dst.d + text.length }
  else none

/-- The string in the buffer. -/
def string (size : Nat) (dst : Dst σ) : Option CString :=
  let bytes := load dst.dststr 0 size
  if bytes.contains 0#8 then some (.ofBytes bytes) else none

end Dst

/-- The loop; `closed` is given the bytes between the `(` and the `)` of a reference. -/
def expLoop (size : Nat) (marker : Byte) (closed : List Byte → Dst σ → Option (Dst σ)) :
    Nat → List Byte → Dst σ → Option (Dst σ)
  | 0, _, _ => none
  | _ + 1, [], dst => some dst
  | n + 1, c :: cs, dst =>
    if c = 40#8 ∧ cs.head? = some marker then
      match cs.dropWhile (· ≠ 41#8) with
      | _ :: behind =>
        (closed (cs.takeWhile (· ≠ 41#8)) dst).bind (expLoop size marker closed n behind)
      | [] => (dst.strcpy size (c :: cs)).bind (expLoop size marker closed n [])
    else (dst.write size [c]).bind (expLoop size marker closed n cs)

/-- What `sf_var_exp` copies for a reference: the value, or the bytes from `c` to `p`. -/
def varText (m : VarMem) (name : List Byte) : Option Nat → List Byte
  | some v => (m.vars v).value.bytes
  | none => 40#8 :: (name ++ [41#8])

/-- A reference in `sf_var_exp`. Where there is no room, nothing is copied. -/
def varClosed (fuel : Nat) (m : VarMem) (handle : Option Nat) (name : List Byte)
    (dst : Dst Unit) : Option (Dst Unit) :=
  (sfVarSearch fuel m handle (.ofBytes name)).bind fun v =>
    let text := varText m name v
    if dst.d + text.length < maxVarSize then dst.write maxVarSize text else some dst

/-- `sf_var_exp(handle, varexp, pool)` of a template. -/
def sfVarExpScan (fuel : Nat) (m : VarMem) (handle : Option Nat) (varexp : CString) :
    Option CString :=
  (expLoop maxVarSize 36#8 (varClosed fuel m handle) (varexp.bytes.length + 1) varexp.bytes
    (.zeroed ())).bind (Dst.string maxVarSize)

/-- A reference in `sf_rewrite_exp`. `own` says that `outstr` has been freed: if the group is
unknown, `pcre_free_substring(outstr)` frees it once more. -/
def rewriteClosed (named : CString → Option CString) (name : List Byte) (dst : Dst Bool) :
    Option (Dst Bool) :=
  match named (.ofBytes (name.drop 1)) with
  | none =>
    (dst.write 1024 (40#8 :: (name ++ [41#8]))).bind fun dst =>
      if dst.own then none else some dst
  | some outstr => (dst.write 1024 outstr.bytes).map fun dst => { dst with own := true }

/-- `sf_rewrite_exp(varexp, re, buf, vector, rc, pool)` for the match `m`. -/
def sfRewriteExpScan (pcre : Pcre Re) (varexp : Option CString) (re : Re) (buf : CString)
    (m : Int × List Int) : Option CString :=
  match varexp with
  | none => ((Dst.zeroed false).strcpy 1024 buf.bytes).bind (Dst.string 1024)
  | some varexp =>
    (expLoop 1024 35#8 (rewriteClosed (pcre.getNamedSubstring re buf.bytes m))
      (varexp.bytes.length + 1) varexp.bytes (.zeroed false)).bind (Dst.string 1024)

/-! ## The buffer -/

/-- The buffer after `text` has been written. -/
def Dst.holding (text : List Byte) (own : σ) : Dst σ :=
  ⟨store (fun _ => 0#8) 0 text, text.length, own⟩

/-- That buffer, when the text is in it. -/
def Dst.fit (size : Nat) (text : List Byte) (own : σ) : Option (Dst σ) :=
  if text.length ≤ size then some (.holding text own) else none

/-- The string of so many bytes, when it fits with its NUL. -/
def fitted (size : Nat) (text : List Byte) : Option CString :=
  if text.length < size then some (.ofBytes text) else none

namespace Dst

theorem zeroed_holding (own : σ) : zeroed own = holding [] own := by
  rw [zeroed, holding, store_nil]
  rfl

theorem store_holding (text more : List Byte) :
    store (store (fun _ => 0#8) 0 text) text.length more =
      store (fun _ => 0#8) 0 (text ++ more) := by
  have behind := store_append (fun _ => 0#8) 0 text more
  rwa [Nat.zero_add] at behind

theorem write_holding (size : Nat) (text more : List Byte) (own : σ) :
    (holding text own).write size more = fit size (text ++ more) own := by
  simp only [write, fit, holding, store_holding, List.length_append]

section Fit

variable {size : Nat} {text : List Byte} {own own' : σ} {f : Dst σ → Option (Dst σ)}

theorem fit_bind (h : f (holding text own) = some (holding text own')) :
    (fit size text own).bind f = fit size text own' := by
  unfold fit
  split
  · exact h
  · rfl

theorem fit_bind_none (h : f (holding text own) = none) : (fit size text own).bind f = none := by
  unfold fit
  split
  · exact h
  · rfl

end Fit

/-- A NUL behind the text is there already. -/
theorem store_holding_nul (text more : List Byte) :
    store (store (fun _ => 0#8) 0 text) text.length (more ++ [0#8]) =
      store (fun _ => 0#8) 0 (text ++ more) := by
  have zero : store (fun _ => 0#8) 0 (text ++ more) (text ++ more).length = 0#8 :=
    store_outside _ (.inr (by omega))
  have same := store_same (store (fun _ => 0#8) 0 (text ++ more)) (text ++ more).length
  rwa [zero, store_holding, List.append_assoc, ← store_holding] at same

theorem strcpy_holding (size : Nat) (text more : List Byte) (own : σ) :
    (holding text own).strcpy size more =
      if (text ++ more).length < size then some (holding (text ++ more) own) else none := by
  simp only [strcpy, holding, store_holding_nul, List.length_append]

theorem string_holding {size : Nat} {text : List Byte} (room : text.length ≤ size)
    (noNul : 0#8 ∉ text) (own : σ) : (holding text own).string size = fitted size text := by
  obtain ⟨k, rfl⟩ := Nat.exists_eq_add_of_le room
  have zeroes : load (store (fun _ => 0#8) 0 text) text.length k = List.replicate k 0#8 := by
    refine List.eq_replicate_iff.2 ⟨load_length _ _ _, fun b hb => ?_⟩
    obtain ⟨i, -, rfl⟩ := List.mem_map.1 hb
    exact store_outside _ (.inr (by omega))
  have bytes : load (holding text own).dststr 0 (text.length + k) =
      text ++ List.replicate k 0#8 := by
    rw [load_add, Nat.zero_add]
    exact congrArg₂ _ (load_store _ 0 text) zeroes
  simp only [string, bytes, fitted]
  cases k with
  | zero => rw [if_neg (by simpa using noNul), if_neg (by omega)]
  | succ k =>
    rw [if_pos (by simp), if_pos (by omega)]
    refine congrArg some (CString.ext ?_)
    show (text ++ List.replicate (k + 1) 0#8).takeWhile (· != 0#8) = text.takeWhile (· != 0#8)
    have clean : ∀ b ∈ text, (b != 0#8) = true := by
      intro b hb
      simpa using ne_of_mem_of_not_mem hb noNul
    rw [List.takeWhile_append_of_pos clean, List.replicate_succ,
      List.takeWhile_cons_of_neg (by simp), List.append_nil, List.takeWhile_eq_self_iff.2 clean]

end Dst

/-! ## The rounds of the loop -/

section Rounds

variable {size : Nat} {marker : Byte} {closed : List Byte → Dst σ → Option (Dst σ)} {n : Nat}
  {dst : Dst σ}

theorem expLoop_reference {name behind : List Byte} (mark : marker ≠ 41#8) (open_ : 41#8 ∉ name) :
    expLoop size marker closed (n + 1) (40#8 :: marker :: (name ++ 41#8 :: behind)) dst =
      (closed (marker :: name) dst).bind (expLoop size marker closed n behind) := by
  have cut : (marker :: (name ++ 41#8 :: behind)).dropWhile (· ≠ 41#8) = 41#8 :: behind :=
    dropWhile_closed (marked_open mark open_) behind
  have name_ : (marker :: (name ++ 41#8 :: behind)).takeWhile (· ≠ 41#8) = marker :: name :=
    takeWhile_closed (marked_open mark open_) behind
  rw [expLoop, if_pos ⟨rfl, rfl⟩]
  simp only [cut, name_]

theorem expLoop_unclosed {as : List Byte} (mark : marker ≠ 41#8) (open_ : 41#8 ∉ as) :
    expLoop size marker closed (n + 1) (40#8 :: marker :: as) dst =
      (dst.strcpy size (40#8 :: marker :: as)).bind (expLoop size marker closed n []) := by
  have cut : (marker :: as).dropWhile (· ≠ 41#8) = [] := dropWhile_open (marked_open mark open_)
  rw [expLoop, if_pos ⟨rfl, rfl⟩]
  simp only [cut]

theorem expLoop_letter {c : Byte} {cs : List Byte}
    (notOpen : ¬ (c = 40#8 ∧ cs.head? = some marker)) :
    expLoop size marker closed (n + 1) (c :: cs) dst =
      (dst.write size [c]).bind (expLoop size marker closed n cs) := by
  rw [expLoop, if_neg notOpen]

end Rounds

/-! ## A scanner follows the pieces -/

/-- A step over pieces does what the loop does with its buffer: `text` and `own` are what the
buffer holds, and `closed` is the step at a reference. -/
structure Follows (size : Nat) (marker : Byte) (closed : List Byte → Dst σ → Option (Dst σ))
    (step : R → Piece Byte → Option R) (text : R → List Byte) (own : R → σ) : Prop where
  plain : ∀ r p, p.name? = none →
    ∃ r', step r p = some r' ∧ text r' = text r ++ p.text 40#8 marker 41#8 ∧ own r' = own r
  closed : ∀ r name, (text r).length ≤ size →
    closed (marker :: name) (.holding (text r) (own r)) =
      (step r (.reference name)).bind fun r' => Dst.fit size (text r') (own r')
  grows : ∀ {r r' p}, step r p = some r' → (text r).length ≤ (text r').length
  clean : ∀ {r r' name}, step r (.reference name) = some r' →
    0#8 ∉ (Piece.reference name).text 40#8 marker 41#8 → 0#8 ∉ text r → 0#8 ∉ text r'

section Follows

variable {size : Nat} {marker : Byte} {closed : List Byte → Dst σ → Option (Dst σ)}
  {step : R → Piece Byte → Option R} {text : R → List Byte} {own : R → σ}

/-- What does not fit any more stays so. -/
theorem Follows.overflow (h : Follows size marker closed step text own) (ps : List (Piece Byte)) :
    ∀ {r : R}, ¬ (text r).length < size →
      (ps.foldlM step r).bind (fun r => fitted size (text r)) = none := by
  induction ps with
  | nil =>
    intro r full
    exact if_neg full
  | cons p ps ih =>
    intro r full
    rw [List.foldlM_cons]
    cases next : step r p with
    | none => rfl
    | some r' =>
      have grows := h.grows next
      apply ih
      omega

/-- One round of the loop, `loop` being the rounds behind it. -/
theorem Follows.round (h : Follows size marker closed step text own) {r : R} {p : Piece Byte}
    {ps : List (Piece Byte)} {loop : Dst σ → Option (Dst σ)}
    (rest : ∀ r', step r p = some r' → (text r').length ≤ size →
      (loop (.holding (text r') (own r'))).bind (Dst.string size) =
        (ps.foldlM step r').bind fun r => fitted size (text r)) :
    (((step r p).bind fun r' => Dst.fit size (text r') (own r')).bind loop).bind (Dst.string size) =
      ((p :: ps).foldlM step r).bind fun r => fitted size (text r) := by
  rw [List.foldlM_cons]
  cases next : step r p with
  | none => rfl
  | some r' =>
    by_cases fits : (text r').length ≤ size
    · simpa [Dst.fit, fits] using rest r' next fits
    · have full := h.overflow ps (show ¬ (text r').length < size by omega)
      simpa [Dst.fit, fits] using full.symm

theorem Follows.write (h : Follows size marker closed step text own) (r : R) (c : Byte) :
    (Dst.holding (text r) (own r)).write size [c] =
      (step r (.letter c)).bind fun r' => Dst.fit size (text r') (own r') := by
  obtain ⟨r', next, text', own'⟩ := h.plain r (.letter c) rfl
  rw [next, Option.bind_some, text', own']
  exact Dst.write_holding size (text r) [c] (own r)

theorem Follows.strcpy (h : Follows size marker closed step text own) (r : R) (as : List Byte)
    (noNul : 0#8 ∉ text r ++ 40#8 :: marker :: as) {n : Nat} :
    (((Dst.holding (text r) (own r)).strcpy size (40#8 :: marker :: as)).bind
      (expLoop size marker closed (n + 1) [])).bind (Dst.string size) =
      (List.foldlM step r [.unclosed as]).bind fun r => fitted size (text r) := by
  obtain ⟨r', next, text', own'⟩ := h.plain r (.unclosed as) rfl
  have all : text r ++ 40#8 :: marker :: as = text r' := text'.symm
  rw [List.foldlM_cons, next, Dst.strcpy_holding, all]
  rw [all] at noNul
  by_cases fits : (text r').length < size
  · rw [if_pos fits]
    exact Dst.string_holding (Nat.le_of_lt fits) noNul (own r)
  · rw [if_neg fits]
    exact (if_neg fits).symm

/-- **The loop gives the string that the pieces give.** -/
theorem expLoop_fold (h : Follows size marker closed step text own) (mark : marker ≠ 41#8)
    {n : Nat} :
    ∀ {cs : List Byte} {r : R}, cs.length < n → (text r).length ≤ size → 0#8 ∉ text r → 0#8 ∉ cs →
      (expLoop size marker closed n cs (.holding (text r) (own r))).bind (Dst.string size) =
        ((pieces 40#8 marker 41#8 none cs).foldlM step r).bind fun r => fitted size (text r) := by
  induction n with
  | zero =>
    intro cs r enough
    omega
  | succ n ih =>
    intro cs r enough room noNul clean
    cases begins 40#8 marker 41#8 cs with
    | nil => exact Dst.string_holding room noNul (own r)
    | letter c cs notOpen =>
      rw [List.length_cons] at enough
      rw [expLoop_letter notOpen, pieces_letter notOpen, h.write]
      rw [List.mem_cons, not_or] at clean
      apply h.round
      intro r' next room'
      apply ih (by omega) room' _ clean.2
      obtain ⟨r₁, next₁, text₁, -⟩ := h.plain r (.letter c) rfl
      rw [next] at next₁
      cases next₁
      rw [text₁, Piece.text, List.mem_append, List.mem_singleton, not_or]
      exact ⟨noNul, clean.1⟩
    | reference name behind open_ =>
      rw [expLoop_reference mark open_, pieces_reference open_, h.closed r name room]
      simp only [List.mem_cons, List.mem_append, not_or] at clean
      simp only [List.length_cons, List.length_append] at enough
      apply h.round
      intro r' next room'
      apply ih (by omega) room' _ clean.2.2.2.2
      refine h.clean next ?_ noNul
      simp only [Piece.text, List.mem_cons, List.mem_append, not_or]
      exact ⟨clean.1, clean.2.1, clean.2.2.1, clean.2.2.2.1, List.not_mem_nil⟩
    | unclosed as open_ =>
      simp only [List.length_cons] at enough
      obtain ⟨k, rfl⟩ : ∃ k, n = k + 1 := Nat.exists_eq_add_of_le' (by omega)
      rw [expLoop_unclosed mark open_, pieces_tail open_]
      apply h.strcpy r as
      rw [List.mem_append, not_or]
      exact ⟨noNul, clean⟩

end Follows

/-! ## The two functions -/

section Expand

variable {fuel : Nat} {m : VarMem} {handle : Option Nat}

theorem expandPiece_reference (dststr name : List Byte) :
    expandPiece fuel m handle dststr (.reference name) =
      (sfVarSearch fuel m handle (varName name)).map fun v =>
        let text := varText m (36#8 :: name) v
        if dststr.length + text.length < maxVarSize then dststr ++ text else dststr := by
  refine congrArg (Option.map · _) (funext fun v => ?_)
  cases v <;> rfl

theorem expandPiece_plain {dststr : List Byte} {p : Piece Byte} (plain : p.name? = none) :
    expandPiece fuel m handle dststr p = some (dststr ++ p.text 40#8 36#8 41#8) := by
  cases p with
  | reference name => cases plain
  | letter a => rfl
  | unclosed as => rfl

theorem varText_noNul {name : List Byte} (noNul : 0#8 ∉ (Piece.reference name).text 40#8 36#8 41#8)
    (v : Option Nat) : 0#8 ∉ varText m (36#8 :: name) v := by
  cases v with
  | none => exact noNul
  | some v => exact (m.vars v).value.noNul

/-- A reference copies its text, or nothing. -/
theorem expandPiece_cases {dststr dststr' name : List Byte}
    (h : expandPiece fuel m handle dststr (.reference name) = some dststr') :
    dststr' = dststr ∨ ∃ v, dststr' = dststr ++ varText m (36#8 :: name) v := by
  rw [expandPiece_reference] at h
  obtain ⟨v, -, rfl⟩ := Option.map_eq_some_iff.1 h
  by_cases fits : dststr.length + (varText m (36#8 :: name) v).length < maxVarSize
  · exact .inr ⟨v, if_pos fits⟩
  · exact .inl (if_neg fits)

theorem varClosed_follows :
    Follows maxVarSize 36#8 (varClosed fuel m handle) (expandPiece fuel m handle) id
      fun _ => () where
  plain r p plain := ⟨_, expandPiece_plain plain, rfl, rfl⟩
  closed r name room := by
    rw [varClosed, expandPiece_reference, Option.bind_map]
    refine congrArg (Option.bind _) (funext fun v => ?_)
    by_cases fits : r.length + (varText m (36#8 :: name) v).length < maxVarSize
    · simp only [if_pos fits, Function.comp_apply, Dst.write_holding, id]
      exact if_pos fits
    · simp only [if_neg fits, Function.comp_apply, Dst.fit, if_pos room]
      exact if_neg fits
  grows {r r' p} next := by
    cases named : p.name? with
    | none =>
      rw [expandPiece_plain named] at next
      cases next
      simp
    | some name =>
      cases p with
      | letter a => cases named
      | unclosed as => cases named
      | reference name =>
        obtain rfl | ⟨v, rfl⟩ := expandPiece_cases next
        · exact Nat.le_refl _
        · simp
  clean {r r' name} next noNul noNul' := by
    obtain rfl | ⟨v, rfl⟩ := expandPiece_cases next
    · exact noNul'
    · rw [id, List.mem_append, not_or]
      exact ⟨noNul', varText_noNul noNul v⟩

/-- **The scanner `sf_var_exp` and the function over pieces are one.** -/
theorem sfVarExp_scan (varexp : CString) :
    sfVarExpScan fuel m handle varexp = sfVarExp fuel m handle (some varexp) := by
  rw [sfVarExpScan, Dst.zeroed_holding]
  exact expLoop_fold varClosed_follows (by decide) (Nat.lt_succ_self _) (Nat.zero_le _)
    List.not_mem_nil varexp.noNul

end Expand

section Rewrite

variable {named : CString → Option CString}

theorem rewriteClosed_follows :
    Follows 1024 35#8 (rewriteClosed named) (rewritePiece named) Rewriting.dststr
      Rewriting.freed where
  plain r p plain := ⟨_, rewritePiece_plain plain, rfl, rfl⟩
  closed r name room := by
    rw [rewriteClosed, List.drop_succ_cons, List.drop_zero]
    cases known : named (.ofBytes name) with
    | some outstr =>
      rw [rewritePiece_known known, Option.bind_some]
      simp only [Dst.write_holding, Option.map_eq_bind]
      exact Dst.fit_bind rfl
    | none =>
      rw [rewritePiece_unknown known]
      simp only [Dst.write_holding]
      cases freed : r.freed with
      | false => exact Dst.fit_bind rfl
      | true => exact Dst.fit_bind_none rfl
  grows {r r' p} next := by
    rw [rewritePiece_text next]
    simp
  clean {r r' name} next noNul noNul' := by
    rw [rewritePiece_text next, List.mem_append, not_or]
    exact ⟨noNul', pieceText_noNul named noNul⟩

/-- **The scanner `sf_rewrite_exp` and the function over pieces are one.** -/
theorem sfRewriteExp_scan (pcre : Pcre Re) (varexp : Option CString) (re : Re) (buf : CString)
    (m : Int × List Int) :
    sfRewriteExpScan pcre varexp re buf m = sfRewriteExp pcre varexp re buf m := by
  unfold sfRewriteExpScan sfRewriteExp
  rw [Dst.zeroed_holding]
  cases varexp with
  | none =>
    show ((Dst.holding [] false).strcpy 1024 buf.bytes).bind (Dst.string 1024) = buffered buf.bytes
    rw [Dst.strcpy_holding, List.nil_append]
    unfold buffered
    by_cases fits : buf.bytes.length < 1024
    · rw [if_pos fits, if_pos fits, Option.bind_some,
        Dst.string_holding (Nat.le_of_lt fits) buf.noNul, fitted, if_pos fits]
    · rw [if_neg fits, if_neg fits]
      rfl
  | some varexp =>
    exact expLoop_fold (r := ⟨[], false⟩) rewriteClosed_follows (by decide)
      (Nat.lt_succ_self _) (Nat.zero_le _) List.not_mem_nil varexp.noNul

end Rewrite

end SpiderFrame.Page
