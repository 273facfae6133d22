import SpiderFrame.Base.Resource
import SpiderFrame.Page.Stores

/-!
# The groups that `sf_rewrite_exp` frees (`sf_proc.c`)

`pcre_get_named_substring` allocates the text of a group and sets `outstr` to it; `outstr` is freed
behind each reference, and keeps the pointer. `rewrite_releases_iff` says for which templates each
text is freed once.
-/

namespace SpiderFrame.Page
open SpiderFrame.Base SpiderFrame.Queue

variable {Re : Type}

/-- `outstr`, the number of texts that have been allocated, and the calls so far. -/
structure Outstr where
  outstr : Option Nat
  allocated : Nat
  calls : List (Use Nat)

/-- `outstr = NULL`. -/
def Outstr.start : Outstr := ⟨none, 0, []⟩

/-- What `sf_rewrite_exp` does with `outstr`. A call that fails leaves it alone. -/
def freeActions (named : CString → Option CString) : Actions Outstr where
  letter _ s := s
  closed name s :=
    match named (.ofBytes (name.drop 1)) with
    | none => some { s with calls := s.calls ++ [.released s.outstr] }
    | some _ =>
      some ⟨some s.allocated, s.allocated + 1,
        s.calls ++ [.got s.allocated, .released (some s.allocated)]⟩
  tail _ s := s

/-- The calls of `sf_rewrite_exp(varexp, re, buf, vector, rc, pool)` for the match `hit`. -/
def sfRewriteExpCalls (pcre : Pcre Re) (varexp : Option CString) (re : Re) (buf : CString)
    (hit : Int × List Int) : Option (List (Use Nat)) :=
  match varexp with
  | none => some []
  | some varexp =>
    (scanLoop 35#8 (freeActions (pcre.getNamedSubstring re buf.bytes hit))
      (varexp.bytes.length + 1) varexp.bytes .start).map Outstr.calls

/-- The function returns, and has freed each text once. -/
def Releases (calls : Option (List (Use Nat))) : Prop :=
  ∃ uses, calls = some uses ∧ ReleasedOnce uses

/-- No unknown group of the template stands behind a known one. -/
def TemplateKnownLast (pcre : Pcre Re) (varexp : Option CString) (re : Re) (buf : CString)
    (hit : Int × List Int) : Prop :=
  ∀ text ∈ varexp,
    KnownLast (pcre.getNamedSubstring re buf.bytes hit) (references 40#8 35#8 41#8 text.bytes)

/-- The calls for some pieces, from `s` on: each gets a new text, and they are balanced if and only
if no unknown group is behind a known one, or behind the group that `outstr` points to. -/
structure PieceCalls (named : CString → Option CString) (ps : List (Piece Byte)) (s : Outstr)
    (calls : List (Use Nat)) : Prop where
  fresh : ∀ i < s.allocated, Use.got i ∉ calls
  distinct : ∀ i, calls.count (.got i) ≤ 1
  balanced : Base.Balanced calls ↔
    (s.outstr.isSome → ∀ name ∈ ps.filterMap Piece.name?, (groupValue named name).isSome) ∧
      KnownLast named (ps.filterMap Piece.name?)

section

variable {named : CString → Option CString} {ps : List (Piece Byte)} {s : Outstr} {name : List Byte}
  {calls : List (Use Nat)}

theorem PieceCalls.nil : PieceCalls named [] s [] := by
  refine ⟨by simp, by simp, ?_⟩
  simp [Base.Balanced, KnownLast]

theorem names_reference : (Piece.reference name :: ps).filterMap Piece.name? =
    name :: ps.filterMap Piece.name? := rfl

/-- A known group: its text is got and freed. -/
theorem PieceCalls.known {outstr : CString} (known : named (.ofBytes name) = some outstr)
    (h : PieceCalls named ps ⟨some s.allocated, s.allocated + 1,
      s.calls ++ [.got s.allocated, .released (some s.allocated)]⟩ calls) :
    PieceCalls named (.reference name :: ps) s
      (.got s.allocated :: .released (some s.allocated) :: calls) where
  fresh i below inside := by
    have other : Use.got i ≠ .got s.allocated := by
      rintro ⟨⟩
      omega
    simp only [List.mem_cons, other, reduceCtorEq, false_or] at inside
    exact h.fresh i (Nat.lt_succ_of_lt below) inside
  distinct i := by
    by_cases same : s.allocated = i
    · subst same
      have none_ := List.count_eq_zero.2 (h.fresh s.allocated (Nat.lt_succ_self _))
      simp [none_]
    · simpa [same] using h.distinct i
  balanced := by
    have here : (groupValue named name).isSome := by simp [groupValue, known]
    rw [names_reference, KnownLast, List.pairwise_cons, List.forall_mem_cons, balanced_pair,
      h.balanced]
    constructor
    · rintro ⟨all, tail⟩
      exact ⟨fun _ => ⟨here, all rfl⟩, fun later inside _ => all rfl later inside, tail⟩
    · rintro ⟨-, all, tail⟩
      exact ⟨fun _ later inside => all later inside here, tail⟩

/-- An unknown group: what `outstr` points to is freed, perhaps again. -/
theorem PieceCalls.unknown (unknown : named (.ofBytes name) = none)
    (old : ∀ i ∈ s.outstr, i < s.allocated)
    (h : PieceCalls named ps { s with calls := s.calls ++ [.released s.outstr] } calls) :
    PieceCalls named (.reference name :: ps) s (.released s.outstr :: calls) where
  fresh i below inside := by
    simp only [List.mem_cons, reduceCtorEq, false_or] at inside
    exact h.fresh i below inside
  distinct i := by simpa using h.distinct i
  balanced := by
    have here : ¬ (groupValue named name).isSome := by simp [groupValue, unknown]
    have tail := h.balanced
    simp only at tail
    rw [names_reference, KnownLast, List.pairwise_cons, List.forall_mem_cons]
    cases freed : s.outstr with
    | none =>
      rw [balanced_null, tail, freed]
      constructor
      · rintro ⟨-, tail⟩
        exact ⟨fun some_ => absurd some_ Bool.false_ne_true,
          fun _ _ known => absurd known here, tail⟩
      · rintro ⟨-, -, tail⟩
        exact ⟨fun some_ => absurd some_ Bool.false_ne_true, tail⟩
    | some i =>
      -- the pointer is freed again
      apply iff_of_false (not_balanced (h.fresh i (old i freed)))
      rintro ⟨all, -⟩
      exact here (all rfl).1

end

/-- **The calls for the pieces of a template.** -/
theorem freeActions_pieces (named : CString → Option CString) (ps : List (Piece Byte)) :
    ∀ {s : Outstr}, (∀ i ∈ s.outstr, i < s.allocated) →
      ∃ s' calls, ps.foldlM ((freeActions named).piece 35#8) s = some s' ∧
        s'.calls = s.calls ++ calls ∧ PieceCalls named ps s calls := by
  induction ps with
  | nil =>
    intro s _
    exact ⟨s, [], rfl, (List.append_nil _).symm, .nil⟩
  | cons p ps ih =>
    intro s old
    rw [List.foldlM_cons]
    cases p with
    | letter a =>
      obtain ⟨s', calls, run, calls', h⟩ := ih old
      exact ⟨s', calls, run, calls', h.fresh, h.distinct, h.balanced⟩
    | unclosed as =>
      obtain ⟨s', calls, run, calls', h⟩ := ih old
      exact ⟨s', calls, run, calls', h.fresh, h.distinct, h.balanced⟩
    | reference name =>
      cases known : named (.ofBytes name) with
      | some outstr =>
        have step : (freeActions named).piece 35#8 s (.reference name) =
            some ⟨some s.allocated, s.allocated + 1,
              s.calls ++ [.got s.allocated, .released (some s.allocated)]⟩ := by
          simp [Actions.piece, freeActions, known]
        obtain ⟨s', calls, run, calls', h⟩ := ih (s := ⟨some s.allocated, s.allocated + 1,
          s.calls ++ [.got s.allocated, .released (some s.allocated)]⟩) (by simp)
        rw [step]
        refine ⟨s', _, run, ?_, h.known known⟩
        rw [calls', List.append_assoc]
        rfl
      | none =>
        have step : (freeActions named).piece 35#8 s (.reference name) =
            some { s with calls := s.calls ++ [.released s.outstr] } := by
          simp [Actions.piece, freeActions, known]
        obtain ⟨s', calls, run, calls', h⟩ :=
          ih (s := { s with calls := s.calls ++ [.released s.outstr] }) old
        rw [step]
        refine ⟨s', _, run, ?_, h.unknown known old⟩
        rw [calls', List.append_assoc]
        rfl

/-- **Each text is freed once if and only if no unknown group stands behind a known one.** -/
theorem rewrite_releases_iff (pcre : Pcre Re) (varexp : Option CString) (re : Re) (buf : CString)
    (hit : Int × List Int) :
    Releases (sfRewriteExpCalls pcre varexp re buf hit) ↔
      TemplateKnownLast pcre varexp re buf hit := by
  cases varexp with
  | none =>
    refine iff_of_true ⟨[], rfl, ?_⟩ (by simp [TemplateKnownLast])
    exact (releasedOnce_iff (by simp)).2 fun _ => rfl
  | some varexp =>
    obtain ⟨s, calls, run, calls', -, distinct, balanced⟩ := freeActions_pieces
      (pcre.getNamedSubstring re buf.bytes hit) (rewritePieces varexp.bytes) (s := .start) nofun
    have made : sfRewriteExpCalls pcre (some varexp) re buf hit = some calls := by
      rw [sfRewriteExpCalls, scanLoop_pieces (by decide) _ (Nat.lt_succ_self _)]
      apply (congrArg (Option.map Outstr.calls) run).trans
      exact congrArg some calls'
    have known : TemplateKnownLast pcre (some varexp) re buf hit ↔ Base.Balanced calls := by
      rw [balanced, TemplateKnownLast]
      simp [Outstr.start, references]
    rw [known, ← releasedOnce_iff distinct, Releases, made]
    simp

/-- `(#a)(#b)`, of which the group `a` alone is known: its text is freed for both. -/
theorem rewrite_frees_twice :
    ¬ Releases (sfRewriteExpCalls oneGroup (some unknownTemplate) () (.ofBytes [121#8])
      (2, [0, 1, 0, 1])) := by
  have calls : sfRewriteExpCalls oneGroup (some unknownTemplate) () (.ofBytes [121#8])
      (2, [0, 1, 0, 1]) = some [.got 0, .released (some 0), .released (some 0)] := by decide
  rintro ⟨uses, same, once⟩
  rw [calls] at same
  cases same
  have twice := once.once 0 List.mem_cons_self
  simp at twice

/-- `sf_rewrite_exp` has a result if and only if it stays in its buffer and frees no text again. -/
theorem sfRewriteExpScan_isSome (pcre : Pcre Re) (varexp : Option CString) (re : Re)
    (buf : CString) (hit : Int × List Int) :
    (sfRewriteExpScan pcre varexp re buf hit).isSome ↔
      Stays 1024 (sfRewriteExpStores pcre varexp re buf hit) ∧
        TemplateKnownLast pcre varexp re buf hit := by
  rw [sfRewriteExp_scan, sfRewriteExp_stays]
  cases varexp with
  | none => simp [sfRewriteExp, buffered, rewriteTexts, TemplateKnownLast]
  | some varexp =>
    have known : TemplateKnownLast pcre (some varexp) re buf hit ↔
        ((rewritePieces varexp.bytes).foldlM
          (rewritePiece (pcre.getNamedSubstring re buf.bytes hit)) ⟨[], false⟩).isSome := by
      rw [rewritePieces_run, TemplateKnownLast]
      simp [references]
    rw [known, sfRewriteExp]
    cases run : (rewritePieces varexp.bytes).foldlM
        (rewritePiece (pcre.getNamedSubstring re buf.bytes hit)) ⟨[], false⟩ with
    | none => simp
    | some r =>
      have text := rewritePieces_text run
      rw [List.nil_append] at text
      rw [Option.bind_some, text, rewriteTexts]
      simp [buffered]

end SpiderFrame.Page
