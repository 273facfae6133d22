import SpiderFrame.Url.Reduce

/-!
# The array `temp` of `redurceurl` (`sf_pcre.c`)

`temp` has 255 bytes. A round of the first loop copies what stands behind a `/../` into it, a round
of the second what stands behind a `/.`, from the slash on, and later rounds copy less. So it is
enough to look at the `..` and `.` segments of the URL (`FitsTemp`). `redurceurl_eq` says that
the function with its array is the one with a large array, when all copies fit.
-/

namespace SpiderFrame.Url
open SpiderFrame.Base SpiderFrame.Page StateTransition

/-- The bytes and their NUL fit into `temp`. -/
def Short (bs : List Byte) : Prop := bs.length + 1 ≤ 255

instance (bs : List Byte) : Decidable (Short bs) := inferInstanceAs (Decidable (_ ≤ _))

/-- What stands behind each segment of a kind is short, and so it is from a slash in front on. -/
def ShortBehind (dir : List Byte) (front last : List Byte) (segs : List (List Byte)) : Prop :=
  ∀ before behind, segs = before ++ dir :: behind → Short (front ++ joined behind last)

/-- Unless the first slash stands in front of a `..` segment, what follows a `..` is short. When the
first loop comes to its end, what it has left behind a `.` segment is short. -/
def FitsTemp (url : List Byte) : Prop :=
  ((interior url).head? ≠ some parent →
    ShortBehind parent [] (lastSegment url) (interior url)) ∧
  (Covered dirRole (interior url) →
    ShortBehind current [47#8] (lastSegment url) (kept dirRole (interior url)))

/-- What still has to fit. -/
def FitsRest (s : Reducing) : Prop :=
  match s.loop with
  | .parents => FitsTemp s.url
  | .dots => ShortBehind current [47#8] (lastSegment s.url) (interior s.url)

/-! ## One round -/

theorem joined_length_mono {segs segs' : List (List Byte)} (inside : segs' <:+ segs)
    (last : List Byte) : (joined segs' last).length ≤ (joined segs last).length := by
  obtain ⟨front, rfl⟩ := inside
  induction front with
  | nil => exact le_rfl
  | cons seg front ih =>
    rw [List.cons_append, joined, List.length_append, List.length_cons]
    omega

/-- A segment that is not in the front of a list stands in the rest of it. -/
theorem suffix_of_absent {dir : List Byte} {front rest before behind : List (List Byte)}
    (e : front ++ rest = before ++ dir :: behind) (absent : dir ∉ front) :
    dir :: behind <:+ rest := by
  obtain ⟨more, -, e'⟩ | ⟨more, e', same⟩ := List.append_eq_append_iff.1 e
  · exact ⟨more, e'.symm⟩
  · cases more with
    | nil => exact ⟨[], by rw [List.nil_append, same, List.nil_append]⟩
    | cons seg more =>
      rw [List.cons_append, List.cons.injEq] at same
      exact absurd (by simp [e', same.1]) absent

/-- What is short behind the first one is short behind all of them. -/
theorem shortBehind_of_first {dir front last : List Byte} {inner back : List (List Byte)}
    (absent : dir ∉ inner) (short : Short (front ++ joined back last)) :
    ShortBehind dir front last (inner ++ dir :: back) := by
  intro before behind e
  have inside : behind <:+ back := by
    obtain same | inside := List.suffix_cons_iff.1 (suffix_of_absent e absent)
    · rw [List.cons.injEq] at same
      exact same.2 ▸ List.suffix_refl _
    · exact (List.suffix_cons dir behind).trans inside
  have le := joined_length_mono inside last
  unfold Short at short ⊢
  rw [List.length_append] at short ⊢
  omega

/-- A round leaves fewer of them. -/
theorem ShortBehind.less {dir front last : List Byte} {segs inner back : List (List Byte)}
    (short : ShortBehind dir front last segs) (absent : dir ∉ inner) (inside : back <:+ segs) :
    ShortBehind dir front last (inner ++ back) := by
  intro before behind e
  obtain ⟨more, e'⟩ := (suffix_of_absent e absent).trans inside
  exact short more behind e'.symm

section Rounds

variable {s s' : Reducing}

theorem fits_parents {url : List Byte} {copies : List (List Byte)} (fits : FitsTemp url)
    (step : reduceStep ⟨.parents, url, copies⟩ = some s') :
    FitsRest s' ∧ ∀ c ∈ s'.copies, c ∈ copies ∨ Short c := by
  have cut := cut_segments url
  obtain absent | ⟨front, x, back, e, absent⟩ := first_interior parent (segments url)
  · obtain ⟨all, covered⟩ := kept_of_absent absent
    rw [step_over _ cut absent] at step
    cases step
    refine ⟨?_, fun c h => .inl h⟩
    have later := fits.2 covered
    rwa [interior, all] at later
  · rw [e] at cut
    by_cases slash : front = []
    · subst slash
      rw [step_stuck _ cut] at step
      cases step
      exact ⟨fits, fun c h => .inl h⟩
    · have round := round_of back slash absent
      have cut' := (cut.sublist round.sublist).segments_eq
      obtain ⟨first, inner, rfl⟩ := List.exists_cons_of_ne_nil slash
      rw [List.cons_append, List.tail_cons] at absent
      have inside : interior url = inner ++ x :: parent :: back := by
        rw [interior, e, List.cons_append, List.tail_cons]
      have fresh : (interior url).head? ≠ some parent := by
        rw [inside]
        cases inner with
        | nil =>
          intro same
          exact absent (by simpa using same.symm)
        | cons seg inner =>
          intro same
          exact absent (by simp [← Option.some.inj same])
      have early := fits.1 fresh
      rw [step_parent _ cut (by rwa [List.cons_append, List.tail_cons]) slash] at step
      cases step
      refine ⟨⟨fun _ => ?_, fun covered => ?_⟩, fun c h => ?_⟩
      · rw [interior, cut'.1, cut'.2, List.cons_append, List.tail_cons]
        apply early.less (fun h => absent (List.mem_append_left _ h))
        rw [inside]
        exact ⟨inner ++ [x, parent], by simp⟩
      · rw [interior, cut'.1] at covered
        have later := fits.2 (by rw [interior, e]; exact round.covered.1 covered)
        rw [interior, cut'.1, cut'.2, round.kept]
        rwa [interior, e] at later
      · apply (List.mem_append.1 h).imp id
        intro h
        rw [List.mem_singleton.1 h]
        exact early (inner ++ [x]) back (by rw [inside, List.append_assoc]; rfl)

theorem fits_dots {url : List Byte} {copies : List (List Byte)}
    (fits : ShortBehind current [47#8] (lastSegment url) (interior url))
    (step : reduceStep ⟨.dots, url, copies⟩ = some s') :
    FitsRest s' ∧ ∀ c ∈ s'.copies, c ∈ copies ∨ Short c := by
  have cut := cut_segments url
  obtain absent | ⟨front, x, back, e, absent⟩ := first_interior current (segments url)
  · rw [step_return _ cut absent] at step
    cases step
  · rw [e] at cut
    have some_ : (front ++ x :: back).Sublist (front ++ x :: current :: back) :=
      ((List.sublist_cons_self current back).cons_cons x).append_left front
    have cut' := (cut.sublist some_).segments_eq
    rw [interior, e, tail_behind] at fits
    rw [step_current _ cut absent] at step
    cases step
    refine ⟨?_, fun c h => ?_⟩
    · show ShortBehind _ _ (lastSegment (joined (front ++ x :: back) _)) (interior _)
      rw [interior, cut'.1, cut'.2, tail_behind]
      exact fits.less absent ⟨(front ++ [x]).tail ++ [current], by simp⟩
    · apply (List.mem_append.1 h).imp id
      intro h
      rw [List.mem_singleton.1 h]
      exact fits _ back rfl

theorem fits_step (fits : FitsRest s) (step : reduceStep s = some s') :
    FitsRest s' ∧ ∀ c ∈ s'.copies, c ∈ s.copies ∨ Short c := by
  obtain ⟨loop, url, copies⟩ := s
  cases loop with
  | parents => exact fits_parents fits step
  | dots => exact fits_dots fits step

end Rounds

/-- Copies stay. -/
theorem copies_subset {s s' : Reducing} (run : Reaches reduceStep s s') : s.copies ⊆ s'.copies := by
  induction run with
  | refl => exact fun _ h => h
  | tail _ step ih =>
    rename_i s₁ s₂ _
    refine fun c h => ?_
    have inside := ih h
    obtain ⟨loop, url, copies⟩ := s₁
    cases loop with
    | parents =>
      simp only [reduceStep] at step
      split at step
      · cases step; exact inside
      · split at step
        · cases step; exact inside
        · cases step; exact List.mem_append_left _ inside
    | dots =>
      obtain ⟨parts, -, rfl⟩ := Option.map_eq_some_iff.1 step
      exact List.mem_append_left _ inside

/-! ## All copies -/

/-- Every copy of a run fits into `temp`. -/
def CopiesFit (url : List Byte) : Prop :=
  ∀ s, Reaches reduceStep ⟨.parents, url, []⟩ s → ∀ c ∈ s.copies, Short c

theorem copiesFit_of_fits {url : List Byte} (fits : FitsTemp url) : CopiesFit url := by
  intro s run
  have both : FitsRest s ∧ ∀ c ∈ s.copies, Short c := by
    induction run with
    | refl => exact ⟨fits, by simp⟩
    | tail _ step ih =>
      obtain ⟨rest, new⟩ := fits_step ih.1 step
      exact ⟨rest, fun c h => (new c h).elim (ih.2 c) id⟩
  exact both.2

theorem fits_of_copiesFit {url : List Byte} (all : CopiesFit url) : FitsTemp url := by
  have cut := cut_segments url
  refine ⟨fun fresh => ?_, fun covered => ?_⟩
  · obtain absent | ⟨front, x, back, e, absent⟩ := first_interior parent (segments url)
    · intro before behind e
      exact absurd (by rw [← interior, e]; simp) absent
    · rw [e] at cut
      have slash : front ≠ [] := by
        rintro rfl
        exact fresh (by rw [interior, e]; rfl)
      have short := all _ (.single (step_parent _ cut absent slash)) _ (List.mem_singleton_self _)
      rw [interior, e, tail_behind]
      exact shortBehind_of_first absent short
  · obtain ⟨more, run⟩ := parents_run _ [] le_rfl cut covered
    have inside : ((segments url).take 1 ++ kept dirRole (segments url).tail).Sublist
        (segments url) := kept_segments_sublist url
    have cut' := cut.sublist inside
    have tail : ((segments url).take 1 ++ kept dirRole (segments url).tail).tail =
        kept dirRole (interior url) := by
      rw [interior]
      cases h : segments url <;> simp [kept]
    obtain absent | ⟨front, x, back, e, absent⟩ := first_interior current
        ((segments url).take 1 ++ kept dirRole (segments url).tail)
    · rw [tail] at absent
      intro before behind e
      exact absurd (by rw [e]; simp) absent
    · rw [e] at cut' run tail
      have short := all _ (run.tail (step_current _ cut' absent)) _
        (List.mem_append_right _ (List.mem_singleton_self _))
      rw [← tail, tail_behind]
      exact shortBehind_of_first absent short

/-- The copies of a run fit exactly when those that the segments of the URL stand for do. -/
theorem copiesFit_iff (url : List Byte) : CopiesFit url ↔ FitsTemp url :=
  ⟨fits_of_copiesFit, copiesFit_of_fits⟩

/-! ## With the array -/

section Array

theorem slashed_parent : slashed parent = [47#8, 46#8, 46#8, 47#8] := rfl
theorem slashed_current : slashed current = [47#8, 46#8, 47#8] := rfl

theorem reaches_of_dropParents : ∀ {fuel : Nat} {url url' : List Byte} (copies : List (List Byte)),
    dropParents fuel url = some url' → ∃ more, Reaches reduceStep ⟨.parents, url, copies⟩
      ⟨.dots, url', copies ++ more⟩ ∧ ∀ c ∈ more, Short c := by
  intro fuel
  induction fuel with
  | zero => intro url url' copies run; cases run
  | succ fuel ih =>
    intro url url' copies run
    rw [dropParents, ← slashed_parent] at run
    cases found : strstr (slashed parent) url with
    | none =>
      simp only [found] at run
      cases run
      refine ⟨[], .single ?_, by simp⟩
      simp [reduceStep, found]
    | some parts =>
      obtain ⟨before, rest⟩ := parts
      simp only [found] at run
      split at run
      · rename_i short
        obtain ⟨front, slash, run⟩ := Option.bind_eq_some_iff.1 run
        obtain ⟨more, reached, all⟩ := ih (copies ++ [rest]) run
        have step : reduceStep ⟨.parents, url, copies⟩ =
            some ⟨.parents, front ++ rest, copies ++ [rest]⟩ := by
          simp only [reduceStep, found, slash]
        refine ⟨rest :: more, .head step ?_, ?_⟩
        · rwa [List.append_assoc, List.singleton_append] at reached
        · intro c hc
          obtain rfl | hc := List.mem_cons.1 hc
          · exact short
          · exact all c hc
      · cases run

theorem eval_of_dropDots : ∀ {fuel : Nat} {url url' : List Byte} (copies : List (List Byte)),
    dropDots fuel url = some url' → ∃ more,
      ⟨.dots, url', copies ++ more⟩ ∈ eval reduceStep ⟨.dots, url, copies⟩ ∧ ∀ c ∈ more, Short c := by
  intro fuel
  induction fuel with
  | zero => intro url url' copies run; cases run
  | succ fuel ih =>
    intro url url' copies run
    rw [dropDots, ← slashed_current] at run
    cases found : strstr (slashed current) url with
    | none =>
      simp only [found] at run
      cases run
      refine ⟨[], ?_, by simp⟩
      rw [List.append_nil]
      refine mem_eval.2 ⟨.refl, ?_⟩
      simp [reduceStep, found]
    | some parts =>
      obtain ⟨before, rest⟩ := parts
      simp only [found] at run
      split at run
      · rename_i short
        obtain ⟨more, ends, all⟩ := ih (copies ++ [47#8 :: rest]) run
        have step : reduceStep ⟨.dots, url, copies⟩ =
            some ⟨.dots, before ++ 47#8 :: rest, copies ++ [47#8 :: rest]⟩ := by
          simp only [reduceStep, found, Option.map_some]
        refine ⟨(47#8 :: rest) :: more, ?_, ?_⟩
        · rw [reaches_eval (.single step)]
          rwa [List.append_assoc, List.singleton_append] at ends
        · intro c hc
          obtain rfl | hc := List.mem_cons.1 hc
          · exact short
          · exact all c hc
      · cases run

/-- The rest of the function from a state on, with fuel for the loop it is in. -/
def finish (fuel : Nat) (s : Reducing) : Option (List Byte) :=
  match s.loop with
  | .parents => (dropParents fuel s.url).bind fun url => dropDots (url.length + 1) url
  | .dots => dropDots fuel s.url

/-- `strstr` finds a part of the text. -/
theorem strstr_length {pat : List Byte} : ∀ {text : List Byte} {parts : List Byte × List Byte},
    strstr pat text = some parts →
      parts.1.length + pat.length + parts.2.length = text.length
  | [], _, found => by cases found
  | b :: text, parts, found => by
    rw [strstr] at found
    split at found
    · rename_i inside
      cases found
      have le := (List.isPrefixOf_iff_prefix.1 inside).length_le
      rw [List.length_drop, List.length_nil]
      omega
    · obtain ⟨later, found', rfl⟩ := Option.map_eq_some_iff.1 found
      have := strstr_length found'
      simp only [List.length_cons]
      omega

theorem upToSlash_length {before front : List Byte} (h : upToSlash before = some front) :
    front.length ≤ before.length := by
  unfold upToSlash at h
  split at h
  · cases h
    rw [List.length_reverse]
    exact (List.dropWhile_suffix _).length_le.trans (List.length_reverse ..).le
  · cases h

/-- Without a round the string is done. -/
theorem finish_over {s : Reducing} (stopped : reduceStep s = none) (fuel : Nat) :
    finish (fuel + 1) s = some s.url := by
  obtain ⟨loop, url, copies⟩ := s
  cases loop with
  | parents =>
    simp only [reduceStep] at stopped
    split at stopped
    · cases stopped
    · split at stopped <;> cases stopped
  | dots =>
    have found := Option.map_eq_none_iff.1 stopped
    simp only at found
    simp only [finish, dropDots, ← slashed_current, found]

/-- A round whose copies fit, with the array; at a `/../` without a slash in front nothing moves. -/
theorem finish_step {s s' : Reducing} (step : reduceStep s = some s')
    (all : ∀ c ∈ s'.copies, Short c) {fuel : Nat} (enough : s.url.length < fuel) :
    ∃ fuel', s'.url.length < fuel' ∧ finish fuel s = finish fuel' s' := by
  obtain ⟨fuel, rfl⟩ := Nat.exists_eq_succ_of_ne_zero (Nat.ne_of_gt (Nat.zero_lt_of_lt enough))
  obtain ⟨loop, url, copies⟩ := s
  cases loop with
  | parents =>
    simp only [reduceStep] at step
    split at step
    · rename_i found
      cases step
      refine ⟨url.length + 1, Nat.lt_succ_self _, ?_⟩
      simp only [finish, dropParents, ← slashed_parent, found]
      rfl
    · rename_i before behind found
      split at step
      · cases step
        exact ⟨fuel + 1, enough, rfl⟩
      · rename_i front slash
        cases step
        have short : behind.length < 255 := all _ (by simp)
        have parts := strstr_length found
        have le := upToSlash_length slash
        refine ⟨fuel, ?_, ?_⟩
        · simp only [slashed_parent, List.length_cons, List.length_nil] at parts enough
          simp only [List.length_append]
          omega
        · simp only [finish, dropParents, ← slashed_parent, found, if_pos short, slash,
            Option.bind_some]
  | dots =>
    obtain ⟨parts, found, e⟩ := Option.map_eq_some_iff.1 step
    cases e
    have short : parts.2.length + 1 < 255 :=
      all (47#8 :: parts.2) (List.mem_append_right _ (List.mem_singleton_self _))
    have sum := strstr_length found
    refine ⟨fuel, ?_, ?_⟩
    · simp only [slashed_current, List.length_cons, List.length_nil] at sum enough
      simp only [List.length_append, List.length_cons]
      omega
    · simp only at found
      simp only [finish, dropDots, ← slashed_current, found, if_pos short]

theorem finish_of_eval {s s' : Reducing} (ends : s' ∈ eval reduceStep s)
    (all : ∀ c ∈ s'.copies, Short c) :
    ∀ fuel, s.url.length < fuel → finish fuel s = some s'.url := by
  obtain ⟨run, stopped⟩ := mem_eval.1 ends
  clear ends
  induction run using Relation.ReflTransGen.head_induction_on with
  | refl =>
    intro fuel enough
    obtain ⟨fuel, rfl⟩ := Nat.exists_eq_succ_of_ne_zero (Nat.ne_of_gt (Nat.zero_lt_of_lt enough))
    exact finish_over stopped fuel
  | head step rest ih =>
    intro fuel enough
    have short := fun c hc => all c (copies_subset rest hc)
    obtain ⟨fuel', enough', same⟩ := finish_step step short enough
    rw [same]
    exact ih fuel' enough'

/-- **With the array the function gives the same URL, as long as every copy fits.** -/
theorem redurceurl_iff {url u : CString} : redurceurl url = some u ↔
    ∃ s ∈ reduced url.bytes, (∀ c ∈ s.copies, Short c) ∧ u = .ofBytes s.url := by
  constructor
  · intro run
    obtain ⟨last, loops, rfl⟩ := Option.map_eq_some_iff.1 run
    obtain ⟨url', first, second⟩ := Option.bind_eq_some_iff.1 loops
    obtain ⟨more, reached, short⟩ := reaches_of_dropParents [] first
    obtain ⟨more', ends, short'⟩ := eval_of_dropDots ([] ++ more) second
    refine ⟨⟨.dots, last, [] ++ more ++ more'⟩, ?_, ?_, rfl⟩
    · rw [reduced, reaches_eval reached]
      exact ends
    · intro c hc
      obtain hc | hc := List.mem_append.1 hc
      · exact short c hc
      · exact short' c hc
  · rintro ⟨s, ends, short, rfl⟩
    have run := finish_of_eval ends short (url.bytes.length + 1) (Nat.lt_succ_self _)
    rw [redurceurl]
    exact congrArg (Option.map CString.ofBytes) run

/-- **When it has a result at all.** -/
theorem redurceurl_isSome (url : CString) : (redurceurl url).isSome ↔
    Covered dirRole (interior url.bytes) ∧ FitsTemp url.bytes := by
  rw [Option.isSome_iff_exists]
  constructor
  · rintro ⟨u, run⟩
    obtain ⟨s, ends, short, -⟩ := redurceurl_iff.1 run
    refine ⟨(reduced_dom _).1 ⟨s, ends⟩, (copiesFit_iff _).1 fun s' reached c hc => ?_⟩
    obtain ⟨run, stopped⟩ := mem_eval.1 ends
    obtain onward | back := reaches_total reached run
    · exact short c (copies_subset onward hc)
    · obtain rfl | ⟨s₂, step, -⟩ := back.cases_head
      · exact short c hc
      · rw [stopped] at step
        cases step
  · rintro ⟨covered, fits⟩
    obtain ⟨s, ends, -⟩ := exists_reduced covered
    have short := (copiesFit_iff _).2 fits s (mem_eval.1 ends).1
    exact ⟨_, redurceurl_iff.2 ⟨s, ends, short, rfl⟩⟩

end Array

end SpiderFrame.Url
