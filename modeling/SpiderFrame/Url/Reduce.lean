import Mathlib.Computability.StateTransition
import SpiderFrame.Base.Brackets
import SpiderFrame.Url.Slashes

/-!
# The loops of `redurceurl` (`sf_pcre.c`)

The first loop takes out a `/../` together with the segment in front of it, the second one a `/.`
in front of a slash. Each round copies what stands behind to the array `temp` and back. When no
slash stands in front of a `/../` the round changes nothing, and the first loop goes on for ever.

On the segments between slashes the first loop is a matching of brackets: a `..` takes away the
segment in front of it (`reduced_dom`, `reduced_url`).
-/

namespace SpiderFrame.Url
open SpiderFrame.Base SpiderFrame.Page StateTransition

/-- `.` and `..`. -/
def current : List Byte := [46#8]
def parent : List Byte := [46#8, 46#8]

inductive Loop where
  | parents
  | dots
  deriving DecidableEq

/-- Where the function is, with the URL, and what it has copied to `temp`. -/
structure Reducing where
  loop : Loop
  url : List Byte
  copies : List (List Byte)

/-- One round; `none` when the function returns. -/
def reduceStep (s : Reducing) : Option Reducing :=
  match s.loop with
  | .parents =>
    match strstr (slashed parent) s.url with
    | none => some { s with loop := .dots }
    | some (before, rest) =>
      match upToSlash before with
      | none => some s
      | some front => some { s with url := front ++ rest, copies := s.copies ++ [rest] }
  | .dots =>
    (strstr (slashed current) s.url).map fun parts =>
      { s with url := parts.1 ++ 47#8 :: parts.2, copies := s.copies ++ [47#8 :: parts.2] }

/-- `redurceurl(url)`, with a `temp` that is large enough. -/
def reduced (url : List Byte) : Part Reducing := eval reduceStep ⟨.parents, url, []⟩

/-! ## Rounds -/

theorem parent_clean : 47#8 ∉ parent := by decide
theorem current_clean : 47#8 ∉ current := by decide

section Rounds

variable {url x last : List Byte} {segs front back : List (List Byte)} (copies : List (List Byte))

theorem step_over (cut : Cut url segs last) (absent : parent ∉ segs.tail) :
    reduceStep ⟨.parents, url, copies⟩ = some ⟨.dots, url, copies⟩ := by
  simp only [reduceStep, strstr_none parent_clean cut absent]

theorem step_parent (cut : Cut url (front ++ x :: parent :: back) last)
    (absent : parent ∉ (front ++ [x]).tail) (slash : front ≠ []) :
    reduceStep ⟨.parents, url, copies⟩ =
      some ⟨.parents, joined (front ++ back) last, copies ++ [joined back last]⟩ := by
  have clean := cut.segs x (by simp)
  simp only [reduceStep, strstr_first parent_clean cut absent, upToSlash_joined clean,
    if_neg slash]
  rw [← joined_append_last, List.nil_append, joined_append]

theorem step_stuck (cut : Cut url (x :: parent :: back) last) :
    reduceStep ⟨.parents, url, copies⟩ = some ⟨.parents, url, copies⟩ := by
  have clean := cut.segs x (by simp)
  have found : strstr (slashed parent) url = some (joined [] x, joined back last) :=
    strstr_first parent_clean cut (by simp)
  simp only [reduceStep, found, upToSlash_joined clean, if_pos]

theorem step_return (cut : Cut url segs last) (absent : current ∉ segs.tail) :
    reduceStep ⟨.dots, url, copies⟩ = none := by
  simp only [reduceStep, strstr_none current_clean cut absent, Option.map_none]

theorem step_current (cut : Cut url (front ++ x :: current :: back) last)
    (absent : current ∉ (front ++ [x]).tail) :
    reduceStep ⟨.dots, url, copies⟩ =
      some ⟨.dots, joined (front ++ x :: back) last, copies ++ [47#8 :: joined back last]⟩ := by
  simp only [reduceStep, strstr_first current_clean cut absent, Option.map_some]
  rw [← joined_append_last, joined_append, joined]

end Rounds

/-- Where the first segment of a kind stands, if there is one between two slashes. -/
theorem first_interior (dir : List Byte) (segs : List (List Byte)) : dir ∉ segs.tail ∨
    ∃ front x back, segs = front ++ x :: dir :: back ∧ dir ∉ (front ++ [x]).tail := by
  apply or_iff_not_imp_left.2
  intro present
  rw [not_not] at present
  obtain ⟨inner, back, e, absent⟩ := List.eq_append_cons_of_mem present
  cases segs with
  | nil => simp at e
  | cons first segs =>
    obtain ⟨front, x, ends⟩ : ∃ front x, first :: inner = front ++ [x] :=
      ⟨_, _, (List.dropLast_append_getLast (by simp)).symm⟩
    rw [List.tail_cons] at e
    refine ⟨front, x, back, ?_, by rwa [← ends]⟩
    calc first :: segs = (first :: inner) ++ dir :: back := by rw [e, List.cons_append]
      _ = front ++ x :: dir :: back := by rw [ends, List.append_assoc, List.singleton_append]

theorem tail_behind (front : List (List Byte)) (x : List Byte) (rest : List (List Byte)) :
    (front ++ x :: rest).tail = (front ++ [x]).tail ++ rest := by
  cases front <;> simp

/-! ## The first loop -/

/-- How a segment stands to the first loop: `..` takes away what is in front of it. -/
def dirRole (seg : List Byte) : Role := if seg = parent then .closes else .opens

theorem dirRole_parent : dirRole parent = .closes := rfl

theorem dirRole_opens {seg : List Byte} : dirRole seg = .opens ↔ seg ≠ parent := by
  unfold dirRole
  split <;> simp [*]

theorem kept_of_absent {segs : List (List Byte)} (absent : parent ∉ segs) :
    kept dirRole segs = segs ∧ Covered dirRole segs :=
  kept_of_opens dirRole fun _ h => dirRole_opens.2 fun e => absent (e ▸ h)

/-- What a round of the first loop does to the segments behind the first one. -/
structure Round (segs segs' : List (List Byte)) : Prop where
  first : segs'.take 1 = segs.take 1
  covered : Covered dirRole segs'.tail ↔ Covered dirRole segs.tail
  kept : kept dirRole segs'.tail = kept dirRole segs.tail
  shorter : segs'.length < segs.length
  sublist : segs'.Sublist segs

theorem round_of {front : List (List Byte)} {x : List Byte} (back : List (List Byte))
    (slash : front ≠ [])
    (absent : parent ∉ (front ++ [x]).tail) :
    Round (front ++ x :: parent :: back) (front ++ back) := by
  obtain ⟨first, inner, rfl⟩ := List.exists_cons_of_ne_nil slash
  rw [List.cons_append, List.tail_cons] at absent
  have opens : dirRole x = .opens := dirRole_opens.2 fun e => absent (by simp [e])
  have inside : back.Sublist (x :: parent :: back) :=
    (List.sublist_cons_self parent back).trans (List.sublist_cons_self x _)
  exact
    { first := rfl
      covered := (covered_pair opens dirRole_parent inner back).symm
      kept := (kept_pair opens dirRole_parent back inner).symm
      shorter := by
        simp only [List.length_append, List.length_cons]
        omega
      sublist := inside.append_left _ }

/-- **While every `..` has a segment to take away, the first loop comes to its end with what is
left.** -/
theorem parents_run {last : List Byte} : ∀ (n : Nat) {url : List Byte} {segs : List (List Byte)}
    (copies : List (List Byte)), segs.length ≤ n → Cut url segs last →
    Covered dirRole segs.tail → ∃ more, Reaches reduceStep ⟨.parents, url, copies⟩
      ⟨.dots, joined (segs.take 1 ++ kept dirRole segs.tail) last, copies ++ more⟩ := by
  intro n
  induction n with
  | zero =>
    intro url segs copies few cut _
    obtain rfl := List.length_eq_zero_iff.1 (Nat.le_zero.1 few)
    have stopped := step_over copies cut (by simp)
    refine ⟨[], .single ?_⟩
    rw [cut.joined] at stopped ⊢
    rw [stopped, List.append_nil]
    rfl
  | succ n ih =>
    intro url segs copies few cut covered
    obtain absent | ⟨front, x, back, rfl, absent⟩ := first_interior parent segs
    · have stopped := step_over copies cut absent
      refine ⟨[], .single ?_⟩
      rw [(kept_of_absent absent).1, ← List.drop_one, List.take_append_drop, ← cut.joined, stopped,
        List.append_nil]
      rfl
    · have slash : front ≠ [] := by
        rintro rfl
        exact not_covered_of_closes dirRole dirRole_parent back covered
      have round := round_of back slash absent
      have few' : (front ++ back).length ≤ n := by
        have := round.shorter
        omega
      obtain ⟨more, run⟩ := ih (copies ++ [joined back last]) few'
        (cut.sublist round.sublist) (round.covered.2 covered)
      rw [round.first, round.kept] at run
      refine ⟨joined back last :: more, .head (step_parent _ cut absent slash) ?_⟩
      rwa [List.append_assoc, List.singleton_append] at run

/-- The first loop comes to its end in no other case. -/
theorem covered_of_reaches {s s' : Reducing} (run : Reaches reduceStep s s') (stopped : s'.loop = .dots)
    (here : s.loop = .parents) : Covered dirRole (interior s.url) := by
  induction run using Relation.ReflTransGen.head_induction_on with
  | refl => rw [here] at stopped; cases stopped
  | @head s₁ s₂ step _ ih =>
    obtain ⟨loop, url, copies⟩ := s₁
    obtain rfl : loop = .parents := here
    have cut := cut_segments url
    obtain absent | ⟨front, x, back, e, absent⟩ := first_interior parent (segments url)
    · exact (kept_of_absent absent).2
    · rw [interior, e]
      rw [e] at cut
      by_cases slash : front = []
      · subst slash
        rw [step_stuck _ cut] at step
        cases step
        have covered := ih rfl
        rwa [interior, e] at covered
      · rw [step_parent _ cut absent slash] at step
        cases step
        have round := round_of back slash absent
        have covered := ih rfl
        rw [interior, (cut.sublist round.sublist).segments_eq.1] at covered
        exact round.covered.1 covered

/-! ## The second loop -/

/-- **The second loop takes out every `.` between two slashes.** -/
theorem dots_run {last : List Byte} : ∀ (n : Nat) {url : List Byte} {segs : List (List Byte)}
    (copies : List (List Byte)), segs.length ≤ n → Cut url segs last →
    ∃ s ∈ eval reduceStep ⟨.dots, url, copies⟩,
      s.url = joined (segs.take 1 ++ segs.tail.filter (· ≠ current)) last := by
  intro n
  induction n with
  | zero =>
    intro url segs copies few cut
    obtain rfl := List.length_eq_zero_iff.1 (Nat.le_zero.1 few)
    exact ⟨_, mem_eval.2 ⟨.refl, step_return _ cut (by simp)⟩, cut.joined⟩
  | succ n ih =>
    intro url segs copies few cut
    obtain absent | ⟨front, x, back, rfl, absent⟩ := first_interior current segs
    · refine ⟨_, mem_eval.2 ⟨.refl, step_return _ cut absent⟩, ?_⟩
      have all : segs.tail.filter (· ≠ current) = segs.tail := by
        apply List.filter_eq_self.2
        intro seg hseg
        have : seg ≠ current := fun e => absent (e ▸ hseg)
        simpa using this
      rw [all, ← List.drop_one, List.take_append_drop]
      exact cut.joined
    · have some_ : (front ++ x :: back).Sublist (front ++ x :: current :: back) :=
        ((List.sublist_cons_self current back).cons_cons x).append_left front
      have few' : (front ++ x :: back).length ≤ n := by
        simp only [List.length_append, List.length_cons] at few ⊢
        omega
      obtain ⟨s, ends, result⟩ := ih (copies ++ [47#8 :: joined back last]) few'
        (cut.sublist some_)
      refine ⟨s, ?_, ?_⟩
      · rw [reaches_eval (.single (step_current _ cut absent))]
        exact ends
      · rw [result]
        have gone : (x :: current :: back).filter (· ≠ current) = (x :: back).filter (· ≠ current) := by
          simp [List.filter_cons]
        cases front with
        | nil => simp
        | cons first front =>
          rw [List.cons_append, List.cons_append, List.tail_cons, List.tail_cons,
            List.filter_append, List.filter_append, gone]
          rfl

/-! ## The function -/

/-- The URL without its `.` segments between slashes, and without the segments that `..` segments
there take away. -/
def normal (url : List Byte) : List Byte :=
  joined ((segments url).take 1 ++ (kept dirRole (interior url)).filter (· ≠ current))
    (lastSegment url)

theorem kept_segments_sublist (url : List Byte) :
    ((segments url).take 1 ++ kept dirRole (segments url).tail).Sublist (segments url) := by
  have all := (kept_sublist dirRole (segments url).tail).append_left ((segments url).take 1)
  rwa [← List.drop_one (l := segments url), List.take_append_drop, List.drop_one] at all

/-- **Where the function comes to its end.** -/
theorem exists_reduced {url : List Byte} (covered : Covered dirRole (interior url)) :
    ∃ s ∈ reduced url, s.url = normal url := by
  have cut := cut_segments url
  obtain ⟨more, first⟩ := parents_run _ [] le_rfl cut covered
  obtain ⟨s, ends, result⟩ :=
    dots_run _ ([] ++ more) le_rfl (cut.sublist (kept_segments_sublist url))
  refine ⟨s, ?_, ?_⟩
  · rw [reduced, reaches_eval first]
    exact ends
  · rw [result, normal, interior]
    cases h : segments url <;> simp [kept]

/-- **It comes to its end exactly there.** -/
theorem reduced_dom (url : List Byte) :
    (∃ s, s ∈ reduced url) ↔ Covered dirRole (interior url) := by
  refine ⟨fun ⟨s, ends⟩ => ?_, fun covered => (exists_reduced covered).imp fun _ h => h.1⟩
  obtain ⟨run, stopped⟩ := mem_eval.1 ends
  refine covered_of_reaches run ?_ rfl
  cases here : s.loop with
  | dots => rfl
  | parents =>
    simp only [reduceStep, here] at stopped
    split at stopped
    · cases stopped
    · split at stopped <;> cases stopped

/-- **And then with this URL.** -/
theorem reduced_url {url : List Byte} {s : Reducing} (ends : s ∈ reduced url) :
    s.url = normal url := by
  obtain ⟨s', ends', result⟩ := exists_reduced ((reduced_dom url).1 ⟨s, ends⟩)
  rw [Part.mem_unique ends ends', result]

end SpiderFrame.Url
