import Mathlib.Data.List.Infix
import SpiderFrame.Page.Links

/-!
# A URL cut at its slashes

The segments of a text, each with the slash behind it, and what stands behind the last slash. A
segment between two slashes is what `strstr` looks for in `redurceurl`, and the place it finds
is the first such segment (`strstr_first`).
-/

namespace SpiderFrame.Url
open SpiderFrame.Page

/-- Segments with a slash behind each of them, and a last one without. -/
def joined : List (List Byte) → List Byte → List Byte
  | [], last => last
  | seg :: segs, last => seg ++ 47#8 :: joined segs last

/-- The segments of a text and its last one. -/
structure Cut (text : List Byte) (segs : List (List Byte)) (last : List Byte) : Prop where
  joined : text = joined segs last
  segs : ∀ seg ∈ segs, 47#8 ∉ seg
  last : 47#8 ∉ last

theorem joined_append_last (segs : List (List Byte)) (last more : List Byte) :
    joined segs (last ++ more) = joined segs last ++ more := by
  induction segs with
  | nil => rfl
  | cons seg segs ih => simp [joined, ih]

theorem joined_append (front back : List (List Byte)) (last : List Byte) :
    joined (front ++ back) last = joined front (joined back last) := by
  induction front with
  | nil => rfl
  | cons seg front ih => simp [joined, ih]

theorem joined_eq_intercalate (segs : List (List Byte)) (last : List Byte) :
    joined segs last = [47#8].intercalate (segs ++ [last]) := by
  induction segs with
  | nil => rw [List.nil_append, List.intercalate_singleton, joined]
  | cons seg segs ih =>
    have more : segs ++ [last] ≠ [] := by simp
    rw [joined, ih, List.cons_append, List.intercalate_cons_of_ne_nil more, List.append_assoc,
      List.singleton_append]

/-! ## Cutting -/

def segments (text : List Byte) : List (List Byte) := (text.splitOn 47#8).dropLast

def lastSegment (text : List Byte) : List Byte :=
  (text.splitOn 47#8).getLast (List.splitOn_ne_nil _ _)

/-- The segments that stand between two slashes. -/
def interior (text : List Byte) : List (List Byte) := (segments text).tail

theorem cut_split {text : List Byte} {segs : List (List Byte)} {last : List Byte}
    (cut : Cut text segs last) : text.splitOn 47#8 = segs ++ [last] := by
  rw [cut.joined, joined_eq_intercalate, List.splitOn_intercalate _ ?_ (by simp)]
  intro seg hseg
  obtain hseg | hseg := List.mem_append.1 hseg
  · exact cut.segs seg hseg
  · rw [List.mem_singleton.1 hseg]
    exact cut.last

theorem Cut.segments_eq {text : List Byte} {segs : List (List Byte)} {last : List Byte}
    (cut : Cut text segs last) : segments text = segs ∧ lastSegment text = last := by
  unfold segments lastSegment
  simp [cut_split cut]

theorem exists_cut : ∀ text : List Byte, ∃ segs last, Cut text segs last
  | [] => ⟨[], [], rfl, by simp, by simp⟩
  | b :: text => by
    obtain ⟨segs, last, cut⟩ := exists_cut text
    have same := cut.joined
    by_cases slash : b = 47#8
    · refine ⟨[] :: segs, last, by rw [slash, same, joined, List.nil_append], ?_, cut.last⟩
      intro seg hseg
      obtain rfl | hseg := List.mem_cons.1 hseg
      · exact List.not_mem_nil
      · exact cut.segs seg hseg
    · have longer : ∀ seg, 47#8 ∉ seg → 47#8 ∉ b :: seg := by
        intro seg clean
        rw [List.mem_cons, not_or]
        exact ⟨fun e => slash e.symm, clean⟩
      cases segs with
      | nil => exact ⟨[], b :: last, by rw [same, joined, joined], by simp, longer _ cut.last⟩
      | cons seg segs =>
        refine ⟨(b :: seg) :: segs, last, by rw [same, joined, joined, List.cons_append], ?_,
          cut.last⟩
        intro seg' hseg
        obtain rfl | hseg := List.mem_cons.1 hseg
        · exact longer _ (cut.segs seg List.mem_cons_self)
        · exact cut.segs seg' (List.mem_cons_of_mem _ hseg)

theorem cut_segments (text : List Byte) : Cut text (segments text) (lastSegment text) := by
  obtain ⟨segs, last, cut⟩ := exists_cut text
  rw [cut.segments_eq.1, cut.segments_eq.2]
  exact cut

/-- Two texts with the same cut are the same. -/
theorem joined_inj {segs segs' : List (List Byte)} {last last' text : List Byte}
    (cut : Cut text segs last) (cut' : Cut text segs' last') : segs = segs' ∧ last = last' :=
  ⟨cut.segments_eq.1.symm.trans cut'.segments_eq.1, cut.segments_eq.2.symm.trans cut'.segments_eq.2⟩

/-- Some of the segments make a text again. -/
theorem Cut.sublist {text : List Byte} {segs segs' : List (List Byte)} {last : List Byte}
    (cut : Cut text segs last) (some_ : segs'.Sublist segs) : Cut (Url.joined segs' last) segs' last :=
  ⟨rfl, fun seg hseg => cut.segs seg (some_.subset hseg), cut.last⟩

/-! ## The first segment of a kind -/

/-- `/`, the segment and `/`. -/
def slashed (seg : List Byte) : List Byte := 47#8 :: (seg ++ [47#8])

theorem strstr_append (pat text : List Byte) {before : List Byte} {b : Byte} (absent : b ∉ before) :
    strstr (b :: pat) (before ++ text) =
      (strstr (b :: pat) text).map fun parts => (before ++ parts.1, parts.2) := by
  induction before with
  | nil => simp
  | cons c before ih =>
    rw [List.mem_cons, not_or] at absent
    have here : (b :: pat).isPrefixOf (c :: (before ++ text)) = false := by
      simp [List.isPrefixOf, absent.1]
    rw [List.cons_append, strstr, here, ih absent.2, Option.map_map]
    rfl

theorem prefix_slash {seg seg' rest : List Byte} (clean : 47#8 ∉ seg) (clean' : 47#8 ∉ seg') :
    (seg ++ [47#8]) <+: (seg' ++ 47#8 :: rest) ↔ seg = seg' := by
  induction seg generalizing seg' with
  | nil =>
    cases seg' with
    | nil => simp
    | cons c seg' =>
      rw [List.mem_cons, not_or] at clean'
      simp [clean'.1]
  | cons b seg ih =>
    rw [List.mem_cons, not_or] at clean
    cases seg' with
    | nil => simp [Ne.symm clean.1]
    | cons c seg' =>
      rw [List.mem_cons, not_or] at clean'
      simp only [List.cons_append, List.cons_prefix_cons, List.cons.injEq]
      exact and_congr_right fun _ => ih clean.2 clean'.2

section First

variable {dir : List Byte}

theorem slashed_isPrefixOf (clean : 47#8 ∉ dir) {seg rest : List Byte} (clean' : 47#8 ∉ seg) :
    (slashed dir).isPrefixOf (47#8 :: (seg ++ 47#8 :: rest)) = decide (dir = seg) := by
  rw [Bool.eq_iff_iff, List.isPrefixOf_iff_prefix, decide_eq_true_iff, slashed,
    List.cons_prefix_cons, prefix_slash clean clean']
  simp

theorem slashed_not_prefix {last : List Byte} (clean : 47#8 ∉ last) :
    (slashed dir).isPrefixOf (47#8 :: last) = false := by
  rw [Bool.eq_false_iff, ne_eq, List.isPrefixOf_iff_prefix, slashed, List.cons_prefix_cons]
  intro inside
  exact clean (inside.2.subset (by simp))

theorem strstr_last {last : List Byte} (clean : 47#8 ∉ last) : strstr (slashed dir) last = none := by
  have all := strstr_append (dir ++ [47#8]) [] clean
  rw [List.append_nil] at all
  exact all

/-- One segment on. -/
theorem strstr_next (clean : 47#8 ∉ dir) {seg next rest : List Byte} (here : 47#8 ∉ seg)
    (there : 47#8 ∉ next) : strstr (slashed dir) (seg ++ 47#8 :: (next ++ 47#8 :: rest)) =
      if dir = next then some (seg, rest)
      else (strstr (slashed dir) (next ++ 47#8 :: rest)).map
        fun parts => (seg ++ 47#8 :: parts.1, parts.2) := by
  have first := strstr_append (dir ++ [47#8]) (47#8 :: (next ++ 47#8 :: rest)) here
  rw [slashed, first, ← slashed, strstr, slashed_isPrefixOf clean there]
  split
  · rename_i same
    simp only [decide_eq_true_eq] at same
    subst same
    simp [slashed]
  · rename_i other
    simp only [decide_eq_true_eq] at other
    rw [if_neg other, Option.map_map]
    rfl

/-- **Without such a segment between two slashes `strstr` finds nothing.** -/
theorem strstr_none (clean : 47#8 ∉ dir) {text : List Byte} {segs : List (List Byte)}
    {last : List Byte} (cut : Cut text segs last) (absent : dir ∉ segs.tail) :
    strstr (slashed dir) text = none := by
  induction segs generalizing text with
  | nil =>
    rw [cut.joined]
    exact strstr_last cut.last
  | cons seg segs ih =>
    have here := cut.segs seg List.mem_cons_self
    cases segs with
    | nil =>
      have first := strstr_append (dir ++ [47#8]) (47#8 :: last) here
      rw [cut.joined, joined, joined, slashed, first, ← slashed, strstr,
        slashed_not_prefix cut.last, strstr_last cut.last]
      rfl
    | cons next segs =>
      have rest := cut.sublist (List.sublist_cons_self seg _)
      have there := cut.segs next (by simp)
      rw [List.tail_cons, List.mem_cons, not_or] at absent
      have none_ := ih rest absent.2
      rw [joined] at none_
      rw [cut.joined, joined, joined, strstr_next clean here there, if_neg absent.1, none_]
      rfl

/-- **`strstr` finds the first such segment.** -/
theorem strstr_first (clean : 47#8 ∉ dir) {text x last : List Byte}
    {front back : List (List Byte)} (cut : Cut text (front ++ x :: dir :: back) last)
    (absent : dir ∉ (front ++ [x]).tail) :
    strstr (slashed dir) text = some (joined front x, joined back last) := by
  induction front generalizing text with
  | nil =>
    have here := cut.segs x (by simp)
    have text_ : text = x ++ 47#8 :: (dir ++ 47#8 :: joined back last) := by
      rw [cut.joined, List.nil_append, joined, joined]
    rw [text_, strstr_next clean here clean, if_pos rfl, joined]
  | cons seg front ih =>
    have here := cut.segs seg (by simp)
    have rest : Cut (joined (front ++ x :: dir :: back) last) (front ++ x :: dir :: back) last :=
      cut.sublist (List.sublist_cons_self seg _)
    rw [List.cons_append, List.tail_cons] at absent
    have later := ih rest fun inside => absent (List.mem_of_mem_tail inside)
    obtain ⟨next, more, e⟩ : ∃ next more, front ++ [x] = next :: more :=
      List.exists_cons_of_ne_nil (by simp)
    have e' : front ++ x :: dir :: back = next :: (more ++ dir :: back) := by
      rw [← List.singleton_append, ← List.append_assoc, e, List.cons_append]
    have there := cut.segs next (by rw [List.cons_append, e']; simp)
    have other : dir ≠ next := by
      rintro rfl
      rw [e] at absent
      exact absent List.mem_cons_self
    rw [e', joined] at later
    rw [cut.joined, List.cons_append, e', joined, joined, strstr_next clean here there,
      if_neg other, later, joined]
    rfl

end First

/-- **What stands up to the last slash.** -/
theorem upToSlash_joined {front : List (List Byte)} {x : List Byte} (clean : 47#8 ∉ x) :
    upToSlash (joined front x) = if front = [] then none else some (joined front []) := by
  cases front using List.reverseRecOn with
  | nil => simp [upToSlash, joined, clean]
  | append_singleton front seg =>
    have text : joined (front ++ [seg]) x = joined front seg ++ 47#8 :: x := by
      rw [joined_append, ← joined_append_last]
      rfl
    have text' : joined (front ++ [seg]) [] = joined front seg ++ [47#8] := by
      rw [joined_append, ← joined_append_last]
      rfl
    have dropped : (x.reverse ++ 47#8 :: (joined front seg).reverse).dropWhile (· != 47#8) =
        47#8 :: (joined front seg).reverse := by
      rw [List.dropWhile_append_of_pos]
      · simp
      · intro b hb
        rw [List.mem_reverse] at hb
        have : b ≠ 47#8 := fun e => clean (e ▸ hb)
        simpa using this
    rw [text, text', if_neg (by simp), upToSlash, if_pos (by simp)]
    simp [dropped]

end SpiderFrame.Url
