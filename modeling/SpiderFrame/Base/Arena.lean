import Mathlib.Data.List.Pairwise

/-!
# Arenas

A region is a range of addresses. An arena is a list of spans, each of them taken from its start up to
a mark, and the regions that were carved out of the taken parts. Carving at the mark of a span, or a
new span, keeps the regions apart from each other (`Arena.raise`, `Arena.grow`).
-/

namespace SpiderFrame.Base

structure Region where
  start : Nat
  size : Nat
  deriving DecidableEq

namespace Region

variable {r r' s s' : Region}

def stop (r : Region) : Nat := r.start + r.size

/-- No address is in both. -/
def Apart (r s : Region) : Prop := r.stop ≤ s.start ∨ s.stop ≤ r.start

instance (r s : Region) : Decidable (r.Apart s) := inferInstanceAs (Decidable (_ ∨ _))

def Within (r s : Region) : Prop := s.start ≤ r.start ∧ r.stop ≤ s.stop

/-- The address is in the region. -/
def Holds (r : Region) (a : Nat) : Prop := r.start ≤ a ∧ a < r.stop

instance (r : Region) (a : Nat) : Decidable (r.Holds a) := inferInstanceAs (Decidable (_ ∧ _))

theorem Apart.symm (h : r.Apart s) : s.Apart r := Or.symm h

instance : Std.Symm Apart := ⟨fun _ _ h => h.symm⟩

theorem Within.trans (h : r.Within s) (h' : s.Within s') : r.Within s' :=
  ⟨Nat.le_trans h'.1 h.1, Nat.le_trans h.2 h'.2⟩

theorem Apart.within (h : r.Apart s) (hr : r'.Within r) (hs : s'.Within s) : r'.Apart s' := by
  obtain ⟨r₁, r₂⟩ := hr
  obtain ⟨s₁, s₂⟩ := hs
  rcases h with before | behind
  · exact .inl (by omega)
  · exact .inr (by omega)

/-- **Regions that are apart have no address in common.** -/
theorem Apart.no_common (h : r.Apart s) {a : Nat} (hr : r.Holds a) (hs : s.Holds a) : False := by
  unfold Holds at hr hs
  rcases h with before | behind <;> omega

/-- A region that is not empty does not begin where one apart from it begins. -/
theorem Apart.start_ne (h : r.Apart s) (pos : 0 < r.size) (pos' : 0 < s.size) :
    r.start ≠ s.start := by
  unfold Apart stop at h
  omega

end Region

/-- The addresses from `start` to `stop`, those before `mark` taken. -/
structure Span where
  start : Nat
  mark : Nat
  stop : Nat

/-- All of a span. -/
def Span.whole (s : Span) : Region := ⟨s.start, s.stop - s.start⟩

/-- The regions are apart, and each is in the taken part of a span; the spans are apart. -/
structure Arena (spans : List Span) (carved : List Region) : Prop where
  inside : ∀ s ∈ spans, s.start ≤ s.mark ∧ s.mark ≤ s.stop
  spansApart : (spans.map Span.whole).Pairwise Region.Apart
  placed : ∀ r ∈ carved, ∃ s ∈ spans, s.start ≤ r.start ∧ r.stop ≤ s.mark
  apart : carved.Pairwise Region.Apart

namespace Arena

variable {spans pre post : List Span} {s : Span} {carved carved' : List Region} {m size : Nat}

theorem nil : Arena [] [] :=
  ⟨List.forall_mem_nil _, .nil, List.forall_mem_nil _, .nil⟩

/-- Some of the regions, in any order. -/
theorem perm (h : Arena spans carved) (same : carved'.Perm carved) : Arena spans carved' where
  inside := h.inside
  spansApart := h.spansApart
  placed r member := h.placed r (same.subset member)
  apart := (same.pairwise_iff fun apart => apart.symm).2 h.apart

theorem sublist (h : Arena spans carved) (fewer : carved'.Sublist carved) :
    Arena spans carved' where
  inside := h.inside
  spansApart := h.spansApart
  placed r member := h.placed r (fewer.subset member)
  apart := h.apart.sublist fewer

/-- A carved region is part of its span. -/
theorem within (h : Arena spans carved) {r : Region} (member : r ∈ carved) :
    ∃ s ∈ spans, r.Within s.whole := by
  obtain ⟨s, inSpans, first, last⟩ := h.placed r member
  refine ⟨s, inSpans, first, ?_⟩
  have marks := h.inside s inSpans
  unfold Span.whole Region.stop at *
  dsimp only
  omega

/-- **The memory behind the mark of a span is apart from every region.** -/
theorem free_behind (h : Arena (pre ++ s :: post) carved) (above : s.mark ≤ m)
    (fits : m + size ≤ s.stop) {r : Region} (member : r ∈ carved) : Region.Apart ⟨m, size⟩ r := by
  have marks := h.inside s (by simp)
  have here : Region.Within ⟨m, size⟩ s.whole := by
    unfold Region.Within Span.whole Region.stop
    dsimp only
    omega
  obtain ⟨t, inSpans, first, last⟩ := h.placed r member
  have there : r.Within t.whole := by
    have marks' := h.inside t inSpans
    unfold Region.Within Span.whole Region.stop at *
    dsimp only
    omega
  have spansApart := h.spansApart
  rw [List.map_append, List.map_cons, List.pairwise_append, List.pairwise_cons] at spansApart
  obtain ⟨-, ⟨behind, -⟩, between⟩ := spansApart
  rcases List.mem_append.1 inSpans with inPre | inRest
  · have apart := between t.whole (List.mem_map_of_mem inPre) s.whole List.mem_cons_self
    exact apart.symm.within here there
  · rcases List.mem_cons.1 inRest with rfl | inPost
    · exact .inr (Nat.le_trans last above)
    · exact (behind t.whole (List.mem_map_of_mem inPost)).within here there

/-- **Carving behind the mark of a span.** -/
theorem raise (h : Arena (pre ++ s :: post) carved) (above : s.mark ≤ m)
    (fits : m + size ≤ s.stop) :
    Arena (pre ++ { s with mark := m + size } :: post) (⟨m, size⟩ :: carved) where
  inside t member := by
    have old := h.inside
    rw [List.mem_append, List.mem_cons] at member
    rcases member with inPre | rfl | inPost
    · exact old t (by simp [inPre])
    · have marks := old s (by simp)
      exact ⟨by dsimp only; omega, fits⟩
    · exact old t (by simp [inPost])
  spansApart := by
    have same : (pre ++ { s with mark := m + size } :: post).map Span.whole =
        (pre ++ s :: post).map Span.whole := by
      rw [List.map_append, List.map_append, List.map_cons, List.map_cons]
      rfl
    rw [same]
    exact h.spansApart
  placed r member := by
    have marks := h.inside s (by simp)
    rcases List.mem_cons.1 member with rfl | old
    · refine ⟨{ s with mark := m + size }, by simp, ?_, Nat.le_refl _⟩
      dsimp only
      omega
    · obtain ⟨t, inSpans, first, last⟩ := h.placed r old
      rw [List.mem_append, List.mem_cons] at inSpans
      rcases inSpans with inPre | rfl | inPost
      · exact ⟨t, by simp [inPre], first, last⟩
      · refine ⟨{ t with mark := m + size }, by simp, first, ?_⟩
        dsimp only
        omega
      · exact ⟨t, by simp [inPost], first, last⟩
  apart := List.pairwise_cons.2 ⟨fun r member => h.free_behind above fits member, h.apart⟩

/-- **A new span**, with regions that are apart in its taken part. -/
theorem grow (h : Arena spans carved) (new : Span) (first : List Region)
    (marks : new.start ≤ new.mark ∧ new.mark ≤ new.stop)
    (fresh : ∀ s ∈ spans, new.whole.Apart s.whole)
    (placed : ∀ r ∈ first, new.start ≤ r.start ∧ r.stop ≤ new.mark)
    (apart : first.Pairwise Region.Apart) : Arena (spans ++ [new]) (first ++ carved) where
  inside s member := by
    rcases List.mem_append.1 member with old | same
    · exact h.inside s old
    · rw [List.mem_singleton.1 same]
      exact marks
  spansApart := by
    rw [List.map_append, List.pairwise_append]
    refine ⟨h.spansApart, List.pairwise_singleton _ _, fun r old r' same => ?_⟩
    obtain ⟨s, member, rfl⟩ := List.mem_map.1 old
    rw [List.map_singleton, List.mem_singleton] at same
    rw [same]
    exact (fresh s member).symm
  placed r member := by
    rcases List.mem_append.1 member with inFirst | old
    · exact ⟨new, by simp, placed r inFirst⟩
    · obtain ⟨s, inSpans, here⟩ := h.placed r old
      exact ⟨s, List.mem_append_left _ inSpans, here⟩
  apart := by
    rw [List.pairwise_append]
    refine ⟨apart, h.apart, fun r inFirst r' old => ?_⟩
    obtain ⟨s, inSpans, there⟩ := h.within old
    refine (fresh s inSpans).within ?_ there
    have here := placed r inFirst
    unfold Region.Within Span.whole Region.stop at *
    dsimp only
    omega

/-- Other marks, above the regions that stay. -/
theorem remark (h : Arena spans carved) {spans' : List Span}
    (same : spans'.map Span.whole = spans.map Span.whole)
    (inside : ∀ s ∈ spans', s.start ≤ s.mark ∧ s.mark ≤ s.stop)
    (fewer : carved'.Sublist carved)
    (placed : ∀ r ∈ carved', ∃ s ∈ spans', s.start ≤ r.start ∧ r.stop ≤ s.mark) :
    Arena spans' carved' where
  inside := inside
  spansApart := same ▸ h.spansApart
  placed := placed
  apart := h.apart.sublist fewer

end Arena

end SpiderFrame.Base
