import Mathlib.Algebra.Order.Group.Int
import Mathlib.Data.List.Basic

/-!
# Lists with opening and closing elements

An element of a list may open, close or do neither, and a closing one takes away the last open
one in front of it. When no closing one is without an open one in front of it, the list is
`Covered`; the opening ones that are never taken away are `kept`. Both are said by counting, and
`foldl_stackStep` gives the same for a stack.
-/

namespace SpiderFrame.Base

inductive Role where
  | opens
  | closes
  | neutral
  deriving DecidableEq

def Role.weight : Role → Int
  | opens => 1
  | closes => -1
  | neutral => 0

variable {α : Type*} (role : α → Role)

/-- How many elements open. -/
def openings (l : List α) : Nat := l.countP (role · = .opens)

/-- How many elements close. -/
def closings (l : List α) : Nat := l.countP (role · = .closes)

/-- No beginning of the list has more closing than opening elements. -/
def Covered (l : List α) : Prop := ∀ front, front <+: l → closings role front ≤ openings role front

/-- The lowest level on the way through a list that begins on the level 0. -/
def lowest : List α → Int
  | [] => 0
  | x :: l => min 0 ((role x).weight + lowest l)

theorem lowest_le : ∀ l : List α, lowest role l ≤ 0
  | [] => le_rfl
  | _ :: _ => min_le_left _ _

/-- The level behind a list that begins on the level 0. -/
def level (l : List α) : Int := openings role l - closings role l

theorem level_cons (x : α) (l : List α) : level role (x :: l) = (role x).weight + level role l := by
  unfold level closings openings
  rw [List.countP_cons, List.countP_cons]
  cases h : role x <;> simp [Role.weight] <;> omega

/-- From a level `n` on, no beginning of the list comes below 0. -/
theorem lowest_bound : ∀ (l : List α) (n : Int), 0 ≤ n →
    (0 ≤ n + lowest role l ↔ ∀ front, front <+: l → 0 ≤ n + level role front)
  | [], n, start => by simp [lowest, level, openings, closings, start]
  | x :: l, n, start => by
    have split : (∀ front, front <+: x :: l → 0 ≤ n + level role front) ↔
        ∀ front, front <+: l → 0 ≤ n + (role x).weight + level role front := by
      refine ⟨fun all front inside => ?_, fun all front inside => ?_⟩
      · have this := all (x :: front) ((List.prefix_cons_inj x).2 inside)
        rw [level_cons] at this
        omega
      · obtain rfl | ⟨rest, rfl, within⟩ := List.prefix_cons_iff.1 inside
        · simp [level, openings, closings, start]
        · have this := all rest within
          rw [level_cons]
          omega
    rw [split]
    by_cases below : 0 ≤ n + (role x).weight
    · rw [← lowest_bound l _ below]
      simp only [lowest]
      omega
    · have bad := lowest_le role l
      refine iff_of_false (by simp only [lowest]; omega) fun all => below ?_
      simpa [level, openings, closings] using all [] List.nil_prefix

theorem covered_iff {l : List α} : Covered role l ↔ lowest role l = 0 := by
  have bound := lowest_bound role l 0 le_rfl
  have le := lowest_le role l
  have counted : Covered role l ↔ ∀ front, front <+: l → 0 ≤ 0 + level role front := by
    apply forall₂_congr
    intro front _
    unfold level
    omega
  rw [counted, ← bound]
  omega

instance (l : List α) : Decidable (Covered role l) := decidable_of_iff' _ (covered_iff role)

/-- The opening elements that no closing one takes away. -/
def kept : List α → List α
  | [] => []
  | x :: l => if role x = .opens ∧ Covered role l then x :: kept l else kept l

theorem kept_sublist : ∀ l : List α, (kept role l).Sublist l
  | [] => List.nil_sublist _
  | x :: l => by
    unfold kept
    split
    · exact (kept_sublist l).cons_cons x
    · exact (kept_sublist l).cons x

theorem opens_of_mem_kept : ∀ {l : List α} {x : α}, x ∈ kept role l → role x = .opens
  | y :: l, x, h => by
    unfold kept at h
    split at h
    · obtain rfl | h := List.mem_cons.1 h
      · rename_i here
        exact here.1
      · exact opens_of_mem_kept h
    · exact opens_of_mem_kept h

/-- An opening element in front of a covered list. -/
theorem covered_cons {x : α} {l : List α} (opens : role x = .opens) (covered : Covered role l) :
    Covered role (x :: l) ∧ kept role (x :: l) = x :: kept role l := by
  refine ⟨(covered_iff role).2 ?_, by rw [kept, if_pos ⟨opens, covered⟩]⟩
  rw [covered_iff] at covered
  simp [lowest, opens, covered, Role.weight]

theorem kept_of_opens : ∀ {l : List α}, (∀ x ∈ l, role x = .opens) →
    kept role l = l ∧ Covered role l
  | [], _ => ⟨rfl, (covered_iff role).2 rfl⟩
  | x :: l, h => by
    have here := h x List.mem_cons_self
    obtain ⟨rest, low⟩ := kept_of_opens fun y hy => h y (List.mem_cons_of_mem _ hy)
    obtain ⟨low', all⟩ := covered_cons role here low
    exact ⟨by rw [all, rest], low'⟩

/-! ## A closing element behind an opening one -/

section Pair

variable {x y : α} {role}

theorem lowest_pair (opens : role x = .opens) (closes : role y = .closes) (l : List α) :
    lowest role (x :: y :: l) = lowest role l := by
  have le := lowest_le role l
  simp only [lowest, opens, closes, Role.weight]
  omega

theorem lowest_append_congr {l l' : List α} (h : lowest role l = lowest role l') :
    ∀ front : List α, lowest role (front ++ l) = lowest role (front ++ l')
  | [] => h
  | x :: front => by
    simp only [List.cons_append, lowest]
    rw [lowest_append_congr h front]

theorem covered_pair (opens : role x = .opens) (closes : role y = .closes) (front l : List α) :
    Covered role (front ++ x :: y :: l) ↔ Covered role (front ++ l) := by
  rw [covered_iff, covered_iff, lowest_append_congr (lowest_pair opens closes l) front]

theorem kept_pair (opens : role x = .opens) (closes : role y = .closes) (l : List α) :
    ∀ front : List α, kept role (front ++ x :: y :: l) = kept role (front ++ l)
  | [] => by
    have low := lowest_le role l
    have taken : ¬ Covered role (y :: l) := by
      rw [covered_iff]
      simp only [lowest, closes, Role.weight]
      omega
    have quiet : role y ≠ .opens := by simp [closes]
    rw [List.nil_append, List.nil_append, kept, if_neg fun h => taken h.2, kept,
      if_neg fun h => quiet h.1]
  | z :: front => by
    rw [List.cons_append, List.cons_append, kept, kept, kept_pair opens closes l front]
    exact if_congr (and_congr_right fun _ => covered_pair opens closes front l) rfl rfl

end Pair

/-- A closing element in front, and the list is not covered. -/
theorem not_covered_of_closes {x : α} (closes : role x = .closes) (l : List α) :
    ¬ Covered role (x :: l) := by
  have low := lowest_le role l
  rw [covered_iff]
  simp only [lowest, closes, Role.weight]
  omega

/-! ## The stack -/

/-- A closing element on an empty stack does nothing. -/
def stackStep (st : List α) (x : α) : List α :=
  match role x with
  | .opens => st ++ [x]
  | .closes => st.dropLast
  | .neutral => st

/-- **A stack loses what the list closes below its own level, and gets what the list keeps.** -/
theorem foldl_stackStep : ∀ (l st : List α), l.foldl (stackStep role) st =
    st.take (st.length + lowest role l).toNat ++ kept role l
  | [], st => by simp [lowest, kept]
  | x :: l, st => by
    have low := lowest_le role l
    rw [List.foldl_cons, foldl_stackStep l]
    cases here : role x with
    | neutral =>
      have same : lowest role (x :: l) = lowest role l := by simp [lowest, here, Role.weight, low]
      rw [stackStep, here, same, kept, if_neg (by simp [here])]
    | closes =>
      have below : lowest role (x :: l) = lowest role l - 1 := by
        simp only [lowest, here, Role.weight]
        omega
      have shorter : (st.dropLast.length + lowest role l).toNat ≤ st.length - 1 := by
        rw [List.length_dropLast]
        omega
      rw [stackStep, here, below, kept, if_neg (by simp [here])]
      simp only [List.dropLast_eq_take, List.take_take, List.length_take]
      congr 2
      omega
    | opens =>
      have pushed : stackStep role st x = st ++ [x] := by rw [stackStep, here]
      rw [pushed, List.length_append, List.length_singleton, kept]
      by_cases cov : Covered role l
      · have zero := (covered_iff role).1 cov
        have whole : lowest role (x :: l) = 0 := by simp [lowest, here, Role.weight, zero]
        rw [if_pos ⟨here, cov⟩, whole, zero, List.take_of_length_le (by simp),
          List.take_of_length_le (by simp), List.append_assoc, List.singleton_append]
      · have zero : lowest role l ≠ 0 := fun h => cov ((covered_iff role).2 h)
        have raised : lowest role (x :: l) = 1 + lowest role l := by
          simp only [lowest, here, Role.weight]
          omega
        rw [if_neg fun h => cov h.2, raised, List.take_append_of_le_length (by omega)]
        congr 3
        omega

/-- **An empty stack gets what the list keeps.** -/
theorem stack_eq_kept (l : List α) : l.foldl (stackStep role) [] = kept role l := by
  rw [foldl_stackStep]
  simp

/-! ## Two readings of one list -/

section Readings

variable {role} {role' : α → Role}

/-- The second reading takes some opening elements for neutral ones. -/
structure Coarser (role role' : α → Role) : Prop where
  opens : ∀ {x}, role' x = .opens → role x = .opens
  closes : ∀ {x}, role' x = .closes ↔ role x = .closes
  neutral : ∀ {x}, role x = .neutral → role' x = .neutral

theorem Coarser.lowest_le (h : Coarser role role') : ∀ l : List α, lowest role' l ≤ lowest role l
  | [] => le_rfl
  | x :: l => by
    have rest := h.lowest_le l
    have step : (role' x).weight ≤ (role x).weight := by
      cases here : role x with
      | opens => cases role' x <;> simp [Role.weight]
      | closes => simp [h.closes.2 here]
      | neutral => simp [h.neutral here]
    simp only [lowest]
    omega

theorem Coarser.covered (h : Coarser role role') {l : List α} (cov : Covered role' l) :
    Covered role l := by
  rw [covered_iff] at cov ⊢
  have le := h.lowest_le l
  have low := Base.lowest_le role l
  omega

/-- The elements that the second reading keeps are among those that the first one keeps. -/
theorem Coarser.kept_sublist (h : Coarser role role') : ∀ l : List α,
    (kept role' l).Sublist ((kept role l).filter (role' · = .opens))
  | [] => List.nil_sublist _
  | x :: l => by
    have rest := h.kept_sublist l
    rw [kept, kept]
    by_cases here : role' x = .opens ∧ Covered role' l
    · rw [if_pos here, if_pos ⟨h.opens here.1, h.covered here.2⟩,
        List.filter_cons_of_pos (by simpa using here.1)]
      exact rest.cons_cons x
    · rw [if_neg here]
      split
      · exact rest.trans ((List.sublist_cons_self x _).filter _)
      · exact rest

/-- **Both readings keep the same elements that open in the second when each of these that is not
taken away in the first is not taken away in the second.** -/
theorem Coarser.kept_eq_iff (h : Coarser role role') : ∀ l : List α,
    (kept role l).filter (role' · = .opens) = kept role' l ↔
      ∀ front x back, l = front ++ x :: back → role' x = .opens → Covered role back →
        Covered role' back
  | [] => by simp [kept]
  | x :: l => by
    have tail : (∀ front y back, x :: l = front ++ y :: back → role' y = .opens →
        Covered role back → Covered role' back) ↔
        (role' x = .opens → Covered role l → Covered role' l) ∧
        ∀ front y back, l = front ++ y :: back → role' y = .opens → Covered role back →
          Covered role' back := by
      refine ⟨fun all => ⟨all [] x l rfl, fun front y back e => all (x :: front) y back ?_⟩,
        fun ⟨first, all⟩ front y back e => ?_⟩
      · rw [e, List.cons_append]
      · cases front with
        | nil => cases e; exact first
        | cons z front => cases e; exact all front y back rfl
    rw [tail, ← h.kept_eq_iff l, kept, kept]
    have rest := h.kept_sublist l
    by_cases opens : role' x = .opens
    · by_cases cov : Covered role l
      · rw [if_pos ⟨h.opens opens, cov⟩, List.filter_cons_of_pos (by simpa using opens)]
        by_cases cov' : Covered role' l
        · rw [if_pos ⟨opens, cov'⟩]
          simp [cov']
        · rw [if_neg fun c => cov' c.2]
          refine iff_of_false (fun e => ?_) fun c => cov' (c.1 opens cov)
          have long := rest.length_le
          have short := congrArg List.length e
          rw [List.length_cons] at short
          omega
      · rw [if_neg fun c => cov c.2, if_neg fun c => cov (h.covered c.2)]
        simp [cov]
    · rw [if_neg fun c : role' x = .opens ∧ Covered role' l => opens c.1]
      split
      · rw [List.filter_cons_of_neg (by simpa using opens)]
        simp [opens]
      · simp [opens]

end Readings

end SpiderFrame.Base
