import SpiderFrame.Crawl.Move

/-!
# How far `line` passes `url_count`

`line` is counted under `file_mutex` and tested outside it. A spider is armed when it may
scan before it next tests the limits; it is armed only by a test that found `line` below
`url_count`. So `line` plus the number of armed spiders stays under one bound on every
path through the two loops (`counter_bounded`).
-/

namespace SpiderFrame.Crawl
open SpiderFrame.Base SpiderFrame.Queue

variable {sticky : Bool} {conf : Conf} {init : List Record} {skipline : Int} {levels : List Int}
  {c : World}

/-- No test of the limits stands before the next scan. -/
def armed (s : Spider) : Bool :=
  match s.pc with
  | .scan | .checkpoint | .save | .allEof _ => true
  | _ => false

/-- A move disarms a spider with a scan, arms none, or has seen `line` below the limit. -/
theorem move_armed {spiders : List Spider} {i : Nat} {sh sh' : Shared} {s s' : Spider} {act : Act}
    (m : Move conf init skipline spiders i sh s act sh' s') :
    (sh'.line = sh.line + 1 ∧ armed s = true ∧ armed s' = false) ∨
      (sh'.line = sh.line ∧ (armed s' = true → armed s = true)) ∨
      (sh'.line = sh.line ∧ sh.line < conf.urlCount) := by
  cases m with
  | scan at_ => exact .inl ⟨rfl, by simp [armed, at_], rfl⟩
  | limitPassed at_ passed =>
    refine .inr (.inr ⟨rfl, ?_⟩)
    simp only [limitReached, Bool.or_eq_false_iff, decide_eq_false_iff_not] at passed
    omega
  | outer at_ passed =>
    refine .inr (.inr ⟨rfl, ?_⟩)
    simp only [limitReached, Bool.or_eq_false_iff, decide_eq_false_iff_not] at passed
    omega
  | checkpoint at_ => exact .inr (.inl ⟨rfl, fun _ => by simp [armed, at_]⟩)
  | save at_ => exact .inr (.inl ⟨rfl, fun _ => by simp [armed, at_]⟩)
  | otherEof k other at_ => exact .inr (.inl ⟨rfl, fun _ => by simp [armed, at_]⟩)
  | otherBusy k other at_ => exact .inr (.inl ⟨rfl, fun _ => by simp [armed, at_]⟩)
  | _ => exact .inr (.inl ⟨rfl, by simp [armed]⟩)

/-- The bound with the spiders that can still scan counted in. -/
structure Counted (conf : Conf) (skipline : Int) (T : Nat) (c : World) : Prop where
  number : c.spiders.length = T
  bound : c.shared.line + c.spiders.countP armed ≤ max conf.urlCount (skipline + 1) + T - 1

theorem counted_start :
    Counted conf skipline levels.length (start sticky init skipline levels) := by
  obtain ⟨table, -, shared⟩ := start_shared sticky init skipline levels
  have count : (start sticky init skipline levels).spiders.countP armed = levels.length := by
    simp [start, List.countP_map, Function.comp_def, startSpider, armed]
  refine ⟨by simp [start], ?_⟩
  have first : (start sticky init skipline levels).shared.line = skipline := by rw [shared]
  have above := Int.le_max_right conf.urlCount (skipline + 1)
  rw [count, first]
  omega

theorem counted_move {T : Nat} {i : Nat} {sh' : Shared} {s s' : Spider} {act : Act}
    (h : Counted conf skipline T c) (here : c.spiders[i]? = some s)
    (m : Move conf init skipline c.spiders i c.shared s act sh' s') :
    Counted conf skipline T ⟨sh', c.spiders.set i s'⟩ := by
  obtain ⟨number, bound⟩ := h
  obtain ⟨inside, rfl⟩ := List.getElem?_eq_some_iff.1 here
  refine ⟨by simpa using number, ?_⟩
  have all : (c.spiders.set i s').countP armed ≤ T := by
    have same : (c.spiders.set i s').length = T := by rw [List.length_set, number]
    exact same ▸ List.countP_le_length
  have counted := List.countP_set (p := armed) (a := s') inside
  have below := Int.le_max_left conf.urlCount (skipline + 1)
  show sh'.line + ((c.spiders.set i s').countP armed : Nat) ≤ _
  rcases move_armed m with ⟨line, before, after⟩ | ⟨line, kept⟩ | ⟨line, passed⟩
  · have some_ : 0 < c.spiders.countP armed := List.countP_pos_iff.2 ⟨_, List.getElem_mem _, before⟩
    rw [before, after] at counted
    simp only [if_true, Bool.false_eq_true, if_false] at counted
    omega
  · have fewer : (c.spiders.set i s').countP armed ≤ c.spiders.countP armed := by
      rw [counted]
      by_cases after : armed s' = true
      · have before := kept after
        have some_ : 0 < c.spiders.countP armed :=
          List.countP_pos_iff.2 ⟨_, List.getElem_mem _, before⟩
        simp only [before, after, if_true]
        omega
      · rw [if_neg after]
        omega
    omega
  · omega

/-- **`line` passes `url_count` by less than the number of spiders.** -/
theorem counter_bounded (h : Reachable sticky conf init skipline levels c) :
    c.shared.line ≤ max conf.urlCount (skipline + 1) + levels.length - 1 := by
  have counted : Counted conf skipline levels.length c :=
    moves h counted_start fun _ _ _ _ _ _ _ inv _ here m => counted_move inv here m
  have := counted.bound
  omega

/-- Two spiders, `url_count` 1, and one scan of each. -/
def bothScan : Option World :=
  exec (step ⟨9, 1, false⟩)
    (start true [⟨0, .letter 0⟩, ⟨0, .letter 1⟩] 0 [0, 0])
    [(0, .tick), (1, .tick)]

theorem bothScan_runs : bothScan.isSome := by decide +kernel

/-- The bound is reached. -/
theorem counter_bounded_both : (bothScan.get bothScan_runs).shared.line = 2 ∧
    (bothScan.get bothScan_runs).shared.line ≤ max 1 (0 + 1) + 2 - 1 :=
  ⟨by decide +kernel, counter_bounded (exec_reach (Option.some_get bothScan_runs).symm)⟩

end SpiderFrame.Crawl
