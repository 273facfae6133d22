import SpiderFrame.Crawl.Account

/-!
# Leaving at the depth limit

A spider that has scanned a record deeper than `url_level` finishes its page and leaves; it
never scans again. So nothing is scanned after the scan that makes the last spider deep,
and the records that stand after it, or that slower spiders still append, are lost unless
they are deeper than the limit. `Careful` is that condition on a step, and
`depth_limit_iff` says that a run loses no record within the limit exactly when its steps
are careful. `depth_limit_loses` is a run of two spiders that loses one.
-/

namespace SpiderFrame.Crawl
open SpiderFrame.Base SpiderFrame.Queue

variable {sticky : Bool} {conf : Conf} {init : List Record} {skipline : Int} {levels : List Int}
  {c : World}

/-- The spider has scanned, last a record beyond the limit. -/
def Deep (conf : Conf) (s : Spider) : Prop := s.record ≠ none ∧ conf.urlLevel < s.level

def AllDeep (conf : Conf) (c : World) : Prop :=
  ∀ (i : Nat) (s : Spider), c.spiders[i]? = some s → Deep conf s

/-- Every record within the limit that was not skipped has been processed. -/
def DepthComplete (conf : Conf) (init : List Record) (skipline : Int) (c : World) : Prop :=
  ∀ n r, skipped init skipline ≤ n → (c.shared.records init)[n]? = some r →
    r.level ≤ conf.urlLevel → (n - skipped init skipline, true) ∈ c.shared.log.ended

/-- The step gives up the record of the spider. -/
def GivesUp (conf : Conf) (s : Spider) (act : Act) : Prop :=
  (s.pc = .pool ∧ act = .pool false) ∨
    (s.pc = .fetch ∧ conf.urlFeedback = true ∧ ∃ links, act = .page false links)

/-- The step is not one that loses a record within the limit: when the last spider that is
not deep scans a deep record, only deep records stand after it, and a record given up is deep. -/
structure Careful (conf : Conf) (init : List Record) (skipline : Int) (c : World)
    (act : Nat × Act) : Prop where
  lastScan : ∀ s r rest, c.spiders[act.1]? = some s → s.pc = .scan →
    c.shared.reader.blocked = false → c.shared.unread init skipline = r :: rest → conf.urlLevel < r.level →
    (∀ (j : Nat) (t : Spider), c.spiders[j]? = some t → j ≠ act.1 → Deep conf t) →
    ∀ r' ∈ rest, conf.urlLevel < r'.level
  givenUp : ∀ s, c.spiders[act.1]? = some s → GivesUp conf s act.2 → conf.urlLevel < s.level

/-! ## Deep spiders -/

/-- Where a deep spider can be, and why a spider has left. -/
structure DepthInv (conf : Conf) (sh : Shared) (s : Spider) : Prop where
  place : Deep conf s → s.pc ≠ .scan ∧ s.pc ≠ .sawEof ∧ s.pc ≠ .checkpoint ∧ s.pc ≠ .save ∧
    (∀ k, s.pc ≠ .allEof k) ∧ s.pc ≠ .left false
  left : s.pc = .left true → limitReached conf s.level sh.line = true

section Moves

variable {spiders : List Spider} {i : Nat} {sh sh' : Shared} {s s' : Spider} {act : Act}

theorem limitReached_deep (deep : Deep conf s) (line : Int) :
    limitReached conf s.level line = true := by
  simp only [limitReached, Bool.or_eq_true, decide_eq_true_eq]
  exact .inl deep.2

theorem depthInv_move (h : DepthInv conf sh s)
    (m : Move conf init skipline spiders i sh s act sh' s') : DepthInv conf sh' s' := by
  cases m with
  | scan at_ => exact ⟨fun _ => by simp, by simp⟩
  | scanEof at_ => exact ⟨fun deep => absurd at_ (h.place deep).1, by simp⟩
  | limitPassed at_ passed =>
    refine ⟨fun deep => ?_, by simp⟩
    rw [limitReached_deep deep] at passed
    cases passed
  | checkpoint at_ =>
    refine ⟨fun deep => absurd at_ (h.place deep).2.2.1, ?_⟩
    cases sfDoCheckpoint sh.line <;> simp
  | save at_ => exact ⟨fun deep => absurd at_ (h.place deep).2.2.2.1, by simp⟩
  | leaveByLimit at_ reached => exact ⟨fun _ => by simp, fun _ => reached⟩
  | outer at_ passed =>
    refine ⟨fun deep => ?_, by simp⟩
    rw [limitReached_deep deep] at passed
    cases passed
  | leaveByEof k at_ => exact ⟨fun deep => absurd at_ ((h.place deep).2.2.2.2.1 k), by simp⟩
  | otherEof k other at_ => exact ⟨fun deep => absurd at_ ((h.place deep).2.2.2.2.1 k), by simp⟩
  | otherBusy k other at_ => exact ⟨fun deep => absurd at_ ((h.place deep).2.2.2.2.1 k), by simp⟩
  | _ => exact ⟨fun _ => by simp, by simp⟩

theorem DepthInv.frame (h : DepthInv conf sh s) (line : sh.line ≤ sh'.line) :
    DepthInv conf sh' s := by
  refine ⟨h.place, fun at_ => ?_⟩
  have reached := h.left at_
  simp only [limitReached, Bool.or_eq_true, decide_eq_true_eq] at reached ⊢
  omega

/-- Only a scan makes a spider deep. -/
theorem deep_of_move (m : Move conf init skipline spiders i sh s act sh' s') (not : s.pc ≠ .scan) :
    Deep conf s' ↔ Deep conf s := by
  cases m with
  | scan at_ => exact absurd at_ not
  | _ => exact Iff.rfl

end Moves

theorem reach_depth {C : World → Nat × Act → Prop}
    (h : Reach (step conf) C (start sticky init skipline levels) c) :
    ∀ (i : Nat) (s : Spider), c.spiders[i]? = some s → DepthInv conf c.shared s := by
  refine moves (I := fun c => ∀ (i : Nat) (s : Spider), c.spiders[i]? = some s →
    DepthInv conf c.shared s) h ?_ ?_
  · intro i s hs
    obtain ⟨level, -, rfl⟩ : ∃ level, levels[i]? = some level ∧ startSpider level = s := by
      simpa [start] using hs
    exact ⟨fun deep => absurd rfl deep.1, by simp [startSpider]⟩
  · intro c i act s sh' s' _ inv _ here m j t ht
    rcases getElem?_set_cases ht with ⟨rfl, rfl⟩ | ⟨-, ht⟩
    · exact depthInv_move (inv j s here) m
    · exact (inv j t ht).frame (move_line m)

section AllDeep

variable {i : Nat} {sh' : Shared} {s s' : Spider} {act : Act}

/-- The others of a world in which all are deep after the move. -/
theorem AllDeep.others (h : AllDeep conf ⟨sh', c.spiders.set i s'⟩) (j : Nat) (t : Spider)
    (ht : c.spiders[j]? = some t) (other : j ≠ i) : Deep conf t :=
  h j t (by rw [List.getElem?_set_ne (Ne.symm other)]; exact ht)

/-- A move that is no scan makes no spider deep. -/
theorem allDeep_move (here : c.spiders[i]? = some s)
    (m : Move conf init skipline c.spiders i c.shared s act sh' s') (not : s.pc ≠ .scan) :
    AllDeep conf ⟨sh', c.spiders.set i s'⟩ ↔ AllDeep conf c := by
  constructor
  · intro all j t ht
    by_cases own : j = i
    · subst own
      rw [here, Option.some_inj] at ht
      exact ht ▸ (deep_of_move m not).1 (all j s' (set_self here))
    · exact all.others j t ht own
  · intro all j t ht
    rcases getElem?_set_cases ht with ⟨rfl, rfl⟩ | ⟨-, ht⟩
    · exact (deep_of_move m not).2 (all j s here)
    · exact all j t ht

/-- No spider scans when all are deep. -/
theorem AllDeep.not_scan (all : AllDeep conf c)
    (h : Reachable sticky conf init skipline levels c) (here : c.spiders[i]? = some s) : s.pc ≠ .scan :=
  ((reach_depth h i s here).place (all i s here)).1

/-- A move that is no scan leaves the reader where it is. -/
theorem passed_of_move (m : Move conf init skipline c.spiders i c.shared s act sh' s')
    (not : s.pc ≠ .scan) : sh'.log.scanned = c.shared.log.scanned := by
  cases m with
  | scan at_ => exact absurd at_ not
  | _ => simp [Shared.append]

/-- What a move adds to the log of records that are done with. -/
theorem ended_of_move (m : Move conf init skipline c.spiders i c.shared s act sh' s') :
    sh'.log.ended = c.shared.log.ended ∨
      ∃ processed n, s.record = some n ∧ holding s = true ∧
        sh'.log.ended = c.shared.log.ended ++ [(n, processed)] ∧
        (processed = false → GivesUp conf s act) := by
  have fin : ∀ processed, (finish s processed c.shared.log).ended = c.shared.log.ended ∨
      ∃ n, s.record = some n ∧
        (finish s processed c.shared.log).ended = c.shared.log.ended ++ [(n, processed)] := by
    intro processed
    cases hn : s.record with
    | none => exact .inl (by rw [finish, hn])
    | some n => exact .inr ⟨n, rfl, by rw [finish, hn]⟩
  cases m with
  | poolFailed at_ =>
    rcases fin false with same | ⟨n, hn, grown⟩
    · exact .inl same
    · exact .inr ⟨false, n, hn, by simp [holding, at_], grown, fun _ => .inl ⟨at_, rfl⟩⟩
  | fetchFailed at_ links feedback =>
    rcases fin false with same | ⟨n, hn, grown⟩
    · exact .inl same
    · exact .inr ⟨false, n, hn, by simp [holding, at_], grown,
        fun _ => .inr ⟨at_, feedback, links, rfl⟩⟩
  | policies at_ =>
    rcases fin true with same | ⟨n, hn, grown⟩
    · exact .inl same
    · exact .inr ⟨true, n, hn, by simp [holding, at_], grown, fun no => by cases no⟩
  | _ => exact .inl rfl

end AllDeep

/-! ## Careful runs -/

/-- In a careful run no record within the limit is given up, or unread once all are deep. -/
structure Kept (conf : Conf) (init : List Record) (skipline : Int) (c : World) : Prop where
  unread : AllDeep conf c → ∀ r ∈ c.shared.unread init skipline, conf.urlLevel < r.level
  given : ∀ n e, (n, false) ∈ c.shared.log.ended → c.shared.log.scanned[n]? = some e →
    conf.urlLevel < e.level

section Kept

variable {i : Nat} {sh' : Shared} {s s' : Spider} {act : Act}

/-- A move that is no scan leaves the unread records, or writes one after them. -/
theorem unread_of_move (file : FileInv init skipline c.shared)
    (m : Move conf init skipline c.spiders i c.shared s act sh' s') (not : s.pc ≠ .scan) :
    sh'.unread init skipline = c.shared.unread init skipline ∨
      ∃ url, sh'.unread init skipline =
        c.shared.unread init skipline ++ [⟨s.level + 1, url⟩] := by
  have same : sh'.passed init skipline = c.shared.passed init skipline := by
    simp only [Shared.passed, passed_of_move m not]
  rcases move_appended m with none_ | ⟨url, todo, -, grown⟩
  · left
    simp only [Shared.unread, Shared.records, same, none_]
  · right
    have records : sh'.records init = c.shared.records init ++ [⟨s.level + 1, url⟩] := by
      simp [Shared.records, grown]
    exact ⟨url, by rw [Shared.unread, same, records, List.drop_append_of_le_length file.within]; rfl⟩

/-- The scans so far stay in the log. -/
theorem scanned_of_move (m : Move conf init skipline c.spiders i c.shared s act sh' s') {n : Nat}
    (before : n < c.shared.log.scanned.length) :
    sh'.log.scanned[n]? = c.shared.log.scanned[n]? := by
  cases m with
  | scan at_ => exact List.getElem?_append_left before
  | _ => simp [Shared.append]

/-- After a careful step only deep records are unread, if all spiders are deep. -/
theorem Kept.unread_move (kept : Kept conf init skipline c)
    (h : Reachable sticky conf init skipline levels c)
    (careful : Careful conf init skipline c (i, act)) (here : c.spiders[i]? = some s)
    (m : Move conf init skipline c.spiders i c.shared s act sh' s')
    (all : AllDeep conf ⟨sh', c.spiders.set i s'⟩) :
    ∀ r ∈ sh'.unread init skipline, conf.urlLevel < r.level := by
  by_cases scans : s.pc = .scan
  · cases m with
    | scan at_ r rest next open_ =>
      rw [unread_read, (unread_cons next).2]
      exact careful.lastScan s r rest here at_ open_ next (all i _ (set_self here)).2 all.others
    | scanEof at_ none_ =>
      -- a deep spider does not scan
      have deep : Deep conf { s with pc := .sawEof } := all i _ (set_self here)
      exact absurd at_ ((reach_depth h i s here).place deep).1
    | _ => simp_all
  · have before := (allDeep_move here m scans).1 all
    intro r hr
    rcases unread_of_move (reach_file h) m scans with same | ⟨url, grown⟩
    · exact kept.unread before r (same ▸ hr)
    · rcases List.mem_append.1 (grown ▸ hr) with old | new
      · exact kept.unread before r old
      · have deep := (before i s here).2
        rw [List.mem_singleton.1 new]
        show conf.urlLevel < s.level + 1
        omega

/-- After a careful step only deep records have been given up. -/
theorem Kept.given_move (kept : Kept conf init skipline c)
    (h : Reachable sticky conf init skipline levels c)
    (careful : Careful conf init skipline c (i, act)) (here : c.spiders[i]? = some s)
    (m : Move conf init skipline c.spiders i c.shared s act sh' s') {n : Nat} {e : Scan}
    (given : (n, false) ∈ sh'.log.ended) (he : sh'.log.scanned[n]? = some e) :
    conf.urlLevel < e.level := by
  have account := reach_account h
  have earlier : (n, false) ∈ c.shared.log.ended → conf.urlLevel < e.level := by
    intro old
    rw [scanned_of_move m (account.bound _ old)] at he
    exact kept.given n e old he
  rcases ended_of_move m with same | ⟨processed, k, hk, -, grown, gives⟩
  · exact earlier (same ▸ given)
  · rw [grown, List.mem_append, List.mem_singleton] at given
    rcases given with old | new
    · exact earlier old
    · obtain ⟨rfl, rfl⟩ : n = k ∧ false = processed := by simpa using new
      have last := account.last i s n here hk
      rw [scanned_of_move m (List.getElem?_eq_some_iff.1 last).1, last, Option.some_inj] at he
      rw [← he]
      exact careful.givenUp s here (gives rfl)

theorem kept_move (h : Reachable sticky conf init skipline levels c) (kept : Kept conf init skipline c)
    (careful : Careful conf init skipline c (i, act)) (here : c.spiders[i]? = some s)
    (m : Move conf init skipline c.spiders i c.shared s act sh' s') :
    Kept conf init skipline ⟨sh', c.spiders.set i s'⟩ :=
  ⟨kept.unread_move h careful here m, fun _ _ => kept.given_move h careful here m⟩

end Kept

/-- **A careful run that ends at the limit loses no record within it.** -/
theorem complete_of_kept (h : Reachable sticky conf init skipline levels c)
    (kept : Kept conf init skipline c)
    (left : ∀ s ∈ c.spiders, s.pc = .left true ∧ s.record ≠ none)
    (count : c.shared.line < conf.urlCount) : DepthComplete conf init skipline c := by
  have account := reach_account h
  have all : AllDeep conf c := by
    intro i s here
    obtain ⟨gone, scanned⟩ := left s (List.mem_of_getElem? here)
    have reached := (reach_depth h i s here).left gone
    refine ⟨scanned, ?_⟩
    simp only [limitReached, Bool.or_eq_true, decide_eq_true_eq] at reached
    omega
  intro n r after hr within
  by_cases past : n - skipped init skipline < c.shared.log.scanned.length
  · obtain ⟨e, he⟩ : ∃ e, c.shared.log.scanned[n - skipped init skipline]? = some e :=
      ⟨_, List.getElem?_eq_getElem past⟩
    obtain ⟨r', hr', level, -⟩ := (reach_file h).scanned _ e he
    rw [Nat.add_sub_cancel' after, hr, Option.some_inj] at hr'
    rcases account.total _ past with done | ⟨i, s, here, holds, -⟩
    · obtain ⟨⟨k, processed⟩, hk, rfl⟩ := List.mem_map.1 done
      cases processed with
      | true => exact hk
      | false =>
        have deep := kept.given _ e hk he
        rw [level, ← hr'] at deep
        omega
    · have gone := (left s (List.mem_of_getElem? here)).1
      simp [holding, gone] at holds
  · have unread : r ∈ c.shared.unread init skipline := by
      refine List.mem_of_getElem? (i := n - c.shared.passed init skipline) ?_
      unfold Shared.unread Shared.passed
      rw [List.getElem?_drop, ← hr]
      congr 1
      omega
    have deep := kept.unread all r unread
    omega

/-! ## Careless steps -/

/-- A record within the limit is given up, or unread when all spiders are deep. -/
def Lost (conf : Conf) (init : List Record) (skipline : Int) (c : World) : Prop :=
  ∃ n r, skipped init skipline ≤ n ∧ (c.shared.records init)[n]? = some r ∧
    r.level ≤ conf.urlLevel ∧ ((n - skipped init skipline, false) ∈ c.shared.log.ended ∨
      (AllDeep conf c ∧ c.shared.passed init skipline ≤ n))

/-- The records of the file stay where they are. -/
theorem records_move {i : Nat} {sh' : Shared} {s s' : Spider} {act : Act}
    (m : Move conf init skipline c.spiders i c.shared s act sh' s') {n : Nat} {r : Record}
    (hr : (c.shared.records init)[n]? = some r) : (sh'.records init)[n]? = some r := by
  rcases move_appended m with same | ⟨url, todo, -, grown⟩
  · simpa only [Shared.records, same] using hr
  · have records : sh'.records init = c.shared.records init ++ [⟨s.level + 1, url⟩] := by
      simp [Shared.records, grown]
    rw [records, List.getElem?_append_left (List.getElem?_eq_some_iff.1 hr).1]
    exact hr

/-- What is lost stays lost. -/
theorem lost_move {i : Nat} {sh' : Shared} {s s' : Spider} {act : Act}
    (h : Reachable sticky conf init skipline levels c) (lost : Lost conf init skipline c)
    (here : c.spiders[i]? = some s)
    (m : Move conf init skipline c.spiders i c.shared s act sh' s') :
    Lost conf init skipline ⟨sh', c.spiders.set i s'⟩ := by
  obtain ⟨n, r, after, hr, within, given | ⟨all, unread⟩⟩ := lost
  · refine ⟨n, r, after, records_move m hr, within, .inl ?_⟩
    rcases ended_of_move m with same | ⟨processed, k, -, -, grown, -⟩
    · exact same ▸ given
    · rw [show sh'.log.ended = _ from grown]
      exact List.mem_append_left _ given
  · have not := all.not_scan h here
    refine ⟨n, r, after, records_move m hr, within, .inr ⟨(allDeep_move here m not).2 all, ?_⟩⟩
    simpa only [Shared.passed, passed_of_move m not] using unread

section Careless

variable {i : Nat} {sh' : Shared} {s s' : Spider} {act : Act}

/-- A record within the limit is unread when the last spider scans a deep one. -/
theorem lost_of_scan (here : c.spiders[i]? = some s)
    (m : Move conf init skipline c.spiders i c.shared s act sh' s') (at_ : s.pc = .scan)
    {r : Record} {rest : List Record} (open_ : c.shared.reader.blocked = false)
    (next : c.shared.unread init skipline = r :: rest) (deep : conf.urlLevel < r.level)
    (others : ∀ (j : Nat) (t : Spider), c.spiders[j]? = some t → j ≠ i → Deep conf t)
    {r' : Record} (later : r' ∈ rest) (within : r'.level ≤ conf.urlLevel) :
    Lost conf init skipline ⟨sh', c.spiders.set i s'⟩ := by
  cases m with
  | scan _ r₁ rest₁ next₁ =>
    rw [next, List.cons.injEq] at next₁
    obtain ⟨rfl, rfl⟩ := next₁
    obtain ⟨k, hk⟩ := List.mem_iff_getElem?.1 later
    rw [← (unread_cons next).2, List.getElem?_drop] at hk
    refine ⟨_, r', ?_, hk, within, .inr ⟨?_, ?_⟩⟩
    · unfold Shared.passed
      omega
    · intro j t ht
      rcases getElem?_set_cases ht with ⟨rfl, rfl⟩ | ⟨other, ht⟩
      · exact ⟨by simp, deep⟩
      · exact others j t ht other
    · rw [passed_read]
      omega
  | scanEof _ none_ =>
    simp [open_, next] at none_
  | _ => simp_all

/-- A record within the limit is given up. -/
theorem lost_of_give_up (h : Reachable sticky conf init skipline levels c) (here : c.spiders[i]? = some s)
    (m : Move conf init skipline c.spiders i c.shared s act sh' s') (gives : GivesUp conf s act)
    (within : s.level ≤ conf.urlLevel) : Lost conf init skipline ⟨sh', c.spiders.set i s'⟩ := by
  have account := reach_account h
  have holds : holding s = true := by
    rcases gives with ⟨at_, -⟩ | ⟨at_, -⟩ <;> simp [holding, at_]
  obtain ⟨n, hn⟩ := account.known _ s here holds
  obtain ⟨r, hr, level, -⟩ := (reach_file h).scanned n _ (account.last _ s n here hn)
  have ended : sh'.log.ended = c.shared.log.ended ++ [(n, false)] := by
    cases m with
    | poolFailed at_ => simp [finish, hn]
    | fetchFailed at_ => simp [finish, hn]
    | _ => simp_all [GivesUp]
  refine ⟨_, r, Nat.le_add_right _ n, records_move m hr, ?_, .inl ?_⟩
  · have : s.level = r.level := level
    omega
  · rw [Nat.add_sub_cancel_left]
    exact ended ▸ List.mem_append_right _ (List.mem_singleton.2 rfl)

/-- A careless step loses a record. -/
theorem lost_of_careless {act : Nat × Act} {c' : World} (h : Reachable sticky conf init skipline levels c)
    (careless : ¬ Careful conf init skipline c act) (taken : step conf c act = some c') :
    Lost conf init skipline c' := by
  obtain ⟨i, act⟩ := act
  obtain ⟨s, sh', s', here, m, rfl⟩ := step_cases (reach_file h) taken
  by_contra kept
  apply careless
  constructor
  · intro t r rest ht at_ open_ next deep others r' hr'
    obtain rfl : s = t := Option.some.inj (here.symm.trans ht)
    by_contra shallow
    exact kept (lost_of_scan here m at_ open_ next deep others hr' (by omega))
  · intro t ht gives
    obtain rfl : s = t := Option.some.inj (here.symm.trans ht)
    by_contra shallow
    exact kept (lost_of_give_up h here m gives (by omega))

end Careless

/-- **A run whose spiders all leave because of the depth of what they scanned has processed
every record within the limit if and only if its steps were careful.** -/
theorem depth_limit_iff {acts : List (Nat × Act)} (some_ : levels ≠ [])
    (run : exec (step conf) (start sticky init skipline levels) acts = some c)
    (left : ∀ s ∈ c.spiders, s.pc = .left true ∧ s.record ≠ none)
    (count : c.shared.line < conf.urlCount) :
    DepthComplete conf init skipline c ↔
      Along (step conf) (Careful conf init skipline) (start sticky init skipline levels) acts := by
  constructor
  · intro complete
    by_contra careless
    obtain ⟨m, act, m', before, bad, taken, after⟩ := exists_not_along careless run
    have lost : Reachable sticky conf init skipline levels c ∧ Lost conf init skipline c := by
      have reached : Reachable sticky conf init skipline levels m' := .next before trivial taken
      refine after.invariant (I := fun c => Reachable sticky conf init skipline levels c ∧
        Lost conf init skipline c) ⟨reached, lost_of_careless before bad taken⟩ ?_
      rintro c₁ act₁ c₂ - ⟨reached₁, lost₁⟩ - taken₁
      obtain ⟨s, sh', s', here, m₁, rfl⟩ := step_cases (reach_file reached₁) taken₁
      exact ⟨.next reached₁ trivial taken₁, lost_move reached₁ lost₁ here m₁⟩
    obtain ⟨n, r, past, hr, within, given | ⟨-, unread⟩⟩ := lost.2
    · exact (reach_account lost.1).not_both given (complete n r past hr within)
    · have scanned := (reach_account lost.1).bound _ (complete n r past hr within)
      unfold Shared.passed at unread
      simp only at scanned
      omega
  · intro careful
    have reached := exec_reach run
    refine complete_of_kept reached ?_ left count
    refine moves (I := Kept conf init skipline) (careful.reach run) ?_
      fun c₁ i act s sh' s' reached₁ kept allowed here m => kept_move reached₁.any kept allowed here m
    obtain ⟨table, -, shared⟩ := start_shared sticky init skipline levels
    refine ⟨fun all => ?_, by simp [shared]⟩
    have first : (start sticky init skipline levels).spiders[0]? =
        some (startSpider (levels.head some_)) := by
      rw [start, List.getElem?_map, ← List.head?_eq_getElem?, List.head?_eq_some_head some_]
      rfl
    exact absurd rfl (all 0 _ first).1

/-! ## A careless run -/

/-- The first spider goes down two levels and leaves; the second, which has scanned the other seed
behind the links of the first page, then writes a record of level 1, scans the last deep record
and leaves too. -/
def deepActs : List (Nat × Act) :=
  ticks 0 1 ++ [(0, .pool true), (0, .tick), (0, .page true [.letter 2, .letter 6])] ++ ticks 0 4 ++
    ticks 1 1 ++ ticks 0 5 ++
    [(0, .pool true), (0, .tick), (0, .page true [.letter 3, .letter 4])] ++ ticks 0 9 ++
    [(0, .pool true), (0, .tick), (0, .page true [])] ++ ticks 0 5 ++
    [(0, .pool true), (0, .tick), (0, .page true [])] ++ ticks 0 5 ++
    [(1, .pool true), (1, .tick), (1, .page true [.letter 5])] ++ ticks 1 7 ++
    [(1, .pool true), (1, .tick), (1, .page true [])] ++ ticks 1 5

def twoSeeds : List Record :=
  [⟨0, .letter 0⟩, ⟨0, .letter 1⟩]

def deepRun : Option World := exec (step ⟨1, 99, false⟩) (start true twoSeeds 0 [0, 0]) deepActs

theorem deepRun_runs : deepRun.isSome := by decide +kernel

theorem deepRun_left : ∀ s ∈ (deepRun.get deepRun_runs).spiders,
    s.pc = .left true ∧ s.record ≠ none := by decide +kernel

/-- The record that the second spider wrote late is never processed. -/
theorem deepRun_incomplete : ¬ DepthComplete ⟨1, 99, false⟩ twoSeeds 0 (deepRun.get deepRun_runs) :=
  fun complete => absurd
    (complete 6 ⟨1, .letter 5⟩ (by decide) (by decide +kernel) (by decide))
    (by decide +kernel)

/-- A step of that run is careless. -/
theorem depth_limit_iff_careless : ¬ Along (step ⟨1, 99, false⟩) (Careful ⟨1, 99, false⟩ twoSeeds 0)
    (start true twoSeeds 0 [0, 0]) deepActs :=
  fun careful => deepRun_incomplete ((depth_limit_iff (by decide)
    (Option.some_get deepRun_runs).symm deepRun_left (by decide +kernel)).2 careful)

/-- Two spiders that leave because of the depth limit leave a record within it behind. -/
theorem depth_limit_loses : ¬ ∀ (conf : Conf) (init : List Record) (skipline : Int)
    (levels : List Int) (acts : List (Nat × Act)) (c : World), levels ≠ [] →
    exec (step conf) (start true init skipline levels) acts = some c →
    (∀ s ∈ c.spiders, s.pc = .left true ∧ s.record ≠ none) → c.shared.line < conf.urlCount →
    DepthComplete conf init skipline c :=
  fun claim => deepRun_incomplete (claim ⟨1, 99, false⟩ twoSeeds 0 [0, 0] deepActs _ (by decide)
    (Option.some_get deepRun_runs).symm deepRun_left (by decide +kernel))

end SpiderFrame.Crawl
