import SpiderFrame.Crawl.DepthLimit

/-!
# How far the levels pass `url_level`

The limits are tested behind the page: a spider that scans a record deeper than `url_level` fetches
it, queues its links one level deeper, and leaves. So each spider scans one such record at the most,
and each of them lets the levels of `url.txt` grow by one (`depth_overshoot`).
-/

namespace SpiderFrame.Crawl
open SpiderFrame.Base SpiderFrame.Queue

variable {sticky : Bool} {conf : Conf} {init : List Record} {skipline : Int} {levels : List Int}
  {c : World}

instance (conf : Conf) (s : Spider) : Decidable (Deep conf s) :=
  inferInstanceAs (Decidable (s.record ≠ none ∧ conf.urlLevel < s.level))

/-- The number of spiders that have scanned a record beyond the limit. -/
def deepCount (conf : Conf) (spiders : List Spider) : Nat :=
  spiders.countP fun s => decide (Deep conf s)

/-- The levels of the records and of the spiders, and whose the deep scans are. -/
structure Sunk (conf : Conf) (init : List Record) (c : World) : Prop where
  records : ∀ r ∈ c.shared.records init, r.level ≤ conf.urlLevel + deepCount conf c.spiders + 1
  spiders : ∀ s ∈ c.spiders, s.record ≠ none → s.level ≤ conf.urlLevel + deepCount conf c.spiders
  owner : ∀ e ∈ c.shared.log.scanned, conf.urlLevel < e.level →
    ∃ s, c.spiders[e.spider]? = some s ∧ Deep conf s
  once : c.shared.log.scanned.Pairwise fun e e' =>
    e.spider = e'.spider → e.level ≤ conf.urlLevel

section Moves

variable {i : Nat} {sh' : Shared} {s s' : Spider} {act : Act}

/-- What a move does to levels: it scans a record, writes one, or leaves them as they are. -/
theorem move_levels (m : Move conf init skipline c.spiders i c.shared s act sh' s') :
    (∃ r rest, s.pc = .scan ∧ c.shared.unread init skipline = r :: rest ∧ s'.level = r.level ∧
        s'.record ≠ none ∧ sh'.records init = c.shared.records init ∧
        sh'.log.scanned = c.shared.log.scanned ++ [⟨i, r.level, r.url.str⟩]) ∨
      (s'.level = s.level ∧ s'.record = s.record ∧
        sh'.log.scanned = c.shared.log.scanned ∧
        (sh'.records init = c.shared.records init ∨
          holding s = true ∧ ∃ url, sh'.records init =
            c.shared.records init ++ [⟨s.level + 1, url⟩])) := by
  cases m with
  | scan at_ r rest next => exact .inl ⟨r, rest, at_, next, rfl, by simp, rfl, rfl⟩
  | write url todo at_ =>
    refine .inr ⟨rfl, rfl, rfl, .inr ⟨by simp [holding, at_], url, ?_⟩⟩
    exact records_append _ _ _
  | _ => exact .inr ⟨rfl, rfl, by simp, .inl (by simp [Shared.records])⟩

/-- A spider that becomes deep is one more. -/
theorem deepCount_set (here : c.spiders[i]? = some s) (before : ¬ Deep conf s) :
    deepCount conf (c.spiders.set i s') =
      deepCount conf c.spiders + if Deep conf s' then 1 else 0 := by
  obtain ⟨inside, rfl⟩ := List.getElem?_eq_some_iff.1 here
  unfold deepCount
  rw [List.countP_set inside, if_neg (by simpa using before)]
  simp

theorem deepCount_same (here : c.spiders[i]? = some s) (same : Deep conf s' ↔ Deep conf s) :
    deepCount conf (c.spiders.set i s') = deepCount conf c.spiders := by
  by_cases deep : Deep conf s
  · obtain ⟨inside, rfl⟩ := List.getElem?_eq_some_iff.1 here
    have some_ : 0 < c.spiders.countP fun s => decide (Deep conf s) :=
      List.countP_pos_iff.2 ⟨_, List.getElem_mem inside, by simpa using deep⟩
    unfold deepCount
    rw [List.countP_set inside, if_pos (by simpa using deep), if_pos (by simpa using same.2 deep)]
    omega
  · rw [deepCount_set here deep, if_neg (fun after => deep (same.1 after)), Nat.add_zero]

/-- The scan of a record: it may be one level deeper than the spiders so far. -/
theorem Sunk.scan (inv : Sunk conf init c) (here : c.spiders[i]? = some s)
    (before : ¬ Deep conf s) {r : Record} {url : CString} (member : r ∈ c.shared.records init)
    (level : s'.level = r.level) (record : s'.record ≠ none)
    (records : sh'.records init = c.shared.records init)
    (scanned : sh'.log.scanned = c.shared.log.scanned ++ [⟨i, r.level, url⟩]) :
    Sunk conf init ⟨sh', c.spiders.set i s'⟩ := by
  have count : deepCount conf (c.spiders.set i s') =
      deepCount conf c.spiders + if Deep conf s' then 1 else 0 := deepCount_set here before
  have known := inv.records r member
  refine ⟨fun r' hr' => ?_, fun t ht recorded => ?_, fun e he deep => ?_, ?_⟩
  · have old := inv.records r' (records ▸ hr')
    show r'.level ≤ conf.urlLevel + (deepCount conf (c.spiders.set i s') : Nat) + 1
    rw [count]
    omega
  · show t.level ≤ conf.urlLevel + (deepCount conf (c.spiders.set i s') : Nat)
    rw [count]
    rcases List.mem_or_eq_of_mem_set ht with old | rfl
    · have := inv.spiders t old recorded
      omega
    · by_cases deep : Deep conf t
      · rw [if_pos deep, level]
        omega
      · have within : ¬ conf.urlLevel < t.level := fun below => deep ⟨record, below⟩
        omega
  · rw [scanned, List.mem_append, List.mem_singleton] at he
    rcases he with old | rfl
    · obtain ⟨t, there, sunk⟩ := inv.owner e old deep
      have other : i ≠ e.spider := by
        rintro rfl
        rw [here, Option.some_inj] at there
        exact before (there ▸ sunk)
      exact ⟨t, by rw [List.getElem?_set_ne other]; exact there, sunk⟩
    · exact ⟨s', set_self here, record, level ▸ deep⟩
  · show sh'.log.scanned.Pairwise _
    rw [scanned, List.pairwise_append]
    refine ⟨inv.once, List.pairwise_singleton _ _, fun e he e' he' own => ?_⟩
    rw [List.mem_singleton] at he'
    subst he'
    by_contra deep
    obtain ⟨t, there, sunk⟩ := inv.owner e he (by omega)
    rw [own, here, Option.some_inj] at there
    exact before (there ▸ sunk)

/-- A move that is no scan leaves the deep spiders, and queues one level below its own. -/
theorem Sunk.keep (inv : Sunk conf init c) (here : c.spiders[i]? = some s)
    (level : s'.level = s.level) (record : s'.record = s.record)
    (scanned : sh'.log.scanned = c.shared.log.scanned)
    (records : ∀ r ∈ sh'.records init, r ∈ c.shared.records init ∨
      s.record ≠ none ∧ r.level = s.level + 1) :
    Sunk conf init ⟨sh', c.spiders.set i s'⟩ := by
  have same : Deep conf s' ↔ Deep conf s := by rw [Deep, Deep, level, record]
  have count := deepCount_same here same
  refine ⟨fun r hr => ?_, fun t ht recorded => ?_, fun e he deep => ?_, ?_⟩
  · show r.level ≤ conf.urlLevel + (deepCount conf (c.spiders.set i s') : Nat) + 1
    rw [count]
    rcases records r hr with old | ⟨recorded, own⟩
    · exact inv.records r old
    · have := inv.spiders s (List.mem_of_getElem? here) recorded
      omega
  · show t.level ≤ conf.urlLevel + (deepCount conf (c.spiders.set i s') : Nat)
    rw [count]
    rcases List.mem_or_eq_of_mem_set ht with old | rfl
    · exact inv.spiders t old recorded
    · rw [level]
      exact inv.spiders s (List.mem_of_getElem? here) (record ▸ recorded)
  · obtain ⟨t, there, sunk⟩ := inv.owner e (scanned ▸ he) deep
    by_cases own : i = e.spider
    · subst own
      rw [here, Option.some_inj] at there
      exact ⟨s', set_self here, same.2 (there ▸ sunk)⟩
    · exact ⟨t, by rw [List.getElem?_set_ne own]; exact there, sunk⟩
  · show sh'.log.scanned.Pairwise _
    rw [scanned]
    exact inv.once

theorem sunk_move (h : Reachable sticky conf init skipline levels c) (inv : Sunk conf init c)
    (here : c.spiders[i]? = some s)
    (m : Move conf init skipline c.spiders i c.shared s act sh' s') :
    Sunk conf init ⟨sh', c.spiders.set i s'⟩ := by
  rcases move_levels m with ⟨r, rest, at_, next, level, record, records, scanned⟩ |
    ⟨level, record, scanned, written⟩
  · have before : ¬ Deep conf s := fun deep => ((reach_depth h i s here).place deep).1 at_
    have member : r ∈ c.shared.records init := List.mem_of_getElem? (unread_cons next).1
    exact inv.scan here before member level record records scanned
  · refine inv.keep here level record scanned fun r hr => ?_
    rcases written with same | ⟨holds, url, grown⟩
    · exact .inl (same ▸ hr)
    · rw [grown, List.mem_append, List.mem_singleton] at hr
      rcases hr with old | rfl
      · exact .inl old
      · obtain ⟨n, hn⟩ := (reach_account h).known i s here holds
        exact .inr ⟨by simp [hn], rfl⟩

end Moves

theorem reach_sunk (within : ∀ r ∈ init, r.level ≤ conf.urlLevel)
    (h : Reachable sticky conf init skipline levels c) : Sunk conf init c := by
  refine moves (I := Sunk conf init) h ?_ fun c i act s sh' s' reached inv _ here m =>
    sunk_move reached inv here m
  obtain ⟨table, -, shared⟩ := start_shared sticky init skipline levels
  refine ⟨fun r hr => ?_, fun s hs recorded => ?_, fun e he => ?_, ?_⟩
  · rw [shared] at hr
    have := within r (by simpa [Shared.records] using hr)
    omega
  · obtain ⟨level, -, rfl⟩ := List.mem_map.1 hs
    exact absurd rfl recorded
  · rw [shared] at he
    cases he
  · rw [shared]
    exact .nil

/-- The number of spiders stays. -/
theorem reach_length (h : Reachable sticky conf init skipline levels c) :
    c.spiders.length = levels.length :=
  moves (I := fun c => c.spiders.length = levels.length) h (by simp [start])
    fun c i act s sh' s' _ inv _ _ _ => by simpa using inv

/-- **Each spider scans at most one record deeper than `url_level`, as its last; no page that is
fetched is deeper than `url_level` by more than the number of spiders, and no URL is queued more than
one level below that.** -/
theorem depth_overshoot (within : ∀ r ∈ init, r.level ≤ conf.urlLevel)
    (h : Reachable sticky conf init skipline levels c) :
    (c.shared.log.scanned.Pairwise fun e e' => e.spider = e'.spider → e.level ≤ conf.urlLevel) ∧
      (∀ s ∈ c.spiders, s.pc = .fetch → s.level ≤ conf.urlLevel + levels.length) ∧
      ∀ e ∈ c.shared.log.appended, e.2.level ≤ conf.urlLevel + levels.length + 1 := by
  have inv := reach_sunk within h
  have all : deepCount conf c.spiders ≤ levels.length := by
    rw [← reach_length h]
    exact List.countP_le_length
  refine ⟨inv.once, fun s hs at_ => ?_, fun e he => ?_⟩
  · obtain ⟨i, here⟩ := List.mem_iff_getElem?.1 hs
    obtain ⟨n, hn⟩ := (reach_account h).known i s here (by simp [holding, at_])
    have := inv.spiders s hs (by simp [hn])
    omega
  · have member : e.2 ∈ c.shared.records init :=
      List.mem_append_right _ (List.mem_map_of_mem he)
    have := inv.records e.2 member
    omega

/-- One spider and the limit 0: the first of two seeds has a link. -/
def overLimit : List (Nat × Act) :=
  [(0, .tick), (0, .pool true), (0, .tick), (0, .page true [.letter 2])] ++ ticks 0 7 ++
    [(0, .pool true), (0, .tick), (0, .page true [])] ++ ticks 0 5 ++ [(0, .pool true), (0, .tick)]

def overLimitWorld : Option World :=
  exec (step ⟨0, 9, false⟩) (start true twoSeeds 0 [0]) overLimit

theorem overLimitWorld_runs : overLimitWorld.isSome := by decide +kernel

/-- The bound is reached. -/
theorem depth_overshoot_one :
    (overLimitWorld.get overLimitWorld_runs).spiders.map (fun s => (s.pc, s.level)) =
        [(.fetch, 1)] ∧
      ∀ s ∈ (overLimitWorld.get overLimitWorld_runs).spiders, s.pc = .fetch → s.level ≤ 0 + 1 :=
  ⟨by decide +kernel, (depth_overshoot (by decide)
    (exec_reach (Option.some_get overLimitWorld_runs).symm)).2.1⟩

/-- A record deeper than `url_level` is fetched. -/
theorem fetches_beyond_limit : ¬ ∀ (conf : Conf) (init : List Record) (skipline : Int)
    (levels : List Int) (c : World), (∀ r ∈ init, r.level ≤ conf.urlLevel) →
      Reachable true conf init skipline levels c →
      (∀ s ∈ c.spiders, s.pc = .fetch → s.level ≤ conf.urlLevel) ∧
        ∀ e ∈ c.shared.log.appended, e.2.level ≤ conf.urlLevel + 1 := by
  intro claim
  have fetched := (claim ⟨0, 9, false⟩ twoSeeds 0 [0] _ (by decide)
    (exec_reach (Option.some_get overLimitWorld_runs).symm)).1
  revert fetched
  decide +kernel

end SpiderFrame.Crawl
