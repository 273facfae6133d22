import SpiderFrame.Crawl.Move

/-!
# Leaving through `sf_all_spiders_eof`

A spider raises its `eof` flag when it has seen the end of the file or reached a limit, and
clears it when it starts on a page. A raised flag of a spider that is not stopping at a
limit means that the indicator of the stream is set, and, unless it is sticky, that all records
of the start and all records this spider has written have been passed by (`Settled`): it has
written nothing since it last saw the end. So when the indicator is not sticky and all spiders
have left through `sf_all_spiders_eof`, every record has been passed by (`every_record_scanned`).
-/

namespace SpiderFrame.Crawl
open SpiderFrame.Base SpiderFrame.Queue

variable {sticky : Bool} {conf : Conf} {init : List Record} {skipline : Int} {levels : List Int}
  {c : World}

/-- The records of the start and those that the spider `i` has written are passed by. -/
structure Settled (init : List Record) (skipline : Int) (sh : Shared) (i : Nat) : Prop where
  loaded : init.length ≤ sh.passed init skipline
  own : ∀ n r, sh.log.appended[n]? = some (i, r) → init.length + n < sh.passed init skipline

/-- The spider `i` has seen the end of the file. -/
structure SeenEnd (init : List Record) (skipline : Int) (sh : Shared) (i : Nat) : Prop where
  eof : sh.reader.eof = true
  settled : sh.reader.sticky = false → Settled init skipline sh i

/-- The spider leaves at its next test of the limits, or has left so. -/
def Stopping (conf : Conf) (sh : Shared) (s : Spider) : Prop :=
  s.pc = .left true ∨ (s.pc = .outer ∧ limitReached conf s.level sh.line = true)

/-- The spider works on a page. -/
def onPage (s : Spider) : Bool :=
  match s.pc with
  | .fetch | .links _ | .write _ _ | .policies | .limit | .setEof | .checkpoint | .save => true
  | _ => false

/-- What the flag and the place of the spider `i` say. -/
structure EofInv (conf : Conf) (init : List Record) (skipline : Int) (sh : Shared) (i : Nat)
    (s : Spider) : Prop where
  raised : s.eof = true ∨ s.pc = .sawEof → Stopping conf sh s ∨ SeenEnd init skipline sh i
  lowered : onPage s = true → s.eof = false
  atLimit : s.pc = .setEof → limitReached conf s.level sh.line = true
  tested : ∀ k, s.pc = .allEof k → i < k → s.eof = true
  gone : s.pc = .left false → s.eof = true

section Frame

variable {spiders : List Spider} {i j : Nat} {sh sh' : Shared} {s s' t : Spider} {act : Act}

theorem limitReached_mono {level line line' : Int} (le : line ≤ line')
    (h : limitReached conf level line = true) : limitReached conf level line' = true := by
  simp only [limitReached, Bool.or_eq_true, decide_eq_true_eq] at h ⊢
  omega

/-- Moves that write nothing of the spider `j` keep it settled. -/
theorem Settled.move (h : Settled init skipline sh j)
    (m : Move conf init skipline spiders i sh s act sh' s')
    (notOwn : j ≠ i ∨ ∀ url todo, s.pc ≠ .write url todo) : Settled init skipline sh' j := by
  refine ⟨Nat.le_trans h.loaded (move_passed m), fun n r hn => ?_⟩
  refine Nat.lt_of_lt_of_le (h.own n r ?_) (move_passed m)
  rcases move_appended m with same | ⟨url, todo, at_, grown⟩
  · rwa [same] at hn
  · rcases notOwn with other | idle
    · rw [grown, List.getElem?_append] at hn
      split at hn
      · exact hn
      · have last := List.mem_of_getElem? hn
        rw [List.mem_singleton, Prod.mk.injEq] at last
        exact absurd last.1 other
    · exact absurd at_ (idle url todo)

theorem SeenEnd.move (h : SeenEnd init skipline sh j)
    (m : Move conf init skipline spiders i sh s act sh' s')
    (notOwn : j ≠ i ∨ ∀ url todo, s.pc ≠ .write url todo) : SeenEnd init skipline sh' j :=
  ⟨move_eof m h.eof, fun free => (h.settled ((move_sticky m).symm.trans free)).move m notOwn⟩

/-- The end of the file settles every spider. -/
theorem settled_at_end (none_ : sh.unread init skipline = []) (i : Nat) :
    Settled init skipline sh i := by
  have all : (sh.records init).length ≤ sh.passed init skipline := List.drop_eq_nil_iff.1 none_
  rw [Shared.records, List.length_append, List.length_map] at all
  refine ⟨by omega, fun n r hn => ?_⟩
  have := (List.getElem?_eq_some_iff.1 hn).1
  omega

/-- A scan that finds nothing has seen the end. -/
theorem seenEnd_of_scan (none_ : sh.reader.blocked = true ∨ sh.unread init skipline = []) (i : Nat) :
    SeenEnd init skipline sh.eofSeen i := by
  refine ⟨rfl, fun free => ?_⟩
  have open_ : sh.reader.blocked = false := by
    rw [Reader.blocked, show sh.reader.sticky = false from free]
    rfl
  rw [open_] at none_
  obtain ⟨loaded, own⟩ := settled_at_end (none_.resolve_left Bool.false_ne_true) i
  exact ⟨loaded, own⟩

/-- What one spider says outlasts the moves of the others. -/
theorem EofInv.frame (h : EofInv conf init skipline sh j t) (other : j ≠ i)
    (m : Move conf init skipline spiders i sh s act sh' s') : EofInv conf init skipline sh' j t := by
  refine ⟨fun up => ?_, h.lowered, fun at_ => ?_, h.tested, h.gone⟩
  · rcases h.raised up with (gone | ⟨at_, reached⟩) | seen
    · exact .inl (.inl gone)
    · exact .inl (.inr ⟨at_, limitReached_mono (move_line m) reached⟩)
    · exact .inr (seen.move m (.inl other))
  · exact limitReached_mono (move_line m) (h.atLimit at_)

/-- A raised flag of a spider that neither stops nor writes stays good through its move. -/
theorem EofInv.seen (h : EofInv conf init skipline sh i s)
    (m : Move conf init skipline spiders i sh s act sh' s') (going : ¬ Stopping conf sh s)
    (idle : ∀ url todo, s.pc ≠ .write url todo) (up : s.eof = true ∨ s.pc = .sawEof) :
    SeenEnd init skipline sh' i :=
  ((h.raised up).resolve_left going).move m (.inr idle)

/-- A spider with its flag down, at none of the places that the invariant speaks of. -/
theorem EofInv.ofLow (low : t.eof = false) (plain : t.pc ≠ .sawEof ∧ t.pc ≠ .setEof ∧
    (∀ k, t.pc ≠ .allEof k) ∧ t.pc ≠ .left false) : EofInv conf init skipline sh j t := by
  obtain ⟨notSaw, notSet, notTest, notLeft⟩ := plain
  refine ⟨fun up => ?_, fun _ => low, fun at_ => absurd at_ notSet, fun k at_ => absurd at_ (notTest k),
    fun at_ => absurd at_ notLeft⟩
  rcases up with up | at_
  · rw [low] at up
    cases up
  · exact absurd at_ notSaw

/-- A spider between two pages that has seen the end if its flag is up. -/
theorem EofInv.ofSeen (seen : t.eof = true ∨ t.pc = .sawEof → SeenEnd init skipline sh j)
    (off : onPage t = false) (tested : ∀ k, t.pc = .allEof k → j < k → t.eof = true)
    (gone : t.pc = .left false → t.eof = true) : EofInv conf init skipline sh j t := by
  refine ⟨fun up => .inr (seen up), fun on => ?_, fun at_ => ?_, tested, gone⟩
  · rw [off] at on
    cases on
  · simp [onPage, at_] at off

/-- A move that leaves the flag as it is, from a place between two pages to another. -/
theorem EofInv.carry (h : EofInv conf init skipline sh i s)
    (m : Move conf init skipline spiders i sh s act sh' s')
    (going : ¬ Stopping conf sh s ∧ ∀ url todo, s.pc ≠ .write url todo)
    (same : s'.eof = s.eof) (plain : s'.pc ≠ .sawEof ∧ onPage s' = false)
    (tested : ∀ k, s'.pc = .allEof k → i < k → s.eof = true)
    (gone : s'.pc = .left false → s.eof = true) : EofInv conf init skipline sh' i s' := by
  refine .ofSeen (fun up => ?_) plain.2 (fun k at_ below => ?_) (fun at_ => ?_)
  · rcases up with up | at_
    · exact h.seen m going.1 going.2 (.inl (same ▸ up))
    · exact absurd at_ plain.1
  · rw [same]
    exact tested k at_ below
  · rw [same]
    exact gone at_

end Frame

/-- **A spider's own move keeps what its flag and its place say.** -/
theorem eofInv_move {i : Nat} {sh' : Shared} {s s' : Spider} {act : Act}
    (h : EofInv conf init skipline c.shared i s) (here : c.spiders[i]? = some s)
    (m : Move conf init skipline c.spiders i c.shared s act sh' s') :
    EofInv conf init skipline sh' i s' := by
  have keep := h.seen m
  have carry := h.carry m
  have low := h.lowered
  cases m with
  | scan at_ =>
    exact carry (by simp [Stopping, at_]) rfl (by simp [onPage]) (by simp) (by simp)
  | scanEof at_ none_ =>
    exact .ofSeen (fun _ => seenEnd_of_scan none_ i) rfl (by simp) (by simp)
  | sawEof at_ =>
    exact .ofSeen (fun _ => keep (by simp [Stopping, at_]) (by simp [at_]) (.inr at_)) rfl
      (by simp) (by simp)
  | pool at_ =>
    exact carry (by simp [Stopping, at_]) rfl (by simp [onPage]) (by simp) (by simp)
  | poolFailed at_ =>
    exact carry (by simp [Stopping, at_]) rfl (by simp [onPage]) (by simp) (by simp)
  | clear at_ => exact .ofLow rfl (by simp)
  | fetch at_ => exact .ofLow (low (by simp [onPage, at_])) (by simp)
  | fetchFailed at_ => exact .ofLow (low (by simp [onPage, at_])) (by simp)
  | linksDone at_ => exact .ofLow (low (by simp [onPage, at_])) (by simp)
  | offerNew url todo at_ => exact .ofLow (low (by simp [onPage, at_])) (by simp)
  | offerKnown url todo at_ => exact .ofLow (low (by simp [onPage, at_])) (by simp)
  | write url todo at_ => exact .ofLow (low (by simp [onPage, at_])) (by simp)
  | policies at_ => exact .ofLow (low (by simp [onPage, at_])) (by simp)
  | limitReached at_ reached =>
    have down : s.eof = false := low (by simp [onPage, at_])
    refine ⟨?_, ?_, fun _ => reached, ?_, ?_⟩ <;> simp [down]
  | limitPassed at_ => exact .ofLow (low (by simp [onPage, at_])) (by simp)
  | setEof at_ =>
    refine ⟨fun _ => .inl (.inr ⟨rfl, h.atLimit at_⟩), ?_, ?_, ?_, ?_⟩ <;> simp [onPage]
  | checkpoint at_ =>
    have down : s.eof = false := low (by simp [onPage, at_])
    cases due : sfDoCheckpoint c.shared.line
    · exact .ofLow down (by simp)
    · exact .ofLow down (by simp)
  | save at_ => exact .ofLow (low (by simp [onPage, at_])) (by simp)
  | leaveByLimit at_ =>
    refine ⟨fun _ => .inl (.inl rfl), ?_, ?_, ?_, ?_⟩ <;> simp [onPage]
  | outer at_ passed =>
    exact carry (by simp [Stopping, at_, passed]) rfl (by simp [onPage]) (by simp) (by simp)
  | leaveByEof k at_ last =>
    have beyond : i < k := by
      have inside := (List.getElem?_eq_some_iff.1 here).1
      have outside := List.getElem?_eq_none_iff.1 last
      omega
    exact carry (by simp [Stopping, at_]) rfl (by simp [onPage]) (by simp)
      fun _ => h.tested k at_ beyond
  | otherEof k other at_ there eof =>
    refine carry (by simp [Stopping, at_]) rfl (by simp [onPage]) ?_ (by simp)
    intro k' at' below
    obtain rfl : k + 1 = k' := by simpa using at'
    by_cases own : i = k
    · -- the flag just read is the spider's own
      rw [← own, here, Option.some_inj] at there
      exact there ▸ eof
    · exact h.tested k at_ (by omega)
  | otherBusy k other at_ =>
    exact carry (by simp [Stopping, at_]) rfl (by simp [onPage]) (by simp) (by simp)

/-- Every spider in its place, and every record written by one of them. -/
structure AllEof (conf : Conf) (init : List Record) (skipline : Int) (T : Nat) (c : World) :
    Prop where
  number : c.spiders.length = T
  writers : ∀ e ∈ c.shared.log.appended, e.1 < T
  each : ∀ i s, c.spiders[i]? = some s → EofInv conf init skipline c.shared i s

theorem allEof_start : AllEof conf init skipline levels.length (start sticky init skipline levels) := by
  obtain ⟨table, -, shared⟩ := start_shared sticky init skipline levels
  refine ⟨by simp [start], by simp [shared], fun i s hs => ?_⟩
  obtain ⟨level, -, rfl⟩ : ∃ level, levels[i]? = some level ∧ startSpider level = s := by
    simpa [start] using hs
  exact .ofLow rfl (by simp [startSpider])

theorem allEof_move {T i : Nat} {sh' : Shared} {s s' : Spider} {act : Act}
    (h : AllEof conf init skipline T c) (here : c.spiders[i]? = some s)
    (m : Move conf init skipline c.spiders i c.shared s act sh' s') :
    AllEof conf init skipline T ⟨sh', c.spiders.set i s'⟩ := by
  have inside : i < T := h.number ▸ (List.getElem?_eq_some_iff.1 here).1
  refine ⟨by simpa using h.number, fun e he => ?_, fun j t ht => ?_⟩
  · rcases move_appended m with same | ⟨url, todo, -, grown⟩
    · exact h.writers e (same ▸ he)
    · rcases List.mem_append.1 (grown ▸ he) with old | new
      · exact h.writers e old
      · rw [List.mem_singleton.1 new]
        exact inside
  · rcases getElem?_set_cases ht with ⟨rfl, rfl⟩ | ⟨other, ht⟩
    · exact eofInv_move (h.each j s here) here m
    · exact (h.each j t ht).frame other m

/-- The scans so far are the records passed by, in file order. -/
theorem scanned_fields {sh : Shared} (file : FileInv init skipline sh) :
    sh.log.scanned.map (fun e => (e.level, e.url)) =
      (((sh.records init).take (sh.passed init skipline)).drop (skipped init skipline)).map
        fun r => (r.level, r.url.str) := by
  refine List.ext_getElem? fun n => ?_
  have within := file.within
  rw [List.getElem?_map, List.getElem?_map, List.getElem?_drop, List.getElem?_take]
  cases he : sh.log.scanned[n]? with
  | none =>
    have past : ¬ skipped init skipline + n < sh.passed init skipline := by
      have := List.getElem?_eq_none_iff.1 he
      unfold Shared.passed
      omega
    simp [past]
  | some e =>
    obtain ⟨r, hr, level, url⟩ := file.scanned n e he
    have before : skipped init skipline + n < sh.passed init skipline := by
      have := (List.getElem?_eq_some_iff.1 he).1
      unfold Shared.passed
      omega
    simp [before, hr, level, url]

theorem reach_allEof (h : Reachable sticky conf init skipline levels c) :
    AllEof conf init skipline levels.length c :=
  moves h allEof_start fun _ _ _ _ _ _ _ inv _ here m => allEof_move inv here m

/-- When all spiders left because all had seen the end, there is nothing more to read, if the
indicator is not sticky. -/
theorem unread_of_left (some_ : levels ≠ []) (h : Reachable false conf init skipline levels c)
    (left : ∀ s ∈ c.spiders, s.pc = .left false) : c.shared.unread init skipline = [] := by
  have all := reach_allEof h
  -- each spider left with its flag up and not at a limit
  have settled : ∀ i, i < levels.length → Settled init skipline c.shared i := by
    intro i hi
    have here := List.getElem?_eq_getElem (show i < c.spiders.length by rw [all.number]; exact hi)
    have gone := left _ (List.getElem_mem (show i < c.spiders.length by rw [all.number]; exact hi))
    have inv := all.each i _ here
    refine ((inv.raised (.inl (inv.gone gone))).resolve_left ?_).settled (reach_sticky h)
    simp [Stopping, gone]
  have loaded := (settled 0 (List.length_pos_of_ne_nil some_)).loaded
  apply List.drop_eq_nil_iff.2
  rw [Shared.records, List.length_append, List.length_map]
  cases last : c.shared.log.appended.length with
  | zero => omega
  | succ n =>
    obtain ⟨⟨i, r⟩, he⟩ : ∃ e, c.shared.log.appended[n]? = some e :=
      ⟨_, List.getElem?_eq_getElem (show n < c.shared.log.appended.length by omega)⟩
    have own := (settled i (all.writers _ (List.mem_of_getElem? he))).own n r he
    omega

/-- **When all spiders left because all had seen the end, every record has been scanned**, with a
stream whose end of file is not sticky. -/
theorem every_record_scanned (some_ : levels ≠ []) (h : Reachable false conf init skipline levels c)
    (left : ∀ s ∈ c.spiders, s.pc = .left false) :
    c.shared.urlTxt = encodeAll (c.shared.records init) ∧
      c.shared.log.scanned.map (fun e => (e.level, e.url)) =
        ((c.shared.records init).drop (skipped init skipline)).map
          fun r => (r.level, r.url.str) := by
  have file := reach_file h
  have passed := List.drop_eq_nil_iff.1 (unread_of_left some_ h left)
  refine ⟨file.file, ?_⟩
  rw [scanned_fields file, List.take_of_length_le passed]

/-- The second spider sees the end of the file before the first has written its link. -/
def lateLink : Option World :=
  exec (step ⟨9, 99, false⟩) (start false [⟨0, .letter 0⟩] 0 [0, 0])
    (ticks 0 1 ++ ticks 1 4 ++
      [(0, .pool true), (0, .tick), (0, .page true [.letter 1])] ++ ticks 0 2 ++
      [(1, .tick), (1, .pool true), (1, .tick), (1, .page true [])] ++ ticks 1 4 ++
      ticks 0 9 ++ ticks 1 6 ++ ticks 0 6)

theorem lateLink_runs : lateLink.isSome := by decide +kernel

/-- Both have left, and the link has been scanned. -/
theorem every_record_scanned_late : (lateLink.get lateLink_runs).shared.log.scanned.map
    (fun e => (e.level, e.url.bytes)) = [(0, [97#8]), (1, [98#8])] := by
  have reached := exec_reach (Option.some_get lateLink_runs).symm
  obtain ⟨-, scanned⟩ := every_record_scanned (by decide) reached (by decide +kernel)
  have bytes := congrArg (List.map fun f => (f.1, f.2.bytes)) scanned
  rw [List.map_map] at bytes
  exact bytes.trans (by decide +kernel)

end SpiderFrame.Crawl
