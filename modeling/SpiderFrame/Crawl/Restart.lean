import SpiderFrame.Crawl.Onward

/-!
# Starting again

A run is killed and a new process is started on the file it left behind, at a record that
the killed run had come to. The new table is loaded from the file; it does not know the URL
that the killed run may have put into its own table and not yet written, but that URL is the
next link of the record in hand and is offered again. So the new run is the restart of the
worklist (`Stage.restart`), and it takes the course of a run never interrupted
(`restart_equivalent_iff`), but for one thing: with a sticky indicator a run does not read on behind
a record that was the last one when it was scanned, and the stream of a new process has its indicator
clear (`Overtaken`).
-/

namespace SpiderFrame.Crawl
open SpiderFrame.Base SpiderFrame.Base.Worklist SpiderFrame.Queue

variable {sticky : Bool} {conf : Conf} {links : CString → List Url} {init F : List Record}
  {level level' : Int}
  {k : Nat} {s u n : World}

/-- `m` records are done with and none is in hand. -/
def World.Done (c : World) (m : Nat) : Prop :=
  (∀ s ∈ c.spiders, holding s = false) ∧ c.shared.log.ended.length = m

/-- The run `n`, started at record `k` of a file that was left behind when `done` records were
done with, takes the course of the run `u`, started at the first record: one has scanned what
the other has, and more if the other has not left; and with as many records done with, both
have counted as many lines, and have the same file once the new run is past the old. -/
structure SameCourse (k done : Nat) (u n : World) : Prop where
  scans : n.shared.visits <+: u.shared.visits.drop k ∨ u.shared.visits.drop k <+: n.shared.visits
  left : u.Left → n.shared.visits <+: u.shared.visits.drop k
  newLeft : n.Left → u.shared.visits.drop k <+: n.shared.visits
  line : ∀ j, u.Done (k + j) → n.Done j → n.shared.line = u.shared.line
  file : ∀ j, u.Done (k + j) → n.Done j → done < k + j → n.shared.urlTxt = u.shared.urlTxt

/-- Runs on the file that was left behind and runs that were never interrupted take the same
course. -/
structure RestartEquivalent (links : CString → List Url) (sticky : Bool) (conf : Conf)
    (init F : List Record) (level level' : Int) (k done : Nat) : Prop where
  course : ∀ u n, Crawls links sticky conf init 0 level u → Crawls links sticky conf F k level' n →
    SameCourse k done u n
  matched : ∀ u, Crawls links sticky conf init 0 level u →
    ∃ n, Crawls links sticky conf F k level' n ∧ u.shared.visits.drop k <+: n.shared.visits
  matches_ : ∀ n, Crawls links sticky conf F k level' n →
    ∃ u, Crawls links sticky conf init 0 level u ∧ n.shared.visits <+: u.shared.visits.drop k

/-- The indicator of a sticky stream is set, a record has been written behind it, and no limit is
reached with the record scanned last. -/
structure Overtaken (conf : Conf) (init : List Record) (sh : Shared) : Prop where
  blocked : sh.reader.blocked = true
  written : sh.unread init 0 ≠ []
  goesOn : ∀ m v, m + 1 = sh.visits.length → sh.visits[m]? = some v → stopsAt conf 0 m v = false

@[simp] theorem skipped_zero (init : List Record) : skipped init 0 = 0 := Nat.zero_min _

theorem skipped_inside (h : k ≤ F.length) : skipped F k = k := Nat.min_eq_left h

/-- With a number of records done with and none in hand, the file is the drained worklist. -/
theorem done_records {skipline : Int} {m : Nat} (h : Crawls links sticky conf init skipline level u)
    (done : u.Done m) :
    u.shared.records init = drain recordKey (offers links) init (skipped init skipline) m ∧
      u.shared.line = skipline + m := by
  obtain ⟨s, one, pre, progress⟩ := reach_progress h
  have free := done.1 s (by simp [one])
  have scans := progress.scans
  have line := (reach_file h).line
  rw [free, done.2] at scans
  constructor
  · rw [progress.stage.list, progress.idle free, pushAll_nil, done.2]
  · rw [line, scans]
    rfl

section Killed

variable (killed : Crawls links sticky conf init 0 level s) (file : s.shared.urlTxt = encodeAll F)

include killed

theorem ended_le_visits : s.shared.log.ended.length ≤ s.shared.visits.length := by
  obtain ⟨t, -, pre, progress⟩ := reach_progress killed
  have scans := progress.scans
  rw [visits_length]
  omega

include file

/-- The file left behind is a stage of the worklist. -/
theorem left_behind : ∃ pre, Stage recordKey (offers links) init 0 s.shared.log.ended.length pre F ∧
    s.shared.visits.length ≤ F.length := by
  obtain ⟨t, -, pre, progress⟩ := reach_progress killed
  have inv := reach_file killed
  have same : s.shared.records init = F := encodeAll_inj (inv.file.symm.trans file)
  have stage := progress.stage
  have within := inv.within
  rw [same, skipped_zero] at stage
  rw [same, Shared.passed, skipped_zero, Nat.zero_add, ← visits_length] at within
  exact ⟨pre, stage, within⟩

/-- The limits of the new run are those of the uninterrupted run after `k` records. -/
theorem restart_stops (processed : k ≤ s.shared.log.ended.length) :
    skipped F k = k ∧ stopsAt conf k = fun m => stopsAt conf 0 (k + m) := by
  obtain ⟨pre, stage, within⟩ := left_behind killed file
  have enough := ended_le_visits killed
  refine ⟨skipped_inside (by omega), funext fun m => funext fun v => ?_⟩
  unfold stopsAt
  congr 1
  push_cast
  omega

/-- A late reader of the new run finds what one of the uninterrupted run does, unless the killed run
has written behind its indicator. -/
theorem restart_late (processed : k ≤ s.shared.log.ended.length) (sticks : sticky = true) (j : Nat)
    (clear : k + j = s.shared.visits.length → s.shared.reader.blocked = true →
      s.shared.unread init 0 = []) :
    lateOrder links F k j = lateOrder links init 0 (k + j) := by
  obtain ⟨_, stage, -⟩ := left_behind killed file
  obtain ⟨t, -, pre, progress⟩ := reach_progress killed
  have marked := reach_marked killed
  have inv := reach_file killed
  have same : s.shared.records init = F := encodeAll_inj (inv.file.symm.trans file)
  have sticks' : s.shared.reader.sticky = true := (reach_sticky killed).trans sticks
  have scans := progress.scans
  have found := stage.lateItem_restart processed j
  rw [skipped_zero] at marked progress
  rw [Nat.zero_add, Nat.zero_add] at found
  rw [visits_length] at clear
  have between : holding t = false → F = drain recordKey (offers links) init 0
      s.shared.log.scanned.length := fun free => same.symm.trans (progress.drained free)
  refine found.2 fun early none_ => ?_
  rcases Nat.lt_trichotomy (k + j) s.shared.log.scanned.length with before | here | past
  · exact absurd none_ (marked.scanned sticks' _ before)
  · by_cases first : s.shared.log.scanned.length = 0
    · -- nothing was scanned, and nothing was written
      have free : holding t = false := by
        cases holds : holding t with
        | false => rfl
        | true =>
          rw [holds, Bool.toNat_true] at scans
          omega
      rw [between free, here, first]
      rwa [here, first] at none_
    · cases open_ : s.shared.reader.blocked with
      | false => exact absurd (here ▸ none_) (marked.ahead sticks' open_ first)
      | true =>
        have nothing := List.drop_eq_nil_iff.1 (clear here open_)
        rw [same, Shared.passed, skipped_zero, Nat.zero_add, ← here] at nothing
        exact List.getElem?_eq_none nothing
  · -- the killed run is between two pages, and has written all that a late reader sees
    have free : holding t = false := by
      cases holds : holding t with
      | false => rfl
      | true =>
        rw [holds, Bool.toNat_true] at scans
        omega
    rw [free, Bool.toNat_false] at scans
    obtain next : k + j = s.shared.log.scanned.length + 1 := by omega
    rw [between free, next]
    rw [next, lateItem, Nat.zero_add] at none_
    exact none_

/-- And so what the new run reads is what the uninterrupted run reads. -/
theorem restart_order (processed : k ≤ s.shared.log.ended.length) (j : Nat)
    (clear : k + j = s.shared.visits.length → s.shared.reader.blocked = true →
      s.shared.unread init 0 = []) :
    visitOrder sticky links F k j = visitOrder sticky links init 0 (k + j) := by
  unfold visitOrder readOrder
  congr 1
  cases sticks : sticky with
  | true => exact restart_late killed file processed sticks j clear
  | false =>
    obtain ⟨pre, stage, -⟩ := left_behind killed file
    have same := stage.item_restart processed j
    rwa [Nat.zero_add] at same

/-- What the new run has scanned is what the killed run had scanned there. -/
theorem restarted_visit (processed : k ≤ s.shared.log.ended.length)
    (h : Crawls links sticky conf F k level' n) {j : Nat} {v w : Int × CString}
    (old : s.shared.visits[k + j]? = some v) (new : n.shared.visits[j]? = some w) : w = v := by
  obtain ⟨skips, -⟩ := restart_stops killed file processed
  have inv := reach_file killed
  have same : s.shared.records init = F := encodeAll_inj (inv.file.symm.trans file)
  rw [Shared.visits, List.getElem?_map, Option.map_eq_some_iff] at old new
  obtain ⟨e, he, rfl⟩ := old
  obtain ⟨e', he', rfl⟩ := new
  obtain ⟨r, here, level, url⟩ := inv.scanned _ e he
  obtain ⟨r', here', level', url'⟩ := (reach_file h).scanned _ e' he'
  rw [same, skipped_zero, Nat.zero_add] at here
  rw [skips, Shared.records, List.getElem?_append_left (List.getElem?_eq_some_iff.1 here).1, here,
    Option.some_inj] at here'
  rw [level, url, level', url', here']

section Stopped

variable (processed : k ≤ s.shared.log.ended.length)
  (before : ∀ m v, m + 1 = k → s.shared.visits[m]? = some v → stopsAt conf 0 m v = false)
  (not : ¬ Overtaken conf init s.shared)

include processed before not

/-- If the killed run has written behind its indicator without being overtaken, a limit is reached
with the record it has scanned last, and the new run scans that. -/
theorem stopped_of_written (h : Crawls links sticky conf F k level' n)
    (blocked : s.shared.reader.blocked = true) (written : s.shared.unread init 0 ≠ []) :
    ∃ m v, k + m + 1 = s.shared.visits.length ∧ stopsAt conf 0 (k + m) v = true ∧
      ∀ w, n.shared.visits[m]? = some w → w = v := by
  obtain ⟨m, v, last, hv, stops⟩ : ∃ m v, m + 1 = s.shared.visits.length ∧
      s.shared.visits[m]? = some v ∧ stopsAt conf 0 m v = true := by
    by_contra none_
    refine not ⟨blocked, written, fun m v last hv => ?_⟩
    by_contra stops
    exact none_ ⟨m, v, last, hv, by simpa using stops⟩
  have enough := ended_le_visits killed
  by_cases edge : m + 1 = k
  · rw [before m v edge hv] at stops
    cases stops
  · obtain ⟨j, rfl⟩ := Nat.exists_eq_add_of_le (show k ≤ m by omega)
    exact ⟨j, v, last, stops, fun w hw => restarted_visit killed file processed h hv hw⟩

theorem restarted_reads (h : Crawls links sticky conf F k level' n) :
    Reads (fun m => visitOrder sticky links init 0 (k + m)) (fun m => stopsAt conf 0 (k + m))
      n.shared.visits := by
  obtain ⟨skips, stop⟩ := restart_stops killed file processed
  have reads := reads_of_crawls h
  rw [skips, stop] at reads
  refine ⟨fun j w hw => ?_, reads.goesOn⟩
  rw [← restart_order killed file processed j ?_]
  · exact reads.here j w hw
  · intro last blocked
    by_contra written
    obtain ⟨m, v, last', stops, same⟩ :=
      stopped_of_written killed file processed before not h blocked written
    have inside := (List.getElem?_eq_some_iff.1 hw).1
    have hm := List.getElem?_eq_getElem (show m < n.shared.visits.length by omega)
    have goes := reads.goesOn m _ hm (by omega)
    rw [same _ hm, stops] at goes
    cases goes

theorem restarted_ends (h : Crawls links sticky conf F k level' n) (left : n.Left) :
    Ends (fun m => visitOrder sticky links init 0 (k + m)) (fun m => stopsAt conf 0 (k + m))
      n.shared.visits := by
  obtain ⟨skips, stop⟩ := restart_stops killed file processed
  have ends := ends_of_left h left
  rw [skips, stop] at ends
  refine ends.elim (fun none_ => ?_) .inr
  by_cases clear : k + n.shared.visits.length = s.shared.visits.length →
      s.shared.reader.blocked = true → s.shared.unread init 0 = []
  · exact .inl ((restart_order killed file processed _ clear).symm.trans none_)
  · push Not at clear
    obtain ⟨last, blocked, written⟩ := clear
    obtain ⟨m, v, last', stops, same⟩ :=
      stopped_of_written killed file processed before not h blocked written
    have hm := List.getElem?_eq_getElem (show m < n.shared.visits.length by omega)
    refine .inr ⟨m, _, hm, by omega, ?_⟩
    show stopsAt conf 0 (k + m) _ = true
    rw [same _ hm, stops]

end Stopped

/-- Past the old run, the new run has the file of the uninterrupted run. -/
theorem restarted_file (processed : k ≤ s.shared.log.ended.length)
    (hu : Crawls links sticky conf init 0 level u) (hn : Crawls links sticky conf F k level' n) {j : Nat}
    (old : u.Done (k + j)) (new : n.Done j) (past : s.shared.log.ended.length < k + j) :
    n.shared.urlTxt = u.shared.urlTxt := by
  obtain ⟨skips, -⟩ := restart_stops killed file processed
  obtain ⟨pre, stage, -⟩ := left_behind killed file
  have whole := (done_records hu old).1
  have rest := (done_records hn new).1
  have same := stage.restart (j := j) processed past
  rw [skipped_zero] at whole
  rw [Nat.zero_add] at same
  rw [skips, same] at rest
  rw [(reach_file hu).file, (reach_file hn).file, whole, rest]

omit killed file in
theorem uninterrupted_reads (k : Nat) (h : Crawls links sticky conf init 0 level u) :
    Reads (fun m => visitOrder sticky links init 0 (k + m)) (fun m => stopsAt conf 0 (k + m))
      (u.shared.visits.drop k) := by
  have reads := reads_of_crawls h
  rw [skipped_zero] at reads
  exact reads.drop k

omit file in
/-- A run that was never interrupted ends after record `k`, if no limit was reached with it. -/
theorem uninterrupted_ends (processed : k ≤ s.shared.log.ended.length)
    (before : ∀ m v, m + 1 = k → s.shared.visits[m]? = some v → stopsAt conf 0 m v = false)
    (h : Crawls links sticky conf init 0 level u) (left : u.Left) :
    Ends (fun m => visitOrder sticky links init 0 (k + m)) (fun m => stopsAt conf 0 (k + m))
      (u.shared.visits.drop k) := by
  have ends := ends_of_left h left
  have enough := ended_le_visits killed
  have further := (reads_of_crawls killed).prefix_of_ends (reads_of_crawls h) ends
  have longer := further.length_le
  rw [skipped_zero] at ends
  apply ends.drop (by omega)
  intro m v last hv
  obtain ⟨v', hv'⟩ : ∃ v', s.shared.visits[m]? = some v' := ⟨_, List.getElem?_eq_getElem (by omega)⟩
  have same := prefix_getElem? further hv'
  rw [hv, Option.some_inj] at same
  exact before m v last (same ▸ hv')

/-- A run that is not overtaken can be restarted. -/
theorem restart_equivalent (processed : k ≤ s.shared.log.ended.length)
    (before : ∀ m v, m + 1 = k → s.shared.visits[m]? = some v → stopsAt conf 0 m v = false)
    (not : ¬ Overtaken conf init s.shared) :
    RestartEquivalent links sticky conf init F level level' k s.shared.log.ended.length := by
  -- both runs are readings of one sequence, and have ended when they have left
  have reads : ∀ {u}, Crawls links sticky conf init 0 level u → _ := uninterrupted_reads k
  have ends : ∀ {u}, Crawls links sticky conf init 0 level u → u.Left → _ :=
    uninterrupted_ends killed processed before
  have reads' : ∀ {n}, Crawls links sticky conf F k level' n → _ :=
    restarted_reads killed file processed before not
  have ends' : ∀ {n}, Crawls links sticky conf F k level' n → n.Left → _ :=
    restarted_ends killed file processed before not
  refine ⟨fun u n hu hn => ?_, fun u hu => ?_, fun n hn => ?_⟩
  · refine ⟨?_, fun left => ?_, fun left => ?_, fun j old new => ?_, fun j old new past => ?_⟩
    · rcases Nat.le_total n.shared.visits.length (u.shared.visits.drop k).length with le | le
      · exact .inl ((reads' hn).prefix_of_le (reads hu) le)
      · exact .inr ((reads hu).prefix_of_le (reads' hn) le)
    · exact (reads' hn).prefix_of_ends (reads hu) (ends hu left)
    · exact (reads hu).prefix_of_ends (reads' hn) (ends' hn left)
    · rw [(done_records hu old).2, (done_records hn new).2]
      push_cast
      omega
    · exact restarted_file killed file processed hu hn old new past
  · obtain ⟨n, hn, left | enough⟩ :=
      crawls_onward sticky links conf F k level' (u.shared.visits.drop k).length
    · exact ⟨n, hn, (reads hu).prefix_of_ends (reads' hn) (ends' hn left)⟩
    · exact ⟨n, hn, (reads hu).prefix_of_le (reads' hn) enough⟩
  · obtain ⟨u, hu, left | enough⟩ :=
      crawls_onward sticky links conf init 0 level (k + n.shared.visits.length)
    · exact ⟨u, hu, (reads' hn).prefix_of_ends (reads hu) (ends hu left)⟩
    · refine ⟨u, hu, (reads' hn).prefix_of_le (reads hu) ?_⟩
      rw [List.length_drop]
      omega

/-! ### Overtaken runs -/

omit file in
/-- Behind a set indicator a run that was never interrupted scans nothing more. -/
theorem uninterrupted_stops (blocked : s.shared.reader.blocked = true)
    (h : Crawls links sticky conf init 0 level u) :
    u.shared.visits.length ≤ s.shared.visits.length := by
  obtain rfl : sticky = true := (reach_sticky killed).symm.trans (Bool.and_eq_true_iff.1 blocked).1
  have none_ := (reach_marked killed).behind blocked
  by_contra longer
  have further := List.getElem?_eq_getElem (show s.shared.visits.length < u.shared.visits.length by omega)
  have read := (reads_of_crawls h).here _ _ further
  have nothing : visitOrder true links init (skipped init 0) s.shared.visits.length = none := by
    rw [visits_length]
    exact congrArg (Option.map _) none_
  rw [nothing] at read
  cases read

/-- The new run scans the record behind the indicator. -/
theorem restarted_goes_on (processed : k ≤ s.shared.log.ended.length)
    (overtaken : Overtaken conf init s.shared) (h : Crawls links sticky conf F k level' n)
    (far : n.Left ∨ s.shared.visits.length - k < n.shared.visits.length) :
    s.shared.visits.length - k < n.shared.visits.length := by
  obtain ⟨skips, stop⟩ := restart_stops killed file processed
  obtain ⟨_, stage, -⟩ := left_behind killed file
  obtain ⟨t, -, _, progress⟩ := reach_progress killed
  obtain rfl : sticky = true :=
    (reach_sticky killed).symm.trans (Bool.and_eq_true_iff.1 overtaken.blocked).1
  have enough := ended_le_visits killed
  have scans := progress.scans
  rw [← visits_length] at scans
  have atMost : (holding t).toNat ≤ 1 := Bool.toNat_le _
  have inv := reach_file killed
  have same : s.shared.records init = F := encodeAll_inj (inv.file.symm.trans file)
  have unread : s.shared.visits.length < F.length := by
    by_contra short
    apply overtaken.written
    apply List.drop_eq_nil_iff.2
    rw [same, Shared.passed, skipped_zero, ← visits_length]
    omega
  rcases far with left | enough
  · by_contra short
    have ends := ends_of_left h left
    rw [skips, stop] at ends
    rcases ends with none_ | ⟨m, w, hw, last, stops⟩
    · -- the record is there
      have read := stage.lateItem_again (k := k) (j := n.shared.visits.length)
        (by omega) processed
      rw [Nat.zero_add, Nat.zero_add, List.getElem?_eq_getElem (by omega)] at read
      have some_ : visitOrder true links F k n.shared.visits.length = some _ :=
        congrArg (Option.map _) read
      rw [some_] at none_
      cases none_
    · -- no limit was reached before it
      have hv := List.getElem?_eq_getElem (show k + m < s.shared.visits.length by omega)
      change stopsAt conf 0 (k + m) w = true at stops
      rw [restarted_visit killed file processed h hv hw] at stops
      by_cases edge : k + m + 1 = s.shared.visits.length
      · rw [overtaken.goesOn _ _ edge hv] at stops
        cases stops
      · rw [(reads_of_crawls killed).goesOn _ _ hv (by omega)] at stops
        cases stops
  · exact enough

/-- A run that is overtaken cannot. -/
theorem not_restart_equivalent (processed : k ≤ s.shared.log.ended.length)
    (overtaken : Overtaken conf init s.shared) :
    ¬ RestartEquivalent links sticky conf init F level level' k s.shared.log.ended.length := by
  intro equivalent
  obtain ⟨u, hu, far⟩ :=
    crawls_onward sticky links conf init 0 level (s.shared.visits.length + 1)
  obtain ⟨n, hn, far'⟩ :=
    crawls_onward sticky links conf F k level' (s.shared.visits.length - k + 1)
  have stops := uninterrupted_stops killed overtaken.blocked hu
  have left : u.Left := far.resolve_right (by omega)
  have goes := restarted_goes_on killed file processed overtaken hn far'
  have within := ((equivalent.course u n hu hn).left left).length_le
  rw [List.length_drop] at within
  omega

end Killed

/-- **A run started on the file that a killed run left behind takes the course of a run that was
never interrupted if and only if the killed run was not overtaken.** -/
theorem restart_equivalent_iff (killed : Crawls links sticky conf init 0 level s)
    (file : s.shared.urlTxt = encodeAll F) (processed : k ≤ s.shared.log.ended.length)
    (before : ∀ m v, m + 1 = k → s.shared.visits[m]? = some v → stopsAt conf 0 m v = false) :
    RestartEquivalent links sticky conf init F level level' k s.shared.log.ended.length ↔
      ¬ Overtaken conf init s.shared :=
  ⟨fun equivalent overtaken => not_restart_equivalent killed file processed overtaken equivalent,
    restart_equivalent killed file processed before⟩

/-- The page of one seed has a link, that of the other the same and two more. -/
def seedPages (url : CString) : List Url :=
  if url = .letter 0 then [.letter 2]
  else if url = .letter 1 then [.letter 2, .letter 3, .letter 4]
  else []

/-- The run is killed when the last link is in its table and not yet in the file. -/
def inPage : World := onward ⟨9, 99, false⟩ seedPages 18 (start true twoSeeds 0 [0])

def leftInPage : List Record :=
  twoSeeds ++ [⟨1, .letter 2⟩, ⟨1, .letter 3⟩]

/-- The run that goes on after the first seed ends with the file of the run that was not killed. -/
theorem restart_equivalent_inPage :
    (onward ⟨9, 99, false⟩ seedPages 60 (start true leftInPage 1 [7])).shared.urlTxt =
      (onward ⟨9, 99, false⟩ seedPages 60 (start true twoSeeds 0 [0])).shared.urlTxt := by
  have killed : Crawls seedPages true ⟨9, 99, false⟩ twoSeeds 0 0 inPage := onward_reach _ _ _ _
  have first : inPage.shared.visits[0]? = some (0, .letter 0) := by decide +kernel
  have new : Crawls seedPages true ⟨9, 99, false⟩ leftInPage (1 : Nat) 7 _ := onward_reach _ _ 60 _
  have equivalent : RestartEquivalent seedPages true ⟨9, 99, false⟩ twoSeeds leftInPage 0 7 1 _ :=
    (restart_equivalent_iff killed (by decide +kernel) (by decide +kernel) fun m v last hv => by
      obtain rfl : m = 0 := by omega
      rw [first, Option.some_inj] at hv
      exact hv ▸ rfl).2 fun overtaken => absurd overtaken.blocked (by decide +kernel)
  have course := equivalent.course _ _ (onward_reach _ _ 60 _) new
  exact course.file 4 ⟨by decide +kernel, by decide +kernel⟩ ⟨by decide +kernel, by decide +kernel⟩
    (by decide +kernel)

/-- The page of the only seed has a link. -/
def seedPage (url : CString) : List Url := if url = .letter 0 then [.letter 1] else []

/-- The run is killed behind the page of the seed. -/
def behindPage : World := onward ⟨9, 99, false⟩ seedPage 8 (start true [⟨0, .letter 0⟩] 0 [0])

/-- A run that was never interrupted leaves the link unread, and the restarted run scans it. -/
theorem restart_scans_more : ¬ ∀ (links : CString → List Url) (conf : Conf) (init F : List Record)
    (level level' : Int) (k : Nat) (s : World), Crawls links true conf init 0 level s →
    s.shared.urlTxt = encodeAll F → k ≤ s.shared.log.ended.length →
    (∀ m v, m + 1 = k → s.shared.visits[m]? = some v → stopsAt conf 0 m v = false) →
    RestartEquivalent links true conf init F level level' k s.shared.log.ended.length := by
  intro claim
  have first : behindPage.shared.visits[0]? = some (0, .letter 0) := by decide +kernel
  have equivalent := claim seedPage ⟨9, 99, false⟩ [⟨0, .letter 0⟩]
    [⟨0, .letter 0⟩, ⟨1, .letter 1⟩] 0 7 1 behindPage (onward_reach _ _ _ _) (by decide +kernel)
    (by decide +kernel) fun m v last hv => by
      obtain rfl : m = 0 := by omega
      rw [first, Option.some_inj] at hv
      exact hv ▸ rfl
  have left : ∀ t ∈ (onward ⟨9, 99, false⟩ seedPage 30
      (start true [⟨0, .letter 0⟩] 0 [0])).spiders, t.pc = .left false := by decide +kernel
  have within := ((equivalent.course _ _ (onward_reach _ _ 30 _) (onward_reach _ _ 30 _)).left
    fun t ht => ⟨false, left t ht⟩).length_le
  exact absurd within (by decide +kernel)

end SpiderFrame.Crawl
