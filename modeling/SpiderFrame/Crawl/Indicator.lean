import SpiderFrame.Crawl.Single

/-!
# Where the indicator is set

The scan of the last record of `url.txt` sets the end-of-file indicator, before the page of that
record has written its links. With a sticky indicator a single spider therefore looks for its next
record in the file as it was when it took the last one: it reads its worklist as a late reader
(`Marked`).
-/

namespace SpiderFrame.Crawl
open SpiderFrame.Base SpiderFrame.Base.Worklist SpiderFrame.Queue

/-- The record that a spider with a sticky indicator, started at record `b` of `init`, scans after
`n` others. -/
abbrev lateOrder (links : CString → List Url) (init : List Record) (b n : Nat) : Option Record :=
  lateItem recordKey (offers links) init b n

/-- The indicator of a sticky stream is set where a late reader has read to the end. -/
structure Marked (links : CString → List Url) (init : List Record) (b : Nat) (sh : Shared) :
    Prop where
  behind : sh.reader.blocked = true → lateOrder links init b sh.log.scanned.length = none
  ahead : sh.reader.sticky = true → sh.reader.blocked = false → sh.log.scanned.length ≠ 0 →
    lateOrder links init b sh.log.scanned.length ≠ none
  scanned : sh.reader.sticky = true → ∀ n < sh.log.scanned.length, lateOrder links init b n ≠ none

variable {sticky : Bool} {conf : Conf} {links : CString → List Url} {init : List Record}
  {skipline level : Int} {b : Nat} {pre : List Record} {c : World}

/-- The records of a spider between two pages. -/
theorem Progress.drained {sh : Shared} {s : Spider} (h : Progress links init b sh s pre)
    (free : holding s = false) :
    sh.records init = drain recordKey (offers links) init b sh.log.scanned.length := by
  have scans := h.scans
  rw [free] at scans
  have count : sh.log.scanned.length = sh.log.ended.length := scans
  rw [h.stage.list, h.idle free, pushAll_nil, count]

/-- With nothing unread, a late reader has read to the end too. -/
theorem Progress.late_end {sh : Shared} {s : Spider}
    (h : Progress links init (skipped init skipline) sh s pre) (free : holding s = false)
    (none_ : sh.unread init skipline = []) :
    lateOrder links init (skipped init skipline) sh.log.scanned.length = none := by
  have past := List.drop_eq_nil_iff.1 none_
  rw [h.drained free, Shared.passed] at past
  have earlier : drain recordKey (offers links) init (skipped init skipline)
      (sh.log.scanned.length - 1) <+: _ := prefix_drain _ _ (Nat.sub_le sh.log.scanned.length 1)
  exact List.getElem?_eq_none (Nat.le_trans earlier.length_le past)

section Moves

variable {spiders : List Spider} {i : Nat} {sh sh' : Shared} {s s' : Spider} {act : Act}

/-- A move that reads nothing. -/
theorem Marked.keep (h : Marked links init b sh) (reader : sh'.reader = sh.reader)
    (scanned : sh'.log.scanned = sh.log.scanned) : Marked links init b sh' := by
  obtain ⟨behind, ahead, past⟩ := h
  rw [← reader, ← scanned] at behind ahead past
  exact ⟨behind, ahead, past⟩

/-- The scan of a record. -/
theorem Marked.scan (h : Marked links init (skipped init skipline) sh)
    (progress : Progress links init (skipped init skipline) sh s pre) (free : holding s = false)
    {r : Record} {rest : List Record} (next : sh.unread init skipline = r :: rest)
    (open_ : sh.reader.blocked = false) (e : Scan) :
    Marked links init (skipped init skipline) (sh.read (encodeAll rest) e) := by
  obtain ⟨here, after⟩ := unread_cons next
  have count : (sh.read (encodeAll rest) e).log.scanned.length = sh.log.scanned.length + 1 := by
    simp [Shared.read]
  -- the next record for a late reader is the first one that the scan has left
  have late : lateOrder links init (skipped init skipline) (sh.log.scanned.length + 1) =
      rest.head? := by
    rw [← after, progress.drained free, List.head?_drop]
    rfl
  have blocked : (sh.read (encodeAll rest) e).reader.blocked = (sh.reader.sticky && rest.isEmpty) := by
    have nothing : (encodeAll rest).isEmpty = rest.isEmpty := by
      cases rest with
      | nil => rfl
      | cons r rest => simp [encodeAll_cons, Record.encode, fprintfRecord]
    show (sh.reader.leave sh.urlTxt (encodeAll rest)).blocked = _
    rw [Reader.leave_open open_, Reader.blocked]
    dsimp only
    rw [nothing, Bool.and_or_distrib_left, show (sh.reader.sticky && sh.reader.eof) = false from open_,
      Bool.false_or]
  refine ⟨fun set => ?_, fun sticks clear _ => ?_, fun sticks n before => ?_⟩
  · rw [blocked, Bool.and_eq_true_iff] at set
    rw [count, late, List.isEmpty_iff.1 set.2]
    rfl
  · have sticks' : sh.reader.sticky = true := (Reader.leave_sticky _ _ _).symm.trans sticks
    rw [blocked, sticks', Bool.true_and] at clear
    rw [count, late]
    cases rest with
    | nil => cases clear
    | cons => exact Option.some_ne_none _
  · have sticks' : sh.reader.sticky = true := (Reader.leave_sticky _ _ _).symm.trans sticks
    rw [count] at before
    rcases Nat.lt_succ_iff_lt_or_eq.1 before with old | rfl
    · exact h.scanned sticks' n old
    · by_cases first : sh.log.scanned.length = 0
      · have start : sh.records init = init := by
          rw [progress.drained free, first]
          rfl
        rw [start, Shared.passed, first, Nat.add_zero] at here
        rw [first, lateOrder, lateItem]
        exact fun none_ => Option.some_ne_none r (here.symm.trans none_)
      · exact h.ahead sticks' open_ first

theorem marked_move (h : Marked links init (skipped init skipline) sh)
    (progress : Progress links init (skipped init skipline) sh s pre)
    (m : Move conf init skipline spiders i sh s act sh' s') :
    Marked links init (skipped init skipline) sh' := by
  cases m with
  | scan at_ r rest next open_ => exact h.scan progress (by simp [holding, at_]) next open_ _
  | scanEof at_ none_ =>
    have free : holding s = false := by simp [holding, at_]
    refine ⟨fun _ => ?_, fun sticks clear _ => ?_, h.scanned⟩
    · rcases none_ with blocked | nothing
      · exact h.behind blocked
      · exact progress.late_end free nothing
    · rw [Reader.blocked, sticks] at clear
      cases clear
  | _ => exact h.keep rfl (by simp [Shared.append])

end Moves

theorem marked_start (links : CString → List Url) (init : List Record) (skipline level : Int) :
    Marked links init (skipped init skipline) (start sticky init skipline [level]).shared := by
  obtain ⟨table, -, shared⟩ := start_shared sticky init skipline [level]
  obtain ⟨atRest, behind⟩ := start_reader sticky init skipline [level]
  have none_ : (start sticky init skipline [level]).shared.log.scanned = [] := by rw [shared]
  refine ⟨fun blocked => ?_, fun _ _ some_ => absurd (by simp [none_]) some_, fun _ n before => ?_⟩
  · have nothing := atRest.atEnd (Reader.blocked_eof blocked)
    rw [behind] at nothing
    have left : init.drop (skipped init skipline) = [] := encodeAll_inj nothing
    rw [none_, lateOrder, lateItem]
    exact List.getElem?_eq_none (List.drop_eq_nil_iff.1 left)
  · rw [none_] at before
    exact absurd before (Nat.not_lt_zero n)

/-- **A single spider with a sticky indicator reads its worklist as a late reader.** -/
theorem reach_marked (h : Crawls links sticky conf init skipline level c) :
    Marked links init (skipped init skipline) c.shared := by
  obtain ⟨s, -, marked⟩ := moves_one (I := fun sh _ => Marked links init (skipped init skipline) sh) h
    (marked_start links init skipline level) fun c s act sh' s' reached here inv _ m => by
      obtain ⟨t, one, pre, progress⟩ := reach_progress reached
      obtain rfl : t = s := by simpa [one] using here
      exact marked_move inv progress m
  exact marked

end SpiderFrame.Crawl
