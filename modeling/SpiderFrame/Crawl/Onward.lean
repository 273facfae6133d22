import SpiderFrame.Crawl.DepthLimit
import SpiderFrame.Crawl.EndOfFile
import SpiderFrame.Crawl.Indicator
import SpiderFrame.Crawl.Overshoot

/-!
# How far one spider goes

A single spider reads the records in the order of its worklist, as a late reader if the indicator
of its stream is sticky. It stops at a record with which a limit is reached, or at the end of what it
can read (`reads_of_crawls`, `ends_of_left`), and at no other place: it can always go on to its next
scan or leave (`crawls_onward`).
-/

namespace SpiderFrame.Crawl
open SpiderFrame.Base SpiderFrame.Base.Worklist SpiderFrame.Queue

/-- The level and the URL of each scan. -/
def Shared.visits (sh : Shared) : List (Int × CString) :=
  sh.log.scanned.map fun e => (e.level, e.url)

@[simp] theorem visits_length (sh : Shared) : sh.visits.length = sh.log.scanned.length :=
  List.length_map _

/-- Every spider has left `sf_proc_start_spider`. -/
def World.Left (c : World) : Prop := ∀ s ∈ c.spiders, ∃ byLimit, s.pc = .left byLimit

/-- A limit is reached with the record that is scanned after `n` others. -/
def stopsAt (conf : Conf) (skipline : Int) (n : Nat) (v : Int × CString) : Bool :=
  limitReached conf v.1 (skipline + (n + 1))

/-- The record that a spider, started at record `b` of `init`, reads after `n` others. -/
def readOrder (sticky : Bool) (links : CString → List Url) (init : List Record) (b n : Nat) :
    Option Record :=
  if sticky then lateOrder links init b n else scanOrder links init b n

/-- What it reads. -/
def visitOrder (sticky : Bool) (links : CString → List Url) (init : List Record) (b n : Nat) :
    Option (Int × CString) :=
  (readOrder sticky links init b n).map fun r => (r.level, r.url.str)

/-- A scan finds nothing. -/
def AtEnd (init : List Record) (skipline : Int) (sh : Shared) : Prop :=
  sh.reader.blocked = true ∨ sh.unread init skipline = []

variable {sticky : Bool} {conf : Conf} {links : CString → List Url} {init : List Record}
  {skipline level : Int}
  {c : World}

/-! ## Why it stops -/

/-- The records scanned before the last one reached no limit, nor did the last one if no test
stands before the next scan. -/
structure Tested (conf : Conf) (init : List Record) (skipline : Int) (sh : Shared) (s : Spider) :
    Prop where
  earlier : ∀ n v, sh.visits[n]? = some v → n + 1 < sh.visits.length →
    stopsAt conf skipline n v = false
  last : armed s = true → ∀ n v, sh.visits[n]? = some v → n + 1 = sh.visits.length →
    stopsAt conf skipline n v = false
  level : ∀ n v, sh.visits[n]? = some v → n + 1 = sh.visits.length → s.level = v.1
  first : sh.visits = [] → s.pc = .scan ∨ AtEnd init skipline sh
  busy : holding s = true → sh.visits ≠ []

section Moves

variable {spiders : List Spider} {i : Nat} {sh sh' : Shared} {s s' : Spider} {act : Act}

/-- A move that scans nothing. -/
theorem Tested.keep (h : Tested conf init skipline sh s)
    (line : sh.line = skipline + sh.log.scanned.length)
    (scanned : sh'.log.scanned = sh.log.scanned) (same : s'.level = s.level)
    (arms : armed s' = true → armed s = true ∨ limitReached conf s.level sh.line = false)
    (first : sh.visits = [] → s'.pc = .scan ∨ AtEnd init skipline sh')
    (busy : holding s' = true → holding s = true) : Tested conf init skipline sh' s' := by
  have visits : sh'.visits = sh.visits := by simp only [Shared.visits, scanned]
  refine ⟨?_, fun armed' n v hv last => ?_, ?_, ?_, ?_⟩
  · rw [visits]; exact h.earlier
  · rw [visits] at hv last
    rcases arms armed' with before | passed
    · exact h.last before n v hv last
    · have count : sh.line = skipline + (n + 1) := by
        rw [Shared.visits, List.length_map] at last
        omega
      rwa [h.level n v hv last, count] at passed
  · rw [visits, same]; exact h.level
  · rw [visits]; exact first
  · rw [visits]; exact fun holds => h.busy (busy holds)

/-- A scan, which only an armed spider makes. -/
theorem Tested.scan (h : Tested conf init skipline sh s) (at_ : s.pc = .scan) (bytes : List Byte) (e : Scan)
    (pc : s'.pc = .pool) (level : s'.level = e.level) :
    Tested conf init skipline (sh.read bytes e) s' := by
  have visits : (sh.read bytes e).visits = sh.visits ++ [(e.level, e.url)] := by
    simp [Shared.visits, Shared.read]
  refine ⟨fun n v hv more => ?_, ?_, fun n v hv last => ?_, ?_, ?_⟩
  · rw [visits, List.length_append, List.length_singleton] at more
    rw [visits, List.getElem?_append_left (by omega)] at hv
    by_cases last : n + 1 = sh.visits.length
    · exact h.last (by simp [armed, at_]) n v hv last
    · exact h.earlier n v hv (by omega)
  · simp [armed, pc]
  · rw [visits, List.length_append, List.length_singleton] at last
    obtain rfl : n = sh.visits.length := by omega
    rw [visits, List.getElem?_concat_length, Option.some_inj] at hv
    rw [level, ← hv]
  · simp [visits]
  · simp [visits]

theorem tested_move (h : Tested conf init skipline sh s) (file : FileInv init skipline sh)
    (m : Move conf init skipline spiders i sh s act sh' s') : Tested conf init skipline sh' s' := by
  have keep := @Tested.keep conf init skipline sh sh' s s' h file.line
  have first := h.first
  cases m with
  | scan at_ r rest => exact h.scan at_ _ _ rfl rfl
  | scanEof at_ none_ =>
    refine keep rfl rfl (by simp [armed]) (fun _ => .inr ?_) (by simp [holding])
    refine none_.imp_left fun blocked => ?_
    simpa [Reader.blocked, Shared.eofSeen] using (Bool.and_eq_true_iff.1 blocked).1
  | write url todo at_ =>
    have holds : holding s = true := by simp [holding, at_]
    exact keep rfl rfl (by simp [armed]) (fun none_ => absurd none_ (h.busy holds)) fun _ => holds
  | limitPassed at_ passed =>
    exact keep rfl rfl (fun _ => .inr passed) (by simpa [at_] using first) (by simp [holding])
  | outer at_ passed =>
    exact keep rfl rfl (fun _ => .inr passed) (by simpa [at_] using first) (by simp [holding])
  | checkpoint at_ =>
    refine keep rfl rfl (fun _ => .inl (by simp [armed, at_])) (fun none_ => .inr ?_) ?_
    · simpa [at_] using first none_
    · cases sfDoCheckpoint sh.line <;> simp [holding]
  | _ =>
    refine keep (by simp) rfl ?_ (fun none_ => ?_) ?_
    · simp_all [armed]
    · simp_all [AtEnd, Shared.unread, Shared.records, Shared.passed]
    · simp_all [holding]

end Moves

theorem reach_tested {C : World → Nat × Act → Prop}
    (h : Reach (step conf) C (start sticky init skipline [level]) c) :
    ∃ s, c.spiders = [s] ∧ Tested conf init skipline c.shared s := by
  refine moves_one h ?_ fun c s act sh' s' reached _ inv _ m => tested_move inv (reach_file reached) m
  obtain ⟨table, -, shared⟩ := start_shared sticky init skipline [level]
  have none_ : (start sticky init skipline [level]).shared.visits = [] := by simp [shared, Shared.visits]
  refine ⟨?_, ?_, ?_, fun _ => .inl rfl, ?_⟩
  · simp [none_]
  · simp [none_]
  · simp [none_]
  · simp [startSpider, holding]

/-- **The scans of a single spider are a reading of its worklist that stops at the limits.** -/
theorem reads_of_crawls (h : Crawls links sticky conf init skipline level c) :
    Reads (visitOrder sticky links init (skipped init skipline)) (stopsAt conf skipline)
      c.shared.visits := by
  obtain ⟨s, -, pre, progress⟩ := reach_progress h
  obtain ⟨_, -, tested⟩ := reach_tested h
  refine ⟨fun n v hv => ?_, tested.earlier⟩
  rw [Shared.visits, List.getElem?_map, Option.map_eq_some_iff] at hv
  obtain ⟨e, he, rfl⟩ := hv
  obtain ⟨r, here, level, url⟩ := progress.scanned (reach_file h) he
  have read : readOrder sticky links init (skipped init skipline) n = some r := by
    cases sticky with
    | false => exact here
    | true =>
      have inside := (List.getElem?_eq_some_iff.1 he).1
      obtain ⟨r', late⟩ := Option.ne_none_iff_exists'.1
        ((reach_marked h).scanned (reach_sticky h) n inside)
      exact late.trans ((lateItem_item late).symm.trans here)
  rw [visitOrder, read, Option.map_some, level, url]

/-- The order of the worklist ends where a scan finds nothing. -/
theorem order_ends (h : Crawls links sticky conf init skipline level c) {s : Spider}
    (one : c.spiders = [s]) (free : holding s = false) (atEnd : AtEnd init skipline c.shared) :
    visitOrder sticky links init (skipped init skipline) c.shared.visits.length = none := by
  obtain ⟨t, one', pre, progress⟩ := reach_progress h
  obtain rfl : s = t := by simpa [one] using one'
  rw [visitOrder, Option.map_eq_none_iff, visits_length]
  cases sticky with
  | true =>
    rcases atEnd with blocked | nothing
    · exact (reach_marked h).behind blocked
    · exact progress.late_end free nothing
  | false =>
    have open_ : c.shared.reader.blocked = false := by
      rw [Reader.blocked, reach_sticky h]
      rfl
    have past := List.drop_eq_nil_iff.1 (atEnd.resolve_left (by simp [open_]))
    rw [progress.drained free, Shared.passed] at past
    exact List.getElem?_eq_none past

/-- A spider that has left because it had seen the end of the file would find nothing. -/
theorem atEnd_of_left (h : Crawls links sticky conf init skipline level c) {s : Spider}
    (one : c.spiders = [s]) (left : s.pc = .left false) : AtEnd init skipline c.shared := by
  cases sticky with
  | true =>
    have inv := (reach_allEof h.any).each 0 s (by rw [one]; rfl)
    have seen := (inv.raised (.inl (inv.gone left))).resolve_left (by simp [Stopping, left])
    left
    rw [Reader.blocked, reach_sticky h, seen.eof]
    rfl
  | false =>
    refine .inr (unread_of_left (by simp) h.any fun t ht => ?_)
    rw [one, List.mem_singleton] at ht
    exact ht ▸ left

/-- **A spider that has left has read to the end or reached a limit.** -/
theorem ends_of_left (h : Crawls links sticky conf init skipline level c) (left : c.Left) :
    Ends (visitOrder sticky links init (skipped init skipline)) (stopsAt conf skipline)
      c.shared.visits := by
  obtain ⟨s, one, tested⟩ := reach_tested h
  have here : c.spiders[0]? = some s := by rw [one]; rfl
  obtain ⟨byLimit, gone⟩ := left s (by simp [one])
  have ends := order_ends h one (by simp [holding, gone])
  cases byLimit with
  | false => exact .inl (ends (atEnd_of_left h one gone))
  | true =>
    cases last : c.shared.visits.length with
    | zero =>
      have first := tested.first (List.length_eq_zero_iff.1 last)
      exact .inl (ends (first.resolve_left (by simp [gone])))
    | succ n =>
      obtain ⟨v, hv⟩ : ∃ v, c.shared.visits[n]? = some v :=
        ⟨_, List.getElem?_eq_getElem (by omega)⟩
      have reached := (reach_depth h 0 s here).left gone
      have line : c.shared.line = skipline + (n + 1) := by
        have counted := (reach_file h).line
        rw [visits_length] at last
        omega
      refine .inr ⟨n, v, hv, last.symm, ?_⟩
      rw [stopsAt, ← tested.level n v hv last.symm, ← line]
      exact reached

/-! ## That it goes on -/

/-- What an environment does in which nothing fails. -/
def serve (links : CString → List Url) (s : Spider) : Act :=
  match s.pc with
  | .pool => .pool true
  | .fetch => .page true (links s.url)
  | _ => .tick

/-- `n` steps of the spider 0 in such an environment, or fewer if it leaves. -/
def onward (conf : Conf) (links : CString → List Url) : Nat → World → World
  | 0, c => c
  | n + 1, c =>
    match c.spiders[0]?.bind fun s => step conf c (0, serve links s) with
    | none => c
    | some c' => onward conf links n c'

/-- More than the number of steps that a spider so served takes to its next scan. -/
def rank (links : CString → List Url) (s : Spider) : Nat :=
  match s.pc with
  | .left _ => 0
  | .allEof k => if s.eof then 1 + (1 - k) else 6
  | .outer => if s.eof then 3 else 7
  | .sawEof | .setEof => 4
  | .scan => 5
  | .save => 6
  | .checkpoint => 7
  | .limit => 8
  | .policies => 9
  | .links todo => 10 + 2 * todo.length
  | .write _ todo => 11 + 2 * todo.length
  | .fetch => 11 + 2 * (links s.url).length
  | .clear => 12 + 2 * (links s.url).length
  | .pool => 13 + 2 * (links s.url).length

theorem serve_consistent {s : Spider} (here : c.spiders[0]? = some s) :
    Consistent links conf c (0, serve links s) := by
  intro t found ht yielded
  obtain rfl : s = t := Option.some.inj (here.symm.trans ht)
  unfold serve at yielded
  split at yielded
  · simp [yields] at yielded
  · simpa [yields] using yielded.symm
  · simp [yields] at yielded

theorem onward_reach (conf : Conf) (links : CString → List Url) (n : Nat) (c : World) :
    Reach (step conf) (Consistent links conf) c (onward conf links n c) := by
  induction n generalizing c with
  | zero => exact .start
  | succ n ih =>
    unfold onward
    split
    · exact .start
    · rename_i c' taken
      obtain ⟨s, here, taken⟩ := Option.bind_eq_some_iff.1 taken
      exact (Reach.one (serve_consistent here) taken).trans (ih c')

theorem serve_step {s : Spider} (one : c.spiders = [s]) (going : ∀ b, s.pc ≠ .left b) :
    (step conf c (0, serve links s)).isSome := by
  simp only [step, one, List.getElem?_cons_zero, Option.isSome_map]
  cases at_ : s.pc with
  | left b => exact absurd at_ (going b)
  | links todo => cases todo <;> simp [spiderStep, serve, at_]
  | allEof k =>
    simp only [spiderStep, serve, at_]
    split <;> rfl
  | _ => simp [spiderStep, serve, at_]

/-- A spider that is served comes nearer to its next scan, or scans. -/
theorem move_rank {sh sh' : Shared} {s s' : Spider} {act : Act} (served : act = serve links s)
    (m : Move conf init skipline [s] 0 sh s act sh' s') :
    rank links s' < rank links s ∨ sh.visits.length < sh'.visits.length := by
  cases m with
  | scan at_ r rest pos => exact .inr (by simp [Shared.visits, Shared.read])
  | poolFailed at_ => simp [serve, at_] at served
  | fetchFailed at_ => simp [serve, at_] at served
  | fetch at_ ok found =>
    left
    obtain ⟨-, rfl⟩ : ok = true ∧ found = links s.url := by simpa [serve, at_] using served
    simp [rank, at_]
  | offerNew url todo at_ =>
    left
    simp only [rank, at_, List.length_cons]
    omega
  | otherEof k other at_ here eof =>
    left
    obtain ⟨rfl, rfl⟩ : k = 0 ∧ s = other := by
      rw [List.getElem?_singleton] at here
      split at here <;> simp_all
    simp [rank, at_, eof]
  | checkpoint at_ =>
    left
    cases sfDoCheckpoint sh.line <;> simp [rank, at_]
  | leaveByLimit at_ =>
    left
    simp only [rank, at_]
    split <;> omega
  | leaveByEof k at_ =>
    left
    simp only [rank, at_]
    split <;> omega
  | outer at_ =>
    left
    cases eof : s.eof <;> simp [rank, at_, eof]
  | otherBusy k other at_ here eof =>
    left
    obtain ⟨rfl, rfl⟩ : k = 0 ∧ s = other := by
      rw [List.getElem?_singleton] at here
      split at here <;> simp_all
    simp [rank, at_, eof]
  | _ => exact .inl (by simp_all [rank])

/-- **A spider that is served scans again or leaves.** -/
theorem onward_scans (h : Crawls links sticky conf init skipline level c) :
    ∃ n, (onward conf links n c).Left ∨
      c.shared.visits.length < (onward conf links n c).shared.visits.length := by
  obtain ⟨s, one, -⟩ := reach_progress h
  induction nearer : rank links s using Nat.strongRecOn generalizing c s with
  | _ m ih =>
    by_cases gone : ∃ b, s.pc = .left b
    · refine ⟨0, .inl fun t ht => ?_⟩
      rw [onward, one, List.mem_singleton] at ht
      exact ht ▸ gone
    · have possible : (step conf c (0, serve links s)).isSome :=
        serve_step one fun b at_ => gone ⟨b, at_⟩
      obtain ⟨c', taken⟩ := Option.isSome_iff_exists.1 possible
      have here : c.spiders[0]? = some s := by rw [one]; rfl
      have next : ∀ n, onward conf links (n + 1) c = onward conf links n c' := by
        intro n
        simp only [onward, here, Option.bind_some, taken]
      have reached : Crawls links sticky conf init skipline level c' :=
        .next h (serve_consistent here) taken
      obtain ⟨t, sh', s', ht, moved, rfl⟩ := step_cases (reach_file h) taken
      obtain rfl : s = t := Option.some.inj (here.symm.trans ht)
      rw [one] at moved
      rcases move_rank rfl moved with closer | scans
      · have one' : c.spiders.set 0 s' = [s'] := by rw [one]; rfl
        obtain ⟨n, ends⟩ := ih _ (nearer ▸ closer) reached s' one' rfl
        have grown : c.shared.visits.length ≤ sh'.visits.length := by
          have forward := move_passed moved
          rw [visits_length, visits_length]
          unfold Shared.passed at forward
          omega
        refine ⟨n + 1, ?_⟩
        rw [next]
        exact ends.imp_right (Nat.lt_of_le_of_lt grown)
      · exact ⟨1, .inr (by rw [next]; exact scans)⟩

/-- **A run can always be continued until it leaves or has made any number of scans.** -/
theorem crawls_onward (sticky : Bool) (links : CString → List Url) (conf : Conf) (init : List Record)
    (skipline level : Int) (n : Nat) :
    ∃ c, Crawls links sticky conf init skipline level c ∧ (c.Left ∨ n ≤ c.shared.visits.length) := by
  induction n with
  | zero => exact ⟨_, .start, .inr (Nat.zero_le _)⟩
  | succ n ih =>
    obtain ⟨c, h, left | enough⟩ := ih
    · exact ⟨c, h, .inl left⟩
    · obtain ⟨m, ends⟩ := onward_scans h
      exact ⟨_, h.trans (onward_reach conf links m c), ends.imp_right (Nat.lt_of_le_of_lt enough)⟩

end SpiderFrame.Crawl
