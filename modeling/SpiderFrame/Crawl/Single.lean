import SpiderFrame.Base.Worklist
import SpiderFrame.Crawl.Account

/-!
# One spider

A single spider, whose pages are a fixed function of their URLs, works off `url.txt` as a
worklist: it scans a record, offers the links of its page, and goes on to the next one. The
table of URLs stands for the keys of the worklist. It was loaded from the file when the
process was started and is never compared with the file again, so `Progress` ties the two
together, also between the two sections of `sf_proc_insert_url`, when the table is ahead.
-/

namespace SpiderFrame.Crawl
open SpiderFrame.Base SpiderFrame.Base.Worklist SpiderFrame.Queue

/-- What the table knows a record by. -/
def recordKey (r : Record) : Fingerprint := fingerprint r.url.str

section

variable (links : CString → List Url)

/-- The records that the page of a record offers. -/
def offers (r : Record) : List Record := (links r.url.str).map (Record.mk (r.level + 1))

/-- The record that a spider, started at record `b` of `init`, scans after `n` others. -/
abbrev scanOrder (init : List Record) (b n : Nat) : Option Record :=
  item recordKey (offers links) init b n

/-- What a page yields, if the step decides it: nothing when the page is given up. -/
def yields (conf : Conf) : Act → Option (List Url)
  | .tick | .pool true => none
  | .pool false => some []
  | .page ok found => some (if !ok && conf.urlFeedback then [] else found)

/-- The page of a URL yields the links of the URL. -/
def Consistent (conf : Conf) (c : World) (act : Nat × Act) : Prop :=
  ∀ s found, c.spiders[act.1]? = some s → yields conf act.2 = some found → found = links s.url

/-- The states of a single spider in a run in which every URL has its fixed list of links. -/
abbrev Crawls (sticky : Bool) (conf : Conf) (init : List Record) (skipline level : Int)
    (c : World) : Prop :=
  Reach (step conf) (Consistent links conf) (start sticky init skipline [level]) c

/-- The links of the record in hand that are not yet in the file, as far as the spider goes. -/
def remaining (s : Spider) : List Url :=
  match s.pc with
  | .pool | .clear | .fetch => links s.url
  | .links todo => todo
  | .write url todo => url :: todo
  | _ => []

end

/-- The URL that is in the table and not yet in the file. -/
def writing (s : Spider) : Option Url :=
  match s.pc with
  | .write url _ => some url
  | _ => none

theorem writing_of_free {s : Spider} (free : holding s = false) : writing s = none := by
  unfold writing
  split
  · simp_all [holding]
  · rfl

@[simp] theorem recordKey_mk (level : Int) (url : Url) :
    recordKey ⟨level, url⟩ = fingerprint url.str := rfl

/-- The file is a stage of the worklist, with the links `pre` of the record in hand; the table
has the keys of the file and of the URL that is being written. -/
structure Progress (links : CString → List Url) (init : List Record) (b : Nat) (sh : Shared)
    (s : Spider) (pre : List Record) : Prop where
  stage : Stage recordKey (offers links) init b sh.log.ended.length pre (sh.records init)
  scans : sh.log.scanned.length = sh.log.ended.length + (holding s).toNat
  busy : holding s = true → ∃ r, scanOrder links init b sh.log.ended.length = some r ∧
    s.level = r.level ∧ s.url = r.url.str ∧
    offers links r = pre ++ (remaining links s).map (Record.mk (r.level + 1))
  idle : holding s = false → pre = []
  seen : ∀ q, sh.table.seen q = true ↔
    q ∈ (sh.records init).map recordKey ∨ ∃ u, writing s = some u ∧ q = fingerprint u.str
  fresh : ∀ u, writing s = some u →
    fingerprint u.str ∉ (sh.records init).map recordKey ∧ u ∈ sh.log.offered
  offered : ∀ n r, n < sh.log.ended.length → scanOrder links init b n = some r →
    ∀ u ∈ links r.url.str, u ∈ sh.log.offered
  pushed : ∀ x ∈ pre, x.url ∈ sh.log.offered

variable {sticky : Bool} {conf : Conf} {links : CString → List Url} {init : List Record}
  {skipline level : Int}
  {b : Nat} {pre : List Record} {c : World}

section Moves

variable {sh sh' : Shared} {s s' : Spider}

/-- A move that leaves the table, the log and the work in hand as they are. -/
theorem Progress.keep (h : Progress links init b sh s pre) (table : sh'.table = sh.table)
    (log : sh'.log = sh.log) (holds : holding s' = holding s)
    (fields : s'.level = s.level ∧ s'.url = s.url) (todo : remaining links s' = remaining links s)
    (write : writing s' = writing s) : Progress links init b sh' s' pre := by
  have records : sh'.records init = sh.records init := by simp only [Shared.records, log]
  refine ⟨?_, ?_, ?_, ?_, ?_, ?_, ?_, ?_⟩
  · rw [records, log]; exact h.stage
  · rw [log, holds]; exact h.scans
  · rw [holds, log, fields.1, fields.2, todo]; exact h.busy
  · rw [holds]; exact h.idle
  · rw [table, records, write]; exact h.seen
  · rw [write, records, log]; exact h.fresh
  · rw [log]; exact h.offered
  · rw [log]; exact h.pushed

/-- The record in hand, with the next of its links. -/
theorem Progress.hand (h : Progress links init b sh s pre) (holds : holding s = true) {url : Url}
    {todo : List Url} (next : remaining links s = url :: todo) :
    ∃ r, scanOrder links init b sh.log.ended.length = some r ∧ s.level = r.level ∧
      s.url = r.url.str ∧
      offers links r = (pre ++ [⟨s.level + 1, url⟩]) ++ todo.map (Record.mk (r.level + 1)) := by
  obtain ⟨r, here, level, str, split⟩ := h.busy holds
  refine ⟨r, here, level, str, ?_⟩
  rw [split, next, level]
  simp

/-- The next record is taken in hand. -/
theorem Progress.scan (h : Progress links init b sh s pre) (free : holding s = false) {r : Record}
    (here : (sh.records init)[b + sh.log.scanned.length]? = some r) (bytes : List Byte) (e : Scan)
    (pc : s'.pc = .pool) (level : s'.level = r.level) (url : s'.url = r.url.str) :
    Progress links init b (sh.read bytes e) s' pre := by
  have none_ := h.idle free
  have count : sh.log.scanned.length = sh.log.ended.length := by simpa [free] using h.scans
  have same : writing s' = writing s := by
    rw [writing_of_free free]
    simp [writing, pc]
  refine ⟨h.stage, ?_, fun _ => ⟨r, ?_, level, url, ?_⟩, ?_, ?_, ?_, h.offered, h.pushed⟩
  · simp [Shared.read, holding, pc, count]
  · rw [count] at here
    exact (h.stage.item_eq (Nat.le_refl _)).trans here
  · simp [none_, offers, remaining, pc, url]
  · simp [holding, pc]
  · rw [same]; exact h.seen
  · rw [same]; exact h.fresh

/-- A link whose fingerprint is in the table. -/
theorem Progress.known (h : Progress links init b sh s pre) {url : Url} {todo : List Url}
    (at_ : s.pc = .links (url :: todo)) (known : sh.table.seen (fingerprint url.str) = true) :
    Progress links init b { sh with log.offered := sh.log.offered ++ [url] }
      { s with pc := .links todo } (pre ++ [⟨s.level + 1, url⟩]) := by
  have holds : holding s = true := by simp [holding, at_]
  have next : remaining links s = url :: todo := by simp [remaining, at_]
  obtain ⟨r, here, level, str, split⟩ := h.hand holds next
  have inFile : recordKey ⟨s.level + 1, url⟩ ∈ (sh.records init).map recordKey := by
    have found := (h.seen (fingerprint url.str)).1 known
    rw [show writing s = none by simp [writing, at_]] at found
    rw [recordKey_mk]
    exact found.resolve_right (by simp)
  have stage := h.stage.push here ⟨_, split.symm⟩
  rw [push_known inFile] at stage
  refine ⟨stage, ?_, fun _ => ⟨r, here, level, str, split⟩, ?_, ?_, ?_, ?_, ?_⟩
  · simpa [holding, at_] using h.scans
  · simp [holding]
  · simpa [writing, at_, Shared.records] using h.seen
  · simp [writing]
  · intro n r hn hr u hu
    exact List.mem_append_left _ (h.offered n r hn hr u hu)
  · intro x hx
    rcases List.mem_append.1 hx with old | new
    · exact List.mem_append_left _ (h.pushed x old)
    · rw [List.mem_singleton.1 new]
      exact List.mem_append_right _ (List.mem_singleton.2 rfl)

/-- A link whose fingerprint is new goes into the table. -/
theorem Progress.new (h : Progress links init b sh s pre) {url : Url} {todo : List Url}
    (at_ : s.pc = .links (url :: todo)) (new : sh.table.seen (fingerprint url.str) = false) :
    Progress links init b
      { sh with table := sh.table.insert url.str, log.offered := sh.log.offered ++ [url] }
      { s with pc := .write url todo } pre := by
  have holds : holding s = true := by simp [holding, at_]
  have none_ : writing s = none := by simp [writing, at_]
  have notInFile : fingerprint url.str ∉ (sh.records init).map recordKey := by
    intro inFile
    have found := (h.seen _).2 (.inl inFile)
    rw [new] at found
    cases found
  refine ⟨h.stage, ?_, ?_, ?_, fun q => ?_, ?_, ?_, ?_⟩
  · simpa [holding, at_] using h.scans
  · simpa [holding, remaining, at_] using h.busy
  · simp [holding]
  · have old := h.seen q
    rw [none_] at old
    rw [UrlTable.seen_insert, old]
    simp [writing, Shared.records, or_comm]
  · intro u hu
    obtain rfl : url = u := by simpa [writing] using hu
    exact ⟨notInFile, List.mem_append_right _ (List.mem_singleton.2 rfl)⟩
  · intro n r hn hr u hu
    exact List.mem_append_left _ (h.offered n r hn hr u hu)
  · intro x hx
    exact List.mem_append_left _ (h.pushed x hx)

/-- The new link goes into the file. -/
theorem Progress.write (h : Progress links init b sh s pre) {i : Nat} {url : Url} {todo : List Url}
    (at_ : s.pc = .write url todo) :
    Progress links init b (sh.append i ⟨s.level + 1, url⟩) { s with pc := .links todo }
      (pre ++ [⟨s.level + 1, url⟩]) := by
  have holds : holding s = true := by simp [holding, at_]
  have this_ : writing s = some url := by simp [writing, at_]
  have next : remaining links s = url :: todo := by simp [remaining, at_]
  obtain ⟨r, here, level, str, split⟩ := h.hand holds next
  obtain ⟨notInFile, known⟩ := h.fresh url this_
  rw [← recordKey_mk (s.level + 1)] at notInFile
  have stage := h.stage.push here ⟨_, split.symm⟩
  rw [push_new notInFile, ← records_append sh i] at stage
  refine ⟨stage, ?_, fun _ => ⟨r, here, level, str, split⟩, ?_, fun q => ?_, ?_, h.offered, ?_⟩
  · simpa [holding, at_, Shared.append] using h.scans
  · simp [holding]
  · have old := h.seen q
    rw [this_] at old
    rw [records_append, List.map_append, List.mem_append]
    simpa [writing, recordKey, Shared.append] using old
  · simp [writing]
  · intro x hx
    rcases List.mem_append.1 hx with old | new
    · exact h.pushed x old
    · rw [List.mem_singleton.1 new]
      exact known

/-- The record in hand is done with. -/
theorem Progress.done (h : Progress links init b sh s pre) (holds : holding s = true)
    (all : remaining links s = []) (none_ : writing s = none) {processed : Bool} {n : Nat}
    (record : s.record = some n) (free : holding s' = false) :
    Progress links init b { sh with log := finish s processed sh.log } s' [] := by
  obtain ⟨r, here, -, -, split⟩ := h.busy holds
  rw [all, List.map_nil, List.append_nil] at split
  have count : (finish s processed sh.log).ended.length = sh.log.ended.length + 1 := by
    simp [finish, record]
  have same := writing_of_free free
  have records : Shared.records init { sh with log := finish s processed sh.log } =
      sh.records init := by simp [Shared.records]
  refine ⟨?_, ?_, ?_, fun _ => rfl, ?_, ?_, ?_, by simp⟩
  · rw [records]
    exact count ▸ h.stage.next here split
  · simpa [count, free, holds] using h.scans
  · rw [free]
    exact fun no => by cases no
  · rw [records, same, ← none_]
    exact h.seen
  · rw [same]
    exact fun _ no => by cases no
  · intro n r' hn hr u hu
    rw [finish_offered]
    rcases Nat.lt_succ_iff_lt_or_eq.1 (count ▸ hn) with before | rfl
    · exact h.offered n r' before hr u hu
    · obtain rfl : r = r' := Option.some.inj (here.symm.trans hr)
      exact h.pushed ⟨r.level + 1, u⟩ (split ▸ List.mem_map_of_mem hu)

end Moves

/-- **Every consistent move of the one spider is progress.** -/
theorem progress_move {spiders : List Spider} {i : Nat} {sh sh' : Shared} {s s' : Spider} {act : Act}
    (h : Progress links init (skipped init skipline) sh s pre)
    (known : holding s = true → ∃ n, s.record = some n)
    (consistent : ∀ found, yields conf act = some found → found = links s.url)
    (m : Move conf init skipline spiders i sh s act sh' s') :
    ∃ pre', Progress links init (skipped init skipline) sh' s' pre' := by
  have moved : ∀ {pc eof}, holding { s with pc := pc, eof := eof } = holding s ∧
      remaining links { s with pc := pc, eof := eof } = remaining links s ∧
      writing { s with pc := pc, eof := eof } = writing s →
      ∃ pre', Progress links init (skipped init skipline) sh { s with pc := pc, eof := eof } pre' :=
    fun ⟨holds, todo, write⟩ => ⟨pre, h.keep rfl rfl holds ⟨rfl, rfl⟩ todo write⟩
  cases m with
  | scan at_ r rest next =>
    exact ⟨pre, h.scan (by simp [holding, at_]) (unread_cons next).1 _ _ rfl rfl rfl⟩
  | poolFailed at_ =>
    have none_ := consistent [] rfl
    obtain ⟨n, record⟩ := known (by simp [holding, at_])
    exact ⟨[], h.done (by simp [holding, at_]) (by simp [remaining, at_, ← none_])
      (by simp [writing, at_]) record rfl⟩
  | fetch at_ ok found goesOn =>
    have page : found = links s.url := by
      apply consistent found
      rcases goesOn with rfl | off
      · simp [yields]
      · simp [yields, off]
    exact moved (by simp [holding, remaining, writing, at_, page])
  | fetchFailed at_ found feedback =>
    have none_ := consistent [] (by simp [yields, feedback])
    obtain ⟨n, record⟩ := known (by simp [holding, at_])
    exact ⟨[], h.done (by simp [holding, at_]) (by simp [remaining, at_, ← none_])
      (by simp [writing, at_]) record rfl⟩
  | offerNew url todo at_ new => exact ⟨_, h.new at_ new⟩
  | offerKnown url todo at_ seen => exact ⟨_, h.known at_ seen⟩
  | write url todo at_ => exact ⟨_, h.write at_⟩
  | policies at_ =>
    obtain ⟨n, record⟩ := known (by simp [holding, at_])
    exact ⟨[], h.done (by simp [holding, at_]) (by simp [remaining, at_]) (by simp [writing, at_])
      record rfl⟩
  | scanEof at_ =>
    exact ⟨pre, h.keep rfl rfl (by simp [holding, at_]) ⟨rfl, rfl⟩ (by simp [remaining, at_])
      (by simp [writing, at_])⟩
  | sawEof at_ => exact moved (by simp [holding, remaining, writing, at_])
  | pool at_ => exact moved (by simp [holding, remaining, writing, at_])
  | clear at_ => exact moved (by simp [holding, remaining, writing, at_])
  | linksDone at_ => exact moved (by simp [holding, remaining, writing, at_])
  | limitReached at_ => exact moved (by simp [holding, remaining, writing, at_])
  | limitPassed at_ => exact moved (by simp [holding, remaining, writing, at_])
  | setEof at_ => exact moved (by simp [holding, remaining, writing, at_])
  | checkpoint at_ =>
    apply moved
    cases sfDoCheckpoint sh.line <;> simp [holding, remaining, writing, at_]
  | save at_ =>
    exact ⟨pre, h.keep rfl rfl (by simp [holding, at_]) ⟨rfl, rfl⟩ (by simp [remaining, at_])
      (by simp [writing, at_])⟩
  | leaveByLimit at_ => exact moved (by simp [holding, remaining, writing, at_])
  | outer at_ => exact moved (by simp [holding, remaining, writing, at_])
  | leaveByEof k at_ => exact moved (by simp [holding, remaining, writing, at_])
  | otherEof k other at_ => exact moved (by simp [holding, remaining, writing, at_])
  | otherBusy k other at_ => exact moved (by simp [holding, remaining, writing, at_])

theorem progress_start (links : CString → List Url) (init : List Record) (skipline level : Int) :
    Progress links init (skipped init skipline) (start sticky init skipline [level]).shared
      (startSpider level) [] := by
  obtain ⟨table, holds, shared⟩ := start_shared sticky init skipline [level]
  rw [shared]
  refine ⟨?_, ?_, ?_, ?_, fun q => ?_, ?_, ?_, ?_⟩
  · simpa [Shared.records] using Stage.first init (skipped init skipline)
  · simp [startSpider, holding]
  · simp [startSpider, holding]
  · exact fun _ => rfl
  · rw [holds q]
    simp [startSpider, writing, Shared.records, recordKey, Function.comp_def]
  · simp [startSpider, writing]
  · simp
  · simp

/-- `moves`, for a single spider. -/
theorem moves_one {C : World → Nat × Act → Prop} {I : Shared → Spider → Prop}
    (h : Reach (step conf) C (start sticky init skipline [level]) c)
    (first : I (start sticky init skipline [level]).shared (startSpider level))
    (kept : ∀ c s act sh' s', Reach (step conf) C (start sticky init skipline [level]) c →
      c.spiders[0]? = some s → I c.shared s → C c (0, act) →
      Move conf init skipline c.spiders 0 c.shared s act sh' s' → I sh' s') :
    ∃ s, c.spiders = [s] ∧ I c.shared s := by
  refine moves (I := fun c => ∃ s, c.spiders = [s] ∧ I c.shared s) h ⟨_, rfl, first⟩ ?_
  rintro c i act t sh' s' reached ⟨s, one, inv⟩ allowed here m
  obtain ⟨rfl, rfl⟩ : i = 0 ∧ s = t := by
    rw [one, List.getElem?_singleton] at here
    split at here <;> simp_all
  exact ⟨s', by rw [one]; rfl, kept c s act sh' s' reached here inv allowed m⟩

/-- **The state of a single spider is a stage of its worklist.** -/
theorem reach_progress (h : Crawls links sticky conf init skipline level c) :
    ∃ s, c.spiders = [s] ∧ ∃ pre, Progress links init (skipped init skipline) c.shared s pre := by
  refine moves_one (I := fun sh s => ∃ pre, Progress links init (skipped init skipline) sh s pre) h
    ⟨[], progress_start links init skipline level⟩ ?_
  rintro c s act sh' s' reached here ⟨pre, inv⟩ consistent m
  have known := (reach_account reached).known 0 s here
  exact progress_move inv known (fun found => consistent s found here) m

/-- The scans so far are the first records in the order of the worklist. -/
theorem Progress.scanned {sh : Shared} {s : Spider}
    (h : Progress links init (skipped init skipline) sh s pre) (file : FileInv init skipline sh)
    {n : Nat} {e : Scan} (he : sh.log.scanned[n]? = some e) :
    ∃ r, scanOrder links init (skipped init skipline) n = some r ∧ e.level = r.level ∧
      e.url = r.url.str := by
  obtain ⟨r, here, fields⟩ := file.scanned n e he
  have inside := (List.getElem?_eq_some_iff.1 he).1
  have count := h.scans
  have atMost : (holding s).toNat ≤ 1 := Bool.toNat_le _
  exact ⟨r, (h.stage.item_eq (by omega)).trans here, fields⟩

end SpiderFrame.Crawl
