import SpiderFrame.Crawl.Spider

/-!
# What a step can do

On a file of well-formed records a step is one of the moves of `Move`, which speaks of
records and no longer of bytes: a scan takes the first unread record whole, or finds none.
`FileInv` ties the bytes of `url.txt`, the position of the reader, the counter and the log
of scans to the list of records; every move keeps it. `moves` is the induction rule that
the results about runs use.
-/

namespace SpiderFrame.Crawl
open SpiderFrame.Base SpiderFrame.Queue

section Records

variable (init : List Record) (skipline : Int) (sh : Shared)

/-- The records of `url.txt`: those of the start, then those appended. -/
def Shared.records : List Record := init ++ sh.log.appended.map Prod.snd

/-- The number of records that `sf_global_init` skips. -/
def skipped : Nat := min skipline.toNat init.length

/-- The number of records passed by, skipped or scanned. -/
def Shared.passed : Nat := skipped init skipline + sh.log.scanned.length

/-- The records after the reader. -/
def Shared.unread : List Record := (sh.records init).drop (sh.passed init skipline)

end Records

variable {sticky : Bool} {conf : Conf} {init : List Record} {skipline : Int} {levels : List Int}

/-- The file, the reader and the counter in terms of records. -/
structure FileInv (init : List Record) (skipline : Int) (sh : Shared) : Prop where
  file : sh.urlTxt = encodeAll (sh.records init)
  inFile : sh.reader.pos ≤ sh.urlTxt.length
  position : sh.urlTxt.drop sh.reader.pos = encodeAll (sh.unread init skipline)
  within : sh.passed init skipline ≤ (sh.records init).length
  scanned : ∀ n e, sh.log.scanned[n]? = some e → ∃ r,
    (sh.records init)[skipped init skipline + n]? = some r ∧ e.level = r.level ∧ e.url = r.url.str
  line : sh.line = skipline + sh.log.scanned.length

/-- The scan `e` has left the bytes `rest` and has been counted. -/
def Shared.read (sh : Shared) (rest : List Byte) (e : Scan) : Shared :=
  { sh with
    reader := sh.reader.leave sh.urlTxt rest
    line := sh.line + 1
    log.scanned := sh.log.scanned ++ [e] }

/-- A scan has found nothing. -/
def Shared.eofSeen (sh : Shared) : Shared := { sh with reader.eof := true }

@[simp] theorem Shared.eofSeen_log (sh : Shared) : sh.eofSeen.log = sh.log := rfl

/-- The spider `i` has written the record `r`. -/
def Shared.append (sh : Shared) (i : Nat) (r : Record) : Shared :=
  { sh with
    urlTxt := fileSection sh.urlTxt r.level r.url.str
    log.appended := sh.log.appended ++ [(i, r)] }

/-- The moves of the spider `i`. -/
inductive Move (conf : Conf) (init : List Record) (skipline : Int) (spiders : List Spider) (i : Nat)
    (sh : Shared) (s : Spider) : Act → Shared → Spider → Prop
  | scan (at_ : s.pc = .scan) (r : Record) (rest : List Record)
      (next : sh.unread init skipline = r :: rest) (open_ : sh.reader.blocked = false) :
      Move conf init skipline spiders i sh s .tick
        (sh.read (encodeAll rest) ⟨i, r.level, r.url.str⟩)
        { s with
          pc := .pool
          level := r.level
          url := r.url.str
          record := some sh.log.scanned.length }
  | scanEof (at_ : s.pc = .scan)
      (none_ : sh.reader.blocked = true ∨ sh.unread init skipline = []) :
      Move conf init skipline spiders i sh s .tick sh.eofSeen { s with pc := .sawEof }
  | sawEof (at_ : s.pc = .sawEof) :
      Move conf init skipline spiders i sh s .tick sh { s with pc := .outer, eof := true }
  | pool (at_ : s.pc = .pool) :
      Move conf init skipline spiders i sh s (.pool true) sh { s with pc := .clear }
  | poolFailed (at_ : s.pc = .pool) :
      Move conf init skipline spiders i sh s (.pool false)
        { sh with log := finish s false sh.log } { s with pc := .outer }
  | clear (at_ : s.pc = .clear) :
      Move conf init skipline spiders i sh s .tick sh { s with pc := .fetch, eof := false }
  | fetch (at_ : s.pc = .fetch) (ok : Bool) (links : List Url)
      (goesOn : ok = true ∨ conf.urlFeedback = false) :
      Move conf init skipline spiders i sh s (.page ok links) sh { s with pc := .links links }
  | fetchFailed (at_ : s.pc = .fetch) (links : List Url) (feedback : conf.urlFeedback = true) :
      Move conf init skipline spiders i sh s (.page false links)
        { sh with log := finish s false sh.log } { s with pc := .outer }
  | linksDone (at_ : s.pc = .links []) :
      Move conf init skipline spiders i sh s .tick sh { s with pc := .policies }
  | offerNew (url : Url) (todo : List Url) (at_ : s.pc = .links (url :: todo))
      (new : sh.table.seen (fingerprint url.str) = false) :
      Move conf init skipline spiders i sh s .tick
        { sh with table := sh.table.insert url.str, log.offered := sh.log.offered ++ [url] }
        { s with pc := .write url todo }
  | offerKnown (url : Url) (todo : List Url) (at_ : s.pc = .links (url :: todo))
      (known : sh.table.seen (fingerprint url.str) = true) :
      Move conf init skipline spiders i sh s .tick
        { sh with log.offered := sh.log.offered ++ [url] } { s with pc := .links todo }
  | write (url : Url) (todo : List Url) (at_ : s.pc = .write url todo) :
      Move conf init skipline spiders i sh s .tick (sh.append i ⟨s.level + 1, url⟩)
        { s with pc := .links todo }
  | policies (at_ : s.pc = .policies) :
      Move conf init skipline spiders i sh s .tick
        { sh with log := finish s true sh.log } { s with pc := .limit }
  | limitReached (at_ : s.pc = .limit) (reached : limitReached conf s.level sh.line = true) :
      Move conf init skipline spiders i sh s .tick sh { s with pc := .setEof }
  | limitPassed (at_ : s.pc = .limit) (passed : limitReached conf s.level sh.line = false) :
      Move conf init skipline spiders i sh s .tick sh { s with pc := .checkpoint }
  | setEof (at_ : s.pc = .setEof) :
      Move conf init skipline spiders i sh s .tick sh { s with pc := .outer, eof := true }
  | checkpoint (at_ : s.pc = .checkpoint) :
      Move conf init skipline spiders i sh s .tick sh
        { s with pc := if sfDoCheckpoint sh.line then .save else .scan }
  | save (at_ : s.pc = .save) :
      Move conf init skipline spiders i sh s .tick
        { sh with chkpoints := sh.chkpoints ++ [sh.line] } { s with pc := .scan }
  | leaveByLimit (at_ : s.pc = .outer) (reached : limitReached conf s.level sh.line = true) :
      Move conf init skipline spiders i sh s .tick sh { s with pc := .left true }
  | outer (at_ : s.pc = .outer) (passed : limitReached conf s.level sh.line = false) :
      Move conf init skipline spiders i sh s .tick sh { s with pc := .allEof 0 }
  | leaveByEof (k : Nat) (at_ : s.pc = .allEof k) (last : spiders[k]? = none) :
      Move conf init skipline spiders i sh s .tick sh { s with pc := .left false }
  | otherEof (k : Nat) (other : Spider) (at_ : s.pc = .allEof k) (here : spiders[k]? = some other)
      (eof : other.eof = true) :
      Move conf init skipline spiders i sh s .tick sh { s with pc := .allEof (k + 1) }
  | otherBusy (k : Nat) (other : Spider) (at_ : s.pc = .allEof k) (here : spiders[k]? = some other)
      (eof : other.eof = false) :
      Move conf init skipline spiders i sh s .tick sh { s with pc := .scan }

section Inversion

variable {spiders : List Spider} {i : Nat} {sh sh' : Shared} {s s' : Spider} {act : Act}

/-- A scan that finds nothing, at the end of the file or behind a set indicator. -/
theorem scan_eof (inFile : sh.reader.pos ≤ sh.urlTxt.length)
    (nothing : sh.reader.ahead sh.urlTxt = []) :
    sfGlobalScanUrl i sh s = (sh.eofSeen, { s with pc := .sawEof }) := by
  simp only [sfGlobalScanUrl, Queue.sfGlobalScanUrl, Reader.fscanf, nothing, fscanfRecord_nil,
    Reader.leave_nil nothing inFile]
  simp [EOF, Shared.eofSeen]

/-- The next record is read whole. -/
theorem scan_move (file : FileInv init skipline sh) (at_ : s.pc = .scan) :
    Move conf init skipline spiders i sh s .tick (sfGlobalScanUrl i sh s).1
      (sfGlobalScanUrl i sh s).2 := by
  cases open_ : sh.reader.blocked with
  | true =>
    rw [scan_eof file.inFile (Reader.ahead_blocked open_ _)]
    exact .scanEof at_ (.inl open_)
  | false =>
    have ahead : sh.reader.ahead sh.urlTxt = encodeAll (sh.unread init skipline) := by
      rw [Reader.ahead_open open_, file.position]
    cases next : sh.unread init skipline with
    | nil =>
      rw [scan_eof file.inFile (by rw [ahead, next]; rfl)]
      exact .scanEof at_ (.inr next)
    | cons r rest =>
      have moved : Move conf init skipline spiders i sh s .tick _ _ := .scan at_ r rest next open_
      have read := fscanfRecord_cons r rest
      rw [← next, ← ahead] at read
      simpa [sfGlobalScanUrl, Queue.sfGlobalScanUrl, Reader.fscanf, read, EOF, Shared.read]
        using moved

/-- **Every step of a spider is a move.** -/
theorem spiderStep_move (file : FileInv init skipline sh)
    (h : spiderStep conf spiders i sh s act = some (sh', s')) :
    Move conf init skipline spiders i sh s act sh' s' := by
  unfold spiderStep at h
  split at h
  · rename_i at_
    have moved : Move conf init skipline spiders i sh s .tick _ _ := scan_move file at_
    rwa [Option.some.inj h] at moved
  · rename_i at_; cases h; exact .sawEof at_
  · rename_i at_; cases h; exact .pool at_
  · rename_i at_; cases h; exact .poolFailed at_
  · rename_i at_; cases h; exact .clear at_
  · rename_i ok links at_
    split at h
    · rename_i failed
      rw [Bool.and_eq_true, Bool.not_eq_true'] at failed
      obtain ⟨rfl, feedback⟩ := failed
      cases h
      exact .fetchFailed at_ links feedback
    · rename_i fine
      cases h
      refine .fetch at_ ok links ?_
      cases ok <;> simp_all
  · rename_i at_; cases h; exact .linksDone at_
  · rename_i url todo at_
    cases known : sh.table.seen (fingerprint url.str) with
    | false =>
      rw [urlSection_new known] at h
      cases h
      exact .offerNew url todo at_ known
    | true =>
      rw [urlSection_known known] at h
      cases h
      exact .offerKnown url todo at_ known
  · rename_i url todo at_; cases h; exact .write url todo at_
  · rename_i at_; cases h; exact .policies at_
  · rename_i at_
    cases h
    split
    · rename_i reached; exact .limitReached at_ reached
    · rename_i passed; exact .limitPassed at_ (by simpa using passed)
  · rename_i at_; cases h; exact .setEof at_
  · rename_i at_; cases h; exact .checkpoint at_
  · rename_i at_; cases h; exact .save at_
  · rename_i at_
    cases h
    split
    · rename_i reached; exact .leaveByLimit at_ reached
    · rename_i passed; exact .outer at_ (by simpa using passed)
  · rename_i k at_
    split at h
    · rename_i last; cases h; exact .leaveByEof k at_ last
    · rename_i other here
      cases h
      split
      · rename_i eof; exact .otherEof k other at_ here eof
      · rename_i eof; exact .otherBusy k other at_ here (by simpa using eof)
  · cases h

end Inversion

/-! ## The file along a run -/

@[simp] theorem finish_scanned (s : Spider) (b : Bool) (log : Log) :
    (finish s b log).scanned = log.scanned := by
  unfold finish; split <;> rfl

@[simp] theorem finish_appended (s : Spider) (b : Bool) (log : Log) :
    (finish s b log).appended = log.appended := by
  unfold finish; split <;> rfl

@[simp] theorem finish_offered (s : Spider) (b : Bool) (log : Log) :
    (finish s b log).offered = log.offered := by
  unfold finish; split <;> rfl

theorem skipLines_encodeAll (rs : List Record) (n : Nat) :
    skipLines n (encodeAll rs) = encodeAll (rs.drop n) := by
  induction n generalizing rs with
  | zero => rfl
  | succ n ih =>
    cases rs with
    | nil =>
      have rest := ih []
      rw [List.drop_nil] at rest ⊢
      exact rest
    | cons r rs =>
      rw [skipLines, fscanfRecord_cons]
      exact ih rs

/-- What `sf_global_init` leaves, on a file of well-formed records. -/
theorem start_shared (sticky : Bool) (init : List Record) (skipline : Int) (levels : List Int) :
    ∃ table, Holds table (init.map fun r => r.url.str) ∧
      (start sticky init skipline levels).shared =
        { table := table
          urlTxt := encodeAll init
          reader := (Reader.fopen sticky).skip (encodeAll init) skipline.toNat
          line := skipline
          chkpoints := []
          log := ⟨[], [], [], []⟩ } := by
  obtain ⟨table, loaded⟩ := Option.isSome_iff_exists.1 (sfProcInitUrlEntry_encodeAll init .empty)
  obtain ⟨urls, read, holds⟩ := sfProcInitUrlEntry_holds loaded
  rw [loadedUrls_encodeAll init .empty (Nat.lt_succ_self _), Option.some_inj] at read
  refine ⟨table, read ▸ holds, ?_⟩
  simp only [start, sfGlobalInit, loaded, Option.map_some, Option.get_some]

/-- The stream that `sf_global_init` leaves. -/
theorem start_reader (sticky : Bool) (init : List Record) (skipline : Int) (levels : List Int) :
    (start sticky init skipline levels).shared.reader.AtRest (encodeAll init) ∧
      (encodeAll init).drop (start sticky init skipline levels).shared.reader.pos =
        encodeAll (init.drop (skipped init skipline)) := by
  obtain ⟨table, -, shared⟩ := start_shared sticky init skipline levels
  obtain ⟨atRest, behind⟩ := (Reader.atRest_fopen sticky (encodeAll init)).skip skipline.toNat
  have cut : init.drop (skipped init skipline) = init.drop skipline.toNat := by
    unfold skipped
    rcases Nat.le_total skipline.toNat init.length with inside | beyond
    · rw [Nat.min_eq_left inside]
    · rw [Nat.min_eq_right beyond, List.drop_length, List.drop_of_length_le beyond]
  rw [shared, cut, ← skipLines_encodeAll]
  exact ⟨atRest, behind⟩

theorem fileInv_start (sticky : Bool) (init : List Record) (skipline : Int) (levels : List Int) :
    FileInv init skipline (start sticky init skipline levels).shared := by
  obtain ⟨table, -, shared⟩ := start_shared sticky init skipline levels
  obtain ⟨atRest, behind⟩ := start_reader sticky init skipline levels
  have urlTxt : (start sticky init skipline levels).shared.urlTxt = encodeAll init := by rw [shared]
  have records : (start sticky init skipline levels).shared.records init = init := by
    simp [shared, Shared.records]
  have passed : (start sticky init skipline levels).shared.passed init skipline =
      skipped init skipline := by
    simp [shared, Shared.passed]
  refine ⟨?_, ?_, ?_, ?_, fun n e he => ?_, ?_⟩
  · rw [urlTxt, records]
  · rw [urlTxt]
    exact atRest.inFile
  · rw [urlTxt, Shared.unread, records, passed]
    exact behind
  · rw [records, passed]
    exact Nat.min_le_right _ _
  · rw [shared] at he
    cases he
  · rw [shared]
    exact (Int.add_zero skipline).symm

section FileMoves

variable {spiders : List Spider} {i : Nat} {sh sh' : Shared} {s s' : Spider} {act : Act}

/-- The invariant reads the file, the reader, the counter and two of the logs. -/
theorem FileInv.congr (file : FileInv init skipline sh) (urlTxt : sh'.urlTxt = sh.urlTxt)
    (pos : sh'.reader.pos = sh.reader.pos) (line : sh'.line = sh.line)
    (scanned : sh'.log.scanned = sh.log.scanned) (appended : sh'.log.appended = sh.log.appended) :
    FileInv init skipline sh' := by
  have records : sh'.records init = sh.records init := by simp [Shared.records, appended]
  have passed : sh'.passed init skipline = sh.passed init skipline := by
    simp [Shared.passed, scanned]
  have unread : sh'.unread init skipline = sh.unread init skipline := by
    simp [Shared.unread, records, passed]
  refine ⟨?_, ?_, ?_, ?_, ?_, ?_⟩
  · rw [urlTxt, records]; exact file.file
  · rw [urlTxt, pos]; exact file.inFile
  · rw [urlTxt, pos, unread]; exact file.position
  · rw [passed, records]; exact file.within
  · rw [scanned, records]; exact file.scanned
  · rw [line, scanned]; exact file.line

@[simp] theorem records_read (sh : Shared) (bytes : List Byte) (e : Scan) :
    (sh.read bytes e).records init = sh.records init := rfl

@[simp] theorem passed_read (sh : Shared) (bytes : List Byte) (e : Scan) :
    (sh.read bytes e).passed init skipline = sh.passed init skipline + 1 := by
  simp [Shared.passed, Shared.read, Nat.add_assoc]

theorem unread_read (sh : Shared) (bytes : List Byte) (e : Scan) : (sh.read bytes e).unread init skipline =
    (sh.records init).drop (sh.passed init skipline + 1) := by
  simp [Shared.unread]

@[simp] theorem records_append (sh : Shared) (i : Nat) (r : Record) :
    (sh.append i r).records init = sh.records init ++ [r] := by
  simp [Shared.records, Shared.append]

@[simp] theorem passed_append (sh : Shared) (i : Nat) (r : Record) :
    (sh.append i r).passed init skipline = sh.passed init skipline := rfl

theorem unread_append {r : Record} (within : sh.passed init skipline ≤ (sh.records init).length) :
    (sh.append i r).unread init skipline = sh.unread init skipline ++ [r] := by
  simp [Shared.unread, List.drop_append_of_le_length within]

/-- The first unread record stands right after those passed by. -/
theorem unread_cons {r : Record} {rest : List Record} (next : sh.unread init skipline = r :: rest) :
    (sh.records init)[sh.passed init skipline]? = some r ∧
      (sh.records init).drop (sh.passed init skipline + 1) = rest := by
  unfold Shared.unread at next
  constructor
  · rw [← List.head?_drop, next]; rfl
  · rw [← List.tail_drop, next]; rfl

/-- **Every move keeps the file well formed and its reader between two records.** -/
theorem fileInv_move (file : FileInv init skipline sh)
    (m : Move conf init skipline spiders i sh s act sh' s') : FileInv init skipline sh' := by
  cases m with
  | scan at_ r rest next open_ =>
    obtain ⟨here, after⟩ := unread_cons next
    have bound := (List.getElem?_eq_some_iff.1 here).1
    have tail : encodeAll rest <:+ sh.reader.ahead sh.urlTxt := by
      rw [Reader.ahead_open open_, file.position, next, encodeAll_cons]
      exact List.suffix_append _ _
    refine ⟨file.file, Reader.leave_inFile file.inFile _, ?_, ?_, ?_, ?_⟩
    · rw [unread_read, after]
      exact Reader.drop_leave tail open_
    · rw [passed_read, records_read]
      omega
    · intro n e he
      rw [Shared.read, List.getElem?_append] at he
      split at he
      · exact file.scanned n e he
      · rename_i past
        have last : n = sh.log.scanned.length := by
          have := (List.getElem?_eq_some_iff.1 he).1
          simp only [List.length_singleton] at this
          omega
        subst last
        rw [Nat.sub_self, List.getElem?_cons_zero, Option.some_inj] at he
        subst he
        exact ⟨r, here, rfl, rfl⟩
    · have := file.line
      simp only [Shared.read, List.length_append, List.length_singleton]
      omega
  | write url todo at_ =>
    have bytes : fprintfRecord (s.level + 1) url.str = encodeAll [⟨s.level + 1, url⟩] := by
      simp [encodeAll, Record.encode]
    refine ⟨?_, ?_, ?_, ?_, ?_, file.line⟩
    · rw [records_append, encodeAll_append, ← bytes, ← file.file]
      rfl
    · exact Nat.le_trans file.inFile (by simp [Shared.append, fileSection])
    · rw [unread_append file.within, encodeAll_append, ← file.position, ← bytes]
      exact List.drop_append_of_le_length file.inFile
    · rw [records_append, List.length_append]
      exact Nat.le_trans file.within (Nat.le_add_right _ _)
    · intro n e he
      obtain ⟨r, hr, fields⟩ := file.scanned n e he
      refine ⟨r, ?_, fields⟩
      rw [records_append, List.getElem?_append_left (List.getElem?_eq_some_iff.1 hr).1]
      exact hr
  | _ => exact file.congr rfl rfl rfl (by simp) (by simp)

/-- The counter never goes back. -/
theorem move_line (m : Move conf init skipline spiders i sh s act sh' s') : sh.line ≤ sh'.line := by
  cases m with
  | scan at_ => exact Int.le_add_one (Int.le_refl _)
  | _ => exact Int.le_refl _

/-- The reader never goes back. -/
theorem move_passed (m : Move conf init skipline spiders i sh s act sh' s') :
    sh.passed init skipline ≤ sh'.passed init skipline := by
  cases m with
  | scan at_ => rw [passed_read]; exact Nat.le_succ _
  | _ => simp [Shared.passed, Shared.append]

theorem move_sticky (m : Move conf init skipline spiders i sh s act sh' s') :
    sh'.reader.sticky = sh.reader.sticky := by
  cases m with
  | scan at_ => exact Reader.leave_sticky _ _ _
  | _ => rfl

/-- The indicator stays set. -/
theorem move_eof (m : Move conf init skipline spiders i sh s act sh' s')
    (set : sh.reader.eof = true) : sh'.reader.eof = true := by
  cases m with
  | scan at_ => exact Reader.leave_eof set _ _
  | scanEof at_ => rfl
  | _ => exact set

/-- A move writes at most one record, its own. -/
theorem move_appended (m : Move conf init skipline spiders i sh s act sh' s') :
    sh'.log.appended = sh.log.appended ∨
      ∃ url todo, s.pc = .write url todo ∧
        sh'.log.appended = sh.log.appended ++ [(i, ⟨s.level + 1, url⟩)] := by
  cases m with
  | write url todo at_ => exact .inr ⟨url, todo, at_, rfl⟩
  | _ => exact .inl (by simp [Shared.read])

end FileMoves

/-- A spider after a move is the one that moved or another, which is as before. -/
theorem getElem?_set_cases {l : List Spider} {i j : Nat} {s t : Spider}
    (h : (l.set i s)[j]? = some t) : (j = i ∧ t = s) ∨ (j ≠ i ∧ l[j]? = some t) := by
  by_cases own : j = i
  · subst own
    have inside : j < l.length := by simpa using (List.getElem?_eq_some_iff.1 h).1
    rw [List.getElem?_set_self inside, Option.some_inj] at h
    exact .inl ⟨rfl, h.symm⟩
  · rw [List.getElem?_set_ne (Ne.symm own)] at h
    exact .inr ⟨own, h⟩

variable {C : World → Nat × Act → Prop} {c : World}

/-- A step of the crawl is a move of one spider; the others stay as they are. -/
theorem step_cases {act : Nat × Act} {c' : World} (file : FileInv init skipline c.shared)
    (h : step conf c act = some c') :
    ∃ s sh' s', c.spiders[act.1]? = some s ∧
      Move conf init skipline c.spiders act.1 c.shared s act.2 sh' s' ∧
      c' = ⟨sh', c.spiders.set act.1 s'⟩ := by
  unfold step at h
  cases here : c.spiders[act.1]? with
  | none => simp [here] at h
  | some s =>
    simp only [here, Option.map_eq_some_iff] at h
    obtain ⟨⟨sh', s'⟩, taken, rfl⟩ := h
    exact ⟨s, sh', s', rfl, spiderStep_move file taken, rfl⟩

/-- The file of every state reached. -/
theorem reach_file (h : Reach (step conf) C (start sticky init skipline levels) c) :
    FileInv init skipline c.shared :=
  h.invariant (I := fun c => FileInv init skipline c.shared) (fileInv_start sticky init skipline levels)
    fun _ _ _ _ file _ taken => by
      obtain ⟨s, sh', s', -, m, rfl⟩ := step_cases file taken
      exact fileInv_move file m

/-- **What holds at the start and is kept by every move holds of every state reached.** -/
theorem moves {I : World → Prop} (h : Reach (step conf) C (start sticky init skipline levels) c)
    (first : I (start sticky init skipline levels))
    (kept : ∀ c i act s sh' s', Reach (step conf) C (start sticky init skipline levels) c → I c →
      C c (i, act) → c.spiders[i]? = some s →
      Move conf init skipline c.spiders i c.shared s act sh' s' →
      I ⟨sh', c.spiders.set i s'⟩) : I c :=
  h.invariant first fun c act c' reached inv allowed taken => by
    obtain ⟨s, sh', s', here, m, rfl⟩ := step_cases (reach_file reached) taken
    exact kept c act.1 act.2 s sh' s' reached inv allowed here m

/-- The kind of the library stays. -/
theorem reach_sticky (h : Reach (step conf) C (start sticky init skipline levels) c) :
    c.shared.reader.sticky = sticky := by
  refine moves (I := fun c => c.shared.reader.sticky = sticky) h ?_
    fun c i act s sh' s' _ same _ _ m => (move_sticky m).trans same
  obtain ⟨table, -, shared⟩ := start_shared sticky init skipline levels
  rw [shared]
  exact Reader.skip_sticky _ _

end SpiderFrame.Crawl
