import SpiderFrame.Page.Trace

/-!
# Reading any `url.txt` (`sf_proc.c`, `main.c`)

The loops that read `url.txt` go on until `fscanf` returns `EOF`. On a byte that cannot begin a record
it returns 0 and takes nothing, and behind a level without a URL it returns 1; the loops and
`sf_global_scan_url` take that for a record. `queue_reads_iff` says that reading goes well if and only
if the file consists of full records.
-/

namespace SpiderFrame.Page
open SpiderFrame.Base SpiderFrame.Queue SpiderFrame.Crawl

variable {Re : Type}

/-- A call of `sf_global_scan_url` on these bytes that does not return `EOF` takes one of them at
least, and has stored the level and the URL that it hands on. -/
def ReadsFresh (bs : List Byte) : Prop :=
  (fscanfRecord bs).rc ≠ EOF →
    (fscanfRecord bs).rest.length < bs.length ∧ (fscanfRecord bs).level.isSome ∧
      (fscanfRecord bs).url.isSome

/-- `sf_proc_output_unparse` comes to the end of its second loop, behind `n` records. -/
def UnparseEnds (content : List Byte) (n : Nat) (url : CString) (w : World Re) : Prop :=
  ∃ fuel, (unparseLoop fuel (skipRecords n url content).1 (skipRecords n url content).2 w).2.isSome

/-- The loops over the file end, and so goes each call of `sf_global_scan_url`, the stream standing
where the calls before have left it. -/
structure QueueReads (Re : Type) (content : List Byte) : Prop where
  loads : ∀ garbage, ∃ fuel, (sfProcInitUrlEntry fuel garbage content).isSome
  unparses : ∀ n url (w : World Re), UnparseEnds content n url w
  calls : ∀ n, ReadsFresh (skipLines n content)

/-- Records, one after the other: a number, which may have a sign, a bar and a word, with white space
around the word. Between a word and the next record there is some. -/
inductive FullRecords : List Byte → Prop
  | nil : FullRecords []
  | record {sign digits gap word gap' rest : List Byte}
      (sign_ : sign = [] ∨ sign = [45#8] ∨ sign = [43#8])
      (number_ : digits ≠ [] ∧ ∀ b ∈ digits, isDigit b = true)
      (before : ∀ b ∈ gap, isSpace b = true)
      (word_ : word ≠ [] ∧ ∀ b ∈ word, isSpace b = false)
      (behind : ∀ b ∈ gap', isSpace b = true) (apart : gap' = [] → rest = [])
      (more : FullRecords rest) :
      FullRecords (sign ++ (digits ++ 124#8 :: (gap ++ (word ++ (gap' ++ rest)))))

/-! ## One call -/

section Call

variable {bs : List Byte}

theorem skipSpace_head (bs : List Byte) : NoSpaceHead (skipSpace bs) := by
  intro b hb
  have stop := List.head?_dropWhile_not isSpace bs
  rw [skipSpace] at hb
  rw [Option.mem_def.1 hb] at stop
  simpa using stop

theorem skipSpace_twice (bs : List Byte) : skipSpace (skipSpace bs) = skipSpace bs :=
  skipSpace_of_head (skipSpace_head bs)

theorem skipSpace_length (bs : List Byte) : (skipSpace bs).length ≤ bs.length :=
  (List.dropWhile_suffix isSpace).length_le

theorem skipSpace_append {gap : List Byte} (space : ∀ b ∈ gap, isSpace b = true)
    (rest : List Byte) : skipSpace (gap ++ rest) = skipSpace rest :=
  List.dropWhile_append_of_pos space

/-- White space in front of a record makes no difference. -/
theorem fscanfRecord_skip (bs : List Byte) : fscanfRecord (skipSpace bs) = fscanfRecord bs := by
  unfold fscanfRecord
  rw [skipSpace_twice]

theorem FullRecords.head (h : FullRecords bs) : NoSpaceHead bs := by
  cases h with
  | nil => nofun
  | @record sign digits gap word gap' rest sign_ number_ before word_ behind apart more =>
    intro b hb
    obtain rfl | rfl | rfl := sign_
    · obtain ⟨d, ds, rfl⟩ := List.exists_cons_of_ne_nil number_.1
      obtain rfl : d = b := by simpa using hb
      exact (isDigit_not_space d (number_.2 d List.mem_cons_self)).1
    · cases hb
      decide
    · cases hb
      decide

theorem scanSign_record {sign digits : List Byte} (rest : List Byte)
    (sign_ : sign = [] ∨ sign = [45#8] ∨ sign = [43#8])
    (number_ : digits ≠ [] ∧ ∀ b ∈ digits, isDigit b = true) :
    ∃ s, scanSign (sign ++ (digits ++ rest)) = (s, digits ++ rest) := by
  obtain rfl | rfl | rfl := sign_
  · obtain ⟨d, ds, rfl⟩ := List.exists_cons_of_ne_nil number_.1
    obtain ⟨-, minus, plus⟩ := isDigit_not_space d (number_.2 d List.mem_cons_self)
    refine ⟨1, ?_⟩
    simp [scanSign, minus, plus]
  · exact ⟨-1, rfl⟩
  · exact ⟨1, rfl⟩

/-- The word of a record, up to the white space behind it. -/
theorem word_cut {word gap' rest : List Byte} (word_ : ∀ b ∈ word, isSpace b = false)
    (behind : ∀ b ∈ gap', isSpace b = true) (apart : gap' = [] → rest = []) :
    (word ++ (gap' ++ rest)).takeWhile (fun b => !isSpace b) = word ∧
      (word ++ (gap' ++ rest)).dropWhile (fun b => !isSpace b) = gap' ++ rest := by
  have letters : ∀ b ∈ word, (!isSpace b) = true := fun b hb => by simp [word_ b hb]
  cases gap' with
  | nil =>
    rw [apart rfl, List.append_nil, List.append_nil]
    exact ⟨List.takeWhile_eq_self_iff.2 letters, List.dropWhile_eq_nil_iff.2 letters⟩
  | cons g gs =>
    have stop : (!isSpace g) = false := by simp [behind g List.mem_cons_self]
    exact ⟨takeWhile_append_stop letters stop, dropWhile_append_stop letters stop⟩

/-- A record is read whole. -/
theorem scan_record {sign digits gap word gap' rest : List Byte}
    (sign_ : sign = [] ∨ sign = [45#8] ∨ sign = [43#8])
    (number_ : digits ≠ [] ∧ ∀ b ∈ digits, isDigit b = true)
    (before : ∀ b ∈ gap, isSpace b = true) (word_ : word ≠ [] ∧ ∀ b ∈ word, isSpace b = false)
    (behind : ∀ b ∈ gap', isSpace b = true) (apart : gap' = [] → rest = [])
    (more : FullRecords rest) :
    ∃ level url, fscanfRecord (sign ++ (digits ++ 124#8 :: (gap ++ (word ++ (gap' ++ rest))))) =
      ⟨2, some level, some url, rest⟩ := by
  have head := (FullRecords.record sign_ number_ before word_ behind apart more).head
  obtain ⟨s, sign'⟩ := scanSign_record (124#8 :: (gap ++ (word ++ (gap' ++ rest)))) sign_ number_
  obtain ⟨cut, left⟩ := word_cut word_.2 behind apart
  have start : NoSpaceHead (word ++ (gap' ++ rest)) := by
    obtain ⟨b, bs, rfl⟩ := List.exists_cons_of_ne_nil word_.1
    intro b' hb
    obtain rfl : b = b' := by simpa using hb
    exact word_.2 b List.mem_cons_self
  have stop : isDigit 124#8 = false := by decide
  refine ⟨s * number digits, .ofBytes word, ?_⟩
  unfold fscanfRecord
  rw [skipSpace_of_head head]
  simp only [List.append_eq_nil_iff, List.cons_ne_nil, and_false, if_false, sign',
    takeWhile_append_stop number_.2 stop, dropWhile_append_stop number_.2 stop, number_.1, scanUrl,
    skipSpace_append before, skipSpace_of_head start, cut, left, word_.1, skipSpace_append behind,
    skipSpace_of_head more.head]

theorem scanSign_append (bs : List Byte) :
    ∃ sign, (sign = [] ∨ sign = [45#8] ∨ sign = [43#8]) ∧ bs = sign ++ (scanSign bs).2 := by
  cases bs with
  | nil => exact ⟨[], .inl rfl, rfl⟩
  | cons b bs =>
    rw [scanSign]
    by_cases minus : b = 45#8
    · rw [if_pos minus]
      exact ⟨[b], .inr (.inl (by rw [minus])), rfl⟩
    · rw [if_neg minus]
      by_cases plus : b = 43#8
      · rw [if_pos plus]
        exact ⟨[b], .inr (.inr (by rw [plus])), rfl⟩
      · rw [if_neg plus]
        exact ⟨[], .inl rfl, rfl⟩

theorem scanUrl_rc (level : Int) (bs : List Byte) : 0 < (scanUrl level bs).rc := by
  unfold scanUrl
  split
  · dsimp only
    split
    · exact Int.zero_lt_one
    · exact (by omega : (0 : Int) < 2)
  · exact Int.zero_lt_one

theorem fscanfRecord_eof : (fscanfRecord bs).rc = EOF ↔ skipSpace bs = [] := by
  by_cases blank : skipSpace bs = []
  · refine iff_of_true ?_ blank
    unfold fscanfRecord
    simp only [blank, if_true]
  · refine iff_of_false ?_ blank
    unfold fscanfRecord
    simp only [blank, if_false]
    split
    · exact (by decide : (0 : Int) ≠ EOF)
    · have counted := scanUrl_rc ((scanSign (skipSpace bs)).1 *
        number ((scanSign (skipSpace bs)).2.takeWhile isDigit))
        ((scanSign (skipSpace bs)).2.dropWhile isDigit)
      intro eof
      rw [eof] at counted
      exact absurd counted (by decide)

/-- What a URL is stored from. -/
theorem scanUrl_stored {level : Int} (stored : (scanUrl level bs).url.isSome) :
    ∃ gap word gap', bs = 124#8 :: (gap ++ (word ++ (gap' ++ (scanUrl level bs).rest))) ∧
      (∀ b ∈ gap, isSpace b = true) ∧ (word ≠ [] ∧ ∀ b ∈ word, isSpace b = false) ∧
      (∀ b ∈ gap', isSpace b = true) ∧ (gap' = [] → (scanUrl level bs).rest = []) ∧
      NoSpaceHead (scanUrl level bs).rest := by
  have bar : ∃ bs', bs = 124#8 :: bs' := by
    unfold scanUrl at stored
    split at stored
    · exact ⟨_, rfl⟩
    · cases stored
  obtain ⟨bs', rfl⟩ := bar
  by_cases noWord : (skipSpace bs').takeWhile (fun b => !isSpace b) = []
  · simp [scanUrl, noWord] at stored
  have rest : (scanUrl level (124#8 :: bs')).rest =
      skipSpace ((skipSpace bs').dropWhile fun b => !isSpace b) := by
    simp only [scanUrl, if_neg noWord]
  have word : (skipSpace bs').takeWhile (fun b => !isSpace b) ++
      (skipSpace bs').dropWhile (fun b => !isSpace b) = skipSpace bs' :=
    List.takeWhile_append_dropWhile
  have stop := List.head?_dropWhile_not (fun b => !isSpace b) (skipSpace bs')
  rw [rest]
  generalize (skipSpace bs').dropWhile (fun b => !isSpace b) = left at word stop
  refine ⟨bs'.takeWhile isSpace, _, left.takeWhile isSpace, ?_, fun b => List.mem_takeWhile_imp,
    ⟨noWord, fun b hb => by simpa using List.mem_takeWhile_imp hb⟩,
    fun b => List.mem_takeWhile_imp, ?_, skipSpace_head left⟩
  · have gap : bs'.takeWhile isSpace ++ skipSpace bs' = bs' := List.takeWhile_append_dropWhile
    have gap' : left.takeWhile isSpace ++ skipSpace left = left := List.takeWhile_append_dropWhile
    rw [gap', word, gap]
  · intro noGap
    cases left with
    | nil => rfl
    | cons b left =>
      have space : isSpace b = true := by simpa using stop
      rw [List.takeWhile_cons_of_pos space] at noGap
      cases noGap

/-- Where a URL is stored, a number is in front of it. -/
theorem fscanfRecord_stored (stored : (fscanfRecord bs).url.isSome) :
    ∃ sign digits level bs', (sign = [] ∨ sign = [45#8] ∨ sign = [43#8]) ∧
      (digits ≠ [] ∧ ∀ b ∈ digits, isDigit b = true) ∧ skipSpace bs = sign ++ (digits ++ bs') ∧
      fscanfRecord bs = scanUrl level bs' := by
  obtain ⟨sign, sign_, split_⟩ := scanSign_append (skipSpace bs)
  unfold fscanfRecord at stored ⊢
  dsimp only at stored ⊢
  by_cases blank : skipSpace bs = []
  · rw [if_pos blank] at stored
    cases stored
  rw [if_neg blank] at stored ⊢
  by_cases noNumber : (scanSign (skipSpace bs)).2.takeWhile isDigit = []
  · rw [if_pos noNumber] at stored
    cases stored
  rw [if_neg noNumber]
  refine ⟨sign, _, _, _, sign_, ⟨noNumber, fun b => List.mem_takeWhile_imp⟩, ?_, rfl⟩
  rw [List.takeWhile_append_dropWhile]
  exact split_

/-- **A call that has stored a URL has read a record**, if what it leaves are records. -/
theorem record_of_scan (stored : (fscanfRecord bs).url.isSome)
    (more : FullRecords (skipSpace (fscanfRecord bs).rest)) : FullRecords (skipSpace bs) := by
  obtain ⟨sign, digits, level, bs', sign_, number_, text, scan⟩ := fscanfRecord_stored stored
  rw [scan] at stored more
  obtain ⟨gap, word, gap', text', before, word_, behind, apart, next⟩ := scanUrl_stored stored
  rw [skipSpace_of_head next] at more
  rw [text, text']
  exact .record sign_ number_ before word_ behind apart more

end Call

/-! ## The calls, one after the other -/

section Calls

variable {content : List Byte}

theorem skipLines_succ (n : Nat) (bs : List Byte) :
    skipLines (n + 1) bs = skipLines n (fscanfRecord bs).rest := rfl

/-- A call, and those behind it. -/
theorem readsFresh_step (bs : List Byte) : (∀ n, ReadsFresh (skipLines n bs)) ↔
    ReadsFresh bs ∧ ∀ n, ReadsFresh (skipLines n (fscanfRecord bs).rest) := by
  constructor
  · intro calls
    exact ⟨calls 0, fun n => calls (n + 1)⟩
  · rintro ⟨first, rest⟩ n
    cases n with
    | zero => exact first
    | succ n => exact rest n

theorem skipLines_nil (n : Nat) : skipLines n [] = [] := by
  induction n with
  | zero => rfl
  | succ n ih => exact ih

/-- White space alone is the end of the file. -/
theorem readsFresh_blank {bs : List Byte} (blank : skipSpace bs = []) :
    ∀ n, ReadsFresh (skipLines n bs) := by
  have atEnd {bs : List Byte} (blank : skipSpace bs = []) : ReadsFresh bs := fun more =>
    absurd (fscanfRecord_eof.2 blank) more
  have nothing : (fscanfRecord bs).rest = [] := by
    unfold fscanfRecord
    simp only [blank, if_true]
  rw [readsFresh_step, nothing]
  refine ⟨atEnd blank, fun n => ?_⟩
  rw [skipLines_nil]
  exact atEnd rfl

/-- The first of some records is read whole, and leaves the others. -/
theorem FullRecords.first {text : List Byte} (records : FullRecords text) (some_ : text ≠ []) :
    ReadsFresh text ∧ (fscanfRecord text).rest.length < text.length ∧
      FullRecords (fscanfRecord text).rest := by
  cases records with
  | nil => exact absurd rfl some_
  | @record sign digits gap word gap' rest sign_ number_ before word_ behind apart more =>
    obtain ⟨level, url, read⟩ := scan_record sign_ number_ before word_ behind apart more
    have shorter : rest.length <
        (sign ++ (digits ++ 124#8 :: (gap ++ (word ++ (gap' ++ rest))))).length := by
      simp only [List.length_append, List.length_cons]
      omega
    unfold ReadsFresh
    rw [read]
    exact ⟨fun _ => ⟨shorter, rfl, rfl⟩, shorter, more⟩

/-- **All calls read fresh if and only if the file consists of full records.** -/
theorem readsFresh_iff {k : Nat} : ∀ {bs : List Byte}, bs.length < k →
    ((∀ n, ReadsFresh (skipLines n bs)) ↔ FullRecords (skipSpace bs)) := by
  induction k with
  | zero =>
    intro bs short
    omega
  | succ k ih =>
    intro bs short
    by_cases blank : skipSpace bs = []
    · rw [blank]
      exact iff_of_true (readsFresh_blank blank) .nil
    rw [readsFresh_step]
    constructor
    · rintro ⟨first, calls⟩
      have notEof : (fscanfRecord bs).rc ≠ EOF := fun eof => blank (fscanfRecord_eof.1 eof)
      obtain ⟨shorter, -, stored⟩ := first notEof
      exact record_of_scan stored ((ih (by omega)).1 calls)
    · intro records
      have le := skipSpace_length bs
      obtain ⟨fresh, shorter, more⟩ := records.first blank
      rw [fscanfRecord_skip] at shorter more
      refine ⟨fun rc => ?_, (ih (by omega)).2 ?_⟩
      · have read := fresh (by rwa [fscanfRecord_skip])
        rw [fscanfRecord_skip] at read
        exact ⟨Nat.lt_of_lt_of_le read.1 le, read.2⟩
      · rwa [skipSpace_of_head more.head]

/-! ## The loops -/

/-- When each call takes something, the loop that loads the table ends ... -/
theorem loadLoop_ends {k : Nat} : ∀ {bs : List Byte} (t : UrlTable) (url : CString),
    bs.length < k → (∀ n, ReadsFresh (skipLines n bs)) → (loadLoop k t url bs).isSome := by
  induction k with
  | zero =>
    intro bs t url short
    omega
  | succ k ih =>
    intro bs t url short calls
    unfold loadLoop
    dsimp only
    by_cases eof : (fscanfRecord bs).rc = EOF
    · rw [if_pos eof]
      rfl
    · rw [if_neg eof]
      have shorter : (fscanfRecord bs).rest.length < bs.length := (calls 0 eof).1
      exact ih _ _ (by omega) fun n => calls (n + 1)

/-- ... and so does the loop that reports the records that were not read. -/
theorem unparseLoop_ends {k : Nat} : ∀ {bs : List Byte} (url : CString) (w : World Re),
    bs.length < k → (∀ n, ReadsFresh (skipLines n bs)) → (unparseLoop k url bs w).2.isSome := by
  induction k with
  | zero =>
    intro bs url w short
    omega
  | succ k ih =>
    intro bs url w short calls
    unfold unparseLoop
    dsimp only
    by_cases eof : (fscanfRecord bs).rc = EOF
    · rw [if_pos eof]
      rfl
    · have shorter : (fscanfRecord bs).rest.length < bs.length := (calls 0 eof).1
      have rest := ih ((fscanfRecord bs).url.getD url) w
        (show (fscanfRecord bs).rest.length < k by omega) fun n => calls (n + 1)
      rw [if_neg eof, each_json, Prog.bind_done (show Prog.log _ w = (_, some (⟨⟩, w)) from rfl)]
      exact rest

theorem skipRecords_rest (n : Nat) : ∀ (url : CString) (bs : List Byte),
    (skipRecords n url bs).2 = skipLines n bs := by
  induction n with
  | zero =>
    intro url bs
    rfl
  | succ n ih =>
    intro url bs
    exact ih _ _

theorem skipLines_add (m n : Nat) : ∀ bs : List Byte,
    skipLines n (skipLines m bs) = skipLines (m + n) bs := by
  induction m with
  | zero =>
    intro bs
    rw [Nat.zero_add]
    rfl
  | succ m ih =>
    intro bs
    rw [Nat.succ_add, skipLines_succ, skipLines_succ, ih]

/-- What `sf_global_scan_url` hands on is then not what stood in its buffers before. -/
theorem sfGlobalScanUrl_fresh {w : World Re} (fresh : ReadsFresh w.unread) (level level' : Int)
    (url url' : CString) : sfGlobalScanUrl level url w = sfGlobalScanUrl level' url' w := by
  unfold sfGlobalScanUrl
  rw [Prog.get_bind, Prog.get_bind, Prog.modify_bind, Prog.modify_bind, scanned_unread]
  by_cases eof : (fscanfRecord w.unread).rc = EOF
  · rw [if_pos eof, if_pos eof]
  · obtain ⟨-, newLevel, newUrl⟩ := fresh eof
    obtain ⟨l, hl⟩ := Option.isSome_iff_exists.1 newLevel
    obtain ⟨u, hu⟩ := Option.isSome_iff_exists.1 newUrl
    rw [hl, hu]
    rfl

end Calls

/-- **Reading `url.txt` goes well if and only if it consists of full records.** -/
theorem queue_reads_iff (Re : Type) (content : List Byte) :
    QueueReads Re content ↔ FullRecords (skipSpace content) := by
  rw [← readsFresh_iff (Nat.lt_succ_self content.length)]
  constructor
  · intro reads
    exact reads.calls
  · intro calls
    refine ⟨fun garbage => ⟨_, loadLoop_ends .init garbage (Nat.lt_succ_self _) calls⟩, ?_, calls⟩
    intro n url w
    refine ⟨(skipRecords n url content).2.length + 1, ?_⟩
    apply unparseLoop_ends _ _ (Nat.lt_succ_self _)
    intro m
    rw [skipRecords_rest, skipLines_add]
    exact calls (n + m)

/-- On a byte that begins no number the loop stands still. -/
theorem loadLoop_stray (fuel : Nat) : ∀ (t : UrlTable) (url : CString),
    loadLoop fuel t url [97#8] = none := by
  induction fuel with
  | zero =>
    intro t url
    rfl
  | succ fuel ih =>
    intro t url
    have nothing : fscanfRecord [97#8] = ⟨0, none, none, [97#8]⟩ := by decide
    unfold loadLoop
    rw [nothing]
    exact ih _ url

/-- A file of one letter. -/
theorem stray_byte_reads_forever : ¬ QueueReads Unit [97#8] := by
  intro reads
  obtain ⟨fuel, ends⟩ := reads.loads .empty
  unfold sfProcInitUrlEntry at ends
  rw [loadLoop_stray] at ends
  cases ends

end SpiderFrame.Page
