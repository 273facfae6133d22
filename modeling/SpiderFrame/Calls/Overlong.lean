import SpiderFrame.Calls.Requests
import SpiderFrame.Crawl.Move

/-!
# Where the URLs of requests come from

The word that a call scans is the URL of a record: one that `url.txt` had at the start, or one that
some call has appended since. The string of `starturl` is the expansion that some call has assigned.
So it is enough that these are short where they come in, and each URL with its suffix
(`request_urls_fit`).
-/

namespace SpiderFrame.Calls.Requests
open SpiderFrame.Base SpiderFrame.Queue SpiderFrame.Conf

variable {conf : Crawl.Conf} {files : CString → Option Crawl.Conf} {w w' : World} {f : Frame}
  {act : Act} {fs : List Frame} {s s' : State} {given : Given}

/-- The string and its NUL fit into an array of a call. -/
def Short (url : CString) : Prop := url.bytes.length + 1 ≤ 2048

/-! ## Words of records -/

/-- The word is the string that a call of `fscanf` stores. -/
theorem fscanfRecord_word (bs : List Byte) :
    (fscanfRecord bs).url = (scannedWord bs).map CString.ofBytes := by
  unfold fscanfRecord scannedWord
  dsimp only
  by_cases ends : skipSpace bs = []
  · rw [if_pos ends, ends]
    rfl
  · rw [if_neg ends]
    by_cases digits : (scanSign (skipSpace bs)).2.takeWhile isDigit = []
    · rw [if_pos digits, if_pos digits]
      rfl
    · rw [if_neg digits, if_neg digits]
      generalize (scanSign (skipSpace bs)).2.dropWhile isDigit = behind
      cases behind with
      | nil => rfl
      | cons b bs =>
        by_cases bar : b = 124#8
        · subst bar
          simp only [scanUrl]
          split <;> rfl
        · simp [scanUrl, bar]

/-- The word of a printed record is its URL. -/
theorem scannedWord_encode (r : Record) (rest : List Byte) :
    scannedWord (r.encode ++ rest) = some r.url.str.bytes := by
  obtain ⟨digits, sign, some_, all, -⟩ :=
    scanInt_print r.level (r.url.str.bytes ++ 10#8 :: rest)
  have shape : r.encode ++ rest =
      printInt r.level ++ 124#8 :: (r.url.str.bytes ++ 10#8 :: rest) := by
    simp [Record.encode, fprintfRecord]
  have stop : isDigit 124#8 = false := by decide
  have letters : ∀ b ∈ r.url.str.bytes, (!isSpace b) = true :=
    fun b hb => by simp [r.url.noSpace b hb]
  have begins : NoSpaceHead (r.url.str.bytes ++ 10#8 :: rest) := by
    obtain ⟨b, bs, e⟩ := List.exists_cons_of_ne_nil r.url.nonempty
    intro b' hb'
    rw [e] at hb'
    obtain rfl : b = b' := by simpa using hb'
    exact r.url.noSpace b (by simp [e])
  have ends : (!isSpace 10#8) = false := by decide
  simp only [scannedWord, shape, skipSpace_of_head (printInt_head _ _), sign,
    takeWhile_append_stop all stop, dropWhile_append_stop all stop, some_, if_false,
    skipSpace_of_head begins, takeWhile_append_stop letters ends, r.url.nonempty]

/-! ## What is short where it comes in -/

/-- What is in the machine besides the arrays: the records that are still to be read, the strings of
`starturl` and the expansions on their way there are short. -/
structure SourcesShort (w : World) : Prop where
  inFile : w.reader.pos ≤ w.urlTxt.length
  unread : ∃ rs, w.urlTxt.drop w.reader.pos = encodeAll rs ∧ ∀ r ∈ rs, Short r.url.str
  starturl : ∀ r, ∀ url ∈ (w.spiders r).starturl, Short url
  entries : ∀ k, ∀ f ∈ w.threads k, ∀ o entry known, f.pc = .assign o entry known →
    ∀ url ∈ entry.url, Short url

/-- What comes in with a step is short: a URL that is appended to `url.txt`, what the `url` of an
entry expands to, and the URL of a page with what `url_suffix` expands to. -/
def InputsShort (s : State) : Move → Prop
  | .call (some _, .entry entry) _ => ∀ url ∈ entry.url, Short url
  | .call (some k, .tick) given =>
    ∀ f ∈ (s.world.threads k).head?,
      (∀ url todo, f.pc = .write url todo → Short url.str) ∧
      (f.pc = .clear → ∀ b ∈ (s.arrays k).head?,
        b.string.length + suffixLength given.suffix + 1 ≤ 2048)
  | .insert _ url => ∃ u : Url, u.str = url ∧ Short url
  | _ => True

/-! ## Steps -/

/-- A move leaves `url.txt` and the stream, scans, or appends a URL. -/
theorem Move.queue (m : Calls.Move files w f act w' fs) :
    (w'.urlTxt = w.urlTxt ∧ w'.reader = w.reader) ∨
      (w'.urlTxt = w.urlTxt ∧ w'.reader = (w.reader.fscanf w.urlTxt).2) ∨
      ∃ url todo, act = .tick ∧ f.pc = .write url todo ∧
        w'.urlTxt = fileSection w.urlTxt (f.level + 1) url.str ∧ w'.reader = w.reader := by
  cases m with
  | scan at_ starturl => exact .inr (.inl ⟨rfl, rfl⟩)
  | write url todo at_ opened => exact .inr (.inr ⟨url, todo, rfl, at_, rfl, rfl⟩)
  | _ => exact .inl ⟨rfl, rfl⟩

/-- A move leaves `starturl`, makes an object without one, or assigns what an entry expands to. -/
theorem Move.starturl (m : Calls.Move files w f act w' fs) (r : Ref) :
    (w'.spiders r).starturl = (w.spiders r).starturl ∨ (w'.spiders r).starturl = none ∨
      ∃ o entry known, f.pc = .assign o entry known ∧ (w'.spiders r).starturl = entry.url := by
  have stays : ∀ (r₀ : Ref) (s : Spider), s.starturl = (w.spiders r₀).starturl →
      ((w.setSpider r₀ s).spiders r).starturl = (w.spiders r).starturl := by
    intro r₀ s same
    by_cases own : r = r₀
    · subst own
      simp [World.setSpider, same]
    · simp [World.setSpider, own]
  cases m with
  | enter at_ => exact .inl (stays _ _ rfl)
  | setEof at_ => exact .inl (stays _ _ rfl)
  | clear at_ => exact .inl (stays _ _ rfl)
  | create ok at_ => exact .inl (stays _ _ rfl)
  | close at_ => exact .inl (stays _ _ rfl)
  | unknown entry c found at_ =>
    by_cases own : r = .nested w.nestedCnt
    · exact .inr (.inl (by simp [World.newSpider, World.setSpider, own]))
    · exact .inl (by simp [World.newSpider, World.setSpider, own])
  | assign o entry found at_ pc next =>
    by_cases own : r = .nested o
    · subst own
      by_cases some_ : entry.url.isSome
      · exact .inr (.inr ⟨o, entry, found, at_, by simp [World.assign, World.setSpider, some_]⟩)
      · exact .inl (by simp [World.assign, World.setSpider, some_])
    · exact .inl (by simp [World.assign, World.setSpider, own])
  | _ => exact .inl rfl

/-- The stream goes on to the next record, or stays. -/
theorem unread_scan {bs : List Byte} {r : Reader} {rs : List Record}
    (unread : bs.drop r.pos = encodeAll rs) (short : ∀ r ∈ rs, Short r.url.str) :
    ∃ rs', bs.drop (r.fscanf bs).2.pos = encodeAll rs' ∧ ∀ r ∈ rs', Short r.url.str := by
  cases blocked : r.blocked with
  | true =>
    have same : (r.fscanf bs).2 = r := Reader.leave_blocked blocked bs _
    rw [same]
    exact ⟨rs, unread, short⟩
  | false =>
    have behind : bs.drop (r.fscanf bs).2.pos = (fscanfRecord (r.ahead bs)).rest :=
      Reader.drop_leave (fscanfRecord_suffix _) blocked
    rw [behind, Reader.ahead_open blocked, unread]
    cases rs with
    | nil => exact ⟨[], rfl, List.forall_mem_nil _⟩
    | cons first rs =>
      rw [fscanfRecord_cons]
      exact ⟨rs, rfl, fun r' member => short r' (List.mem_cons_of_mem _ member)⟩

/-- A URL that is appended will be read. -/
theorem unread_append {bs : List Byte} {pos : Nat} (inFile : pos ≤ bs.length) {url : Url}
    (level : Int) (new : Short url.str)
    (unread : ∃ rs, bs.drop pos = encodeAll rs ∧ ∀ r ∈ rs, Short r.url.str) :
    ∃ rs, (fileSection bs level url.str).drop pos = encodeAll rs ∧ ∀ r ∈ rs, Short r.url.str := by
  obtain ⟨rs, file, short⟩ := unread
  refine ⟨rs ++ [⟨level, url⟩], ?_, ?_⟩
  · rw [fileSection, List.drop_append_of_le_length inFile, file, encodeAll_append]
    simp [encodeAll, Record.encode]
  · rw [List.forall_mem_append, List.forall_mem_singleton]
    exact ⟨short, new⟩

/-- The queue behind a step of a call. -/
theorem SourcesShort.queue (h : SourcesShort w) (m : Calls.Move files w f act w' fs)
    (new : ∀ url todo, act = .tick → f.pc = .write url todo → Short url.str) :
    w'.reader.pos ≤ w'.urlTxt.length ∧
      ∃ rs, w'.urlTxt.drop w'.reader.pos = encodeAll rs ∧ ∀ r ∈ rs, Short r.url.str := by
  have inFile := h.inFile
  rcases Move.queue m with ⟨file, stream⟩ | ⟨file, stream⟩ | ⟨url, todo, tick, at_, file, stream⟩
  · rw [file, stream]
    exact ⟨h.inFile, h.unread⟩
  · obtain ⟨rs, unread, short⟩ := h.unread
    rw [file, stream]
    exact ⟨Reader.leave_inFile inFile _, unread_scan unread short⟩
  · rw [file, stream]
    refine ⟨?_, unread_append h.inFile _ (new url todo tick at_) h.unread⟩
    rw [fileSection, List.length_append]
    omega

/-- The expansions behind a step of a call. -/
theorem SourcesShort.assigned (h : SourcesShort w) (here : ∃ k, f ∈ w.threads k)
    (m : Calls.Move files w f act w' fs) (r : Ref) :
    ∀ url ∈ (w'.spiders r).starturl, Short url := by
  obtain ⟨k, member⟩ := here
  rcases Move.starturl m r with same | none_ | ⟨o, entry, known, at_, same⟩
  · rw [same]
    exact h.starturl r
  · rw [none_]
    intro url some_
    cases some_
  · rw [same]
    exact h.entries k f member o entry known at_

/-- The entries behind a step, of which one may be new. -/
theorem SourcesShort.expansions (h : SourcesShort w) {move : Option Nat × Act}
    (new : ∀ k entry, move = (some k, .entry entry) → ∀ url ∈ entry.url, Short url)
    (taken : Calls.Step conf files w move w') :
    ∀ k, ∀ f ∈ w'.threads k, ∀ o entry known, f.pc = .assign o entry known →
      ∀ url ∈ entry.url, Short url := by
  obtain ⟨actor, act⟩ := move
  apply taken.frames (P := fun f => ∀ o entry known, f.pc = .assign o entry known →
    ∀ url ∈ entry.url, Short url)
  · intro k level o entry known at_
    cases at_
  · intro f w₁ fs acting m _ f' member o entry known at_
    have came := m.cameFrom f' member
    rw [at_] at came
    obtain rfl : act = .entry entry := came
    cases actor with
    | none => cases acting
    | some k => exact new k entry rfl
  · exact h.entries

/-- A step of the calls. -/
theorem SourcesShort.call {move : Option Nat × Act} (h : SourcesShort s.world)
    (inputs : InputsShort s (.call move given)) (taken : Step conf files s (.call move given) s') :
    SourcesShort s'.world := by
  have entries := h.expansions (by rintro k entry rfl; exact inputs) taken.world
  cases taken with
  | create given level inside =>
    refine ⟨h.inFile, h.unread, ?_, entries⟩
    refine (Function.forall_update_iff s.world.spiders fun _ s => ∀ url ∈ s.starturl, Short url).2
      ⟨fun url none_ => ?_, fun r _ => h.starturl r⟩
    cases none_
  | list given inside => exact ⟨h.inFile, h.unread, h.starturl, entries⟩
  | @move i act f rest fs w given thread m =>
    have acting : f ∈ (s.world.threads i).head? := by simp [thread]
    have member : f ∈ s.world.threads i := by simp [thread]
    have new : ∀ url todo, act = .tick → f.pc = .write url todo → Short url.str := by
      rintro url todo rfl at_
      exact (inputs f acting).1 url todo at_
    obtain ⟨inFile, unread⟩ := h.queue m new
    exact ⟨inFile, unread, fun r => h.assigned ⟨i, member⟩ m r, entries⟩

/-- A URL that is inserted comes to the end of `url.txt`, if it comes there. -/
theorem SourcesShort.insert (h : SourcesShort w) {url : Url} (short : Short url.str)
    (inserted : insertUrl w f url.str = some w') : SourcesShort w' := by
  unfold insertUrl at inserted
  split at inserted
  · dsimp only at inserted
    split at inserted
    · split at inserted
      · cases inserted
        refine ⟨?_, unread_append h.inFile _ short h.unread, h.starturl, h.entries⟩
        have inFile := h.inFile
        show w.reader.pos ≤ (fileSection _ _ _).length
        rw [fileSection, List.length_append]
        omega
      · cases inserted
    · cases inserted
      exact ⟨h.inFile, h.unread, h.starturl, h.entries⟩
  · cases inserted

/-- **The sources stay short as long as what comes in is.** -/
theorem SourcesShort.step {move : Move} (h : SourcesShort s.world) (inputs : InputsShort s move)
    (taken : Step conf files s move s') : SourcesShort s'.world := by
  cases move with
  | call move given => exact h.call inputs taken
  | insert k url =>
    cases taken with
    | insert thread inserted =>
      obtain ⟨u, rfl, short⟩ := inputs
      exact h.insert short inserted

/-- Then the next URL of a call is short. -/
theorem SourcesShort.nextUrl (h : SourcesShort w) (f : Frame) :
    ∀ bytes ∈ nextUrl w f, bytes.length + 1 ≤ 2048 := by
  unfold Requests.nextUrl
  split
  · rename_i url some_
    intro bytes next
    cases next
    exact h.starturl f.self url some_
  · obtain ⟨rs, unread, short⟩ := h.unread
    cases blocked : w.reader.blocked with
    | true =>
      rw [Reader.ahead_blocked blocked]
      intro bytes next
      cases next
    | false =>
      rw [Reader.ahead_open blocked, unread]
      cases rs with
      | nil =>
        intro bytes next
        cases next
      | cons r rs =>
        rw [encodeAll_cons, scannedWord_encode]
        intro bytes next
        cases next
        exact short r List.mem_cons_self

/-- `main` creates a spider, which enters its loop. -/
def entered : List Move :=
  [.call (none, .call 0) ⟨[], none⟩, .call (some 0, .tick) ⟨[], none⟩]

/-- The step in which a call takes its URL. -/
def scans : Move := .call (some 0, .tick) ⟨[], none⟩

/-- 2048 letters. -/
def longUrl : CString where
  bytes := List.replicate 2048 97#8
  noNul := fun member => absurd (List.eq_of_mem_replicate member) (by decide)

/-- The page of the first record comes to an entry with this `url`, and its spider enters its
loop. -/
def assignActs : List (Option Nat × Act) :=
  oneSpider ++ ticks 3 ++ [(some 0, .pool true), (some 0, .tick), (some 0, .page true [])] ++
    ticks 2 ++ [(some 0, .entry ⟨.letter 0, some longUrl, none⟩)] ++ ticks 3 ++
    [(some 0, .call 0)] ++ ticks 1

/-- With no suffix, and nothing in the arrays. -/
def assigns : List Move := assignActs.map fun move => .call move ⟨[], none⟩

/-- The run, with one configuration for both spiders. -/
def assigned : Option State :=
  exec (step ⟨5, 5, false⟩ fun _ => some ⟨5, 5, false⟩)
    (start 1 (Crawl.start true [⟨0, .letter 0⟩] 0 []).shared) assigns

end SpiderFrame.Calls.Requests
