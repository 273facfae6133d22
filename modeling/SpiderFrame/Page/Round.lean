import SpiderFrame.Page.TraceRun

/-!
# Rounds of a nested run

What a round of the loop of `sf_proc_start_spider` does, with the data it leaves (`Round`). For a
nested spider the level changes only with the counter, so a loop that begins below the limits can
end only with a higher counter (`spiderLoop_counts`), and a loop that leaves the counter alone is
one round and what follows the loops (`spiderLoop_still`).
-/

namespace SpiderFrame.Page
open SpiderFrame.Base SpiderFrame.Queue

variable {Re : Type}

/-- After `s->eof = 1`. -/
def World.eofSet (w : World Re) (r : Ref) : World Re :=
  w.setSpider { w.spider r with eof := true } r

/-- After `s->eof = 0`. -/
def World.eofCleared (w : World Re) (r : Ref) : World Re :=
  w.setSpider { w.spider r with eof := false } r

/-- After the pool of the last page is gone. -/
def World.renewPool (w : World Re) (env : Env Re) (r : Ref) : World Re :=
  let w' := { w with
    clock := w.clock + 1
    strings := fun p =>
      if (w.spider r).pool = some (w.strings p).pool then { w.strings p with live := false }
      else w.strings p
    poolCnt := w.poolCnt + 1 }
  w'.setSpider
    { w'.spider r with pool := if env.pool w.clock then some w.poolCnt else none } r

/-! ## The parts of a round -/

theorem spider_bind {α : Type} (r : Ref) (f : Spider Re → Run Re α) (w : World Re) :
    (spider r >>= f) w = f (w.spider r) w := Prog.bind_silent rfl

theorem setEof_apply (w : World Re) (r : Ref) :
    setEof r true w = ([], some ((), w.eofSet r)) := rfl

theorem setEof_false_apply (w : World Re) (r : Ref) :
    setEof r false w = ([], some ((), w.eofCleared r)) := rfl

theorem newPool_apply (env : Env Re) (r : Ref) (w : World Re) :
    newPool env r w = ([], some (env.pool w.clock, w.renewPool env r)) := rfl

theorem inUrl_apply {url : CString} (fits : url.bytes.length < 2048) (w : World Re) :
    inUrl url w = ([], some (url, w)) := by
  rw [inUrl, if_pos fits]
  rfl

theorem inUrl_done {url url' : CString} {w w' : World Re} {es : List (Event Re)}
    (run : inUrl url w = (es, some (url', w'))) :
    es = [] ∧ url' = url ∧ w' = w ∧ url.bytes.length < 2048 := by
  unfold inUrl at run
  split at run
  · rename_i fits
    cases run
    exact ⟨rfl, rfl, rfl, fits⟩
  · cases run

/-- What a call of `nextUrl` finds. -/
inductive Next (r : Ref) (level : Int) (url : CString) (w : World Re) :
    Option (Int × CString) → World Re → Prop
  | starturl {p : Nat} {u : CString} (assigned : (w.spider r).starturl = some p)
      (live : w.text p = some u) (fits : u.bytes.length < 2048) :
      Next r level url w (some (level, u)) w
  | atEnd (noUrl : (w.spider r).starturl = none) (rc : (fscanfRecord w.unread).rc = EOF) :
      Next r level url w none w.scan
  | record (noUrl : (w.spider r).starturl = none) (rc : (fscanfRecord w.unread).rc ≠ EOF)
      (fits : ((fscanfRecord w.unread).url.getD url).bytes.length < 2048) :
      Next r level url w (some ((fscanfRecord w.unread).level.getD level,
        (fscanfRecord w.unread).url.getD url)) w.scan

theorem nextUrl_done {r : Ref} {level : Int} {url : CString} {w w' : World Re}
    {es : List (Event Re)} {next : Option (Int × CString)}
    (run : nextUrl r level url w = (es, some (next, w'))) :
    es = [] ∧ Next r level url w next w' := by
  rw [nextUrl, spider_bind] at run
  cases assigned : (w.spider r).starturl with
  | some p =>
    rw [assigned] at run
    dsimp only at run
    rw [Prog.get_bind] at run
    obtain ⟨_, u, _, _, text, rest, rfl⟩ := Prog.bind_eq_done run
    obtain ⟨live, rfl, rfl⟩ := Prog.ofOption_done text
    obtain ⟨_, _, _, _, bounded, last, rfl⟩ := Prog.bind_eq_done rest
    obtain ⟨rfl, rfl, rfl, fits⟩ := inUrl_done bounded
    cases last
    exact ⟨rfl, .starturl assigned live fits⟩
  | none =>
    rw [assigned] at run
    dsimp only at run
    rw [sfGlobalScanUrl, Prog.get_bind, Prog.modify_bind, scanned_unread] at run
    split at run
    · rename_i rc
      cases run
      exact ⟨rfl, .atEnd assigned rc⟩
    · rename_i rc
      obtain ⟨_, _, _, _, bounded, last, rfl⟩ := Prog.bind_eq_done run
      obtain ⟨rfl, rfl, rfl, fits⟩ := inUrl_done bounded
      cases last
      exact ⟨rfl, .record assigned rc fits⟩

theorem nextUrl_apply {r : Ref} {level : Int} {url : CString} {w w' : World Re}
    {next : Option (Int × CString)} (found : Next r level url w next w') :
    nextUrl r level url w = ([], some (next, w')) := by
  rw [nextUrl, spider_bind]
  cases found with
  | starturl assigned live fits =>
    rw [assigned]
    dsimp only
    rw [Prog.get_bind, live]
    exact (Prog.bind_silent rfl).trans (Prog.bind_silent (inUrl_apply fits w))
  | atEnd noUrl rc =>
    rw [noUrl]
    dsimp only
    rw [sfGlobalScanUrl, Prog.get_bind, Prog.modify_bind, scanned_unread, if_pos rc]
    rfl
  | record noUrl rc fits =>
    rw [noUrl]
    dsimp only
    rw [sfGlobalScanUrl, Prog.get_bind, Prog.modify_bind, scanned_unread, if_neg rc]
    exact Prog.bind_silent (inUrl_apply fits w.scan)

/-- The first URL of a call when taking it moves neither the position nor the counter, none when the
stream has nothing to read. Bytes that are not a number stay where they are, and the URL is what the
buffer happens to hold. -/
inductive TakesStill (env : Env Re) (w : World Re) (s : Spider Re) : Option CString → Prop
  | starturl {p : Nat} {url : CString} (assigned : s.starturl = some p) (live : w.text p = some url)
      (fits : url.bytes.length < 2048) : TakesStill env w s (some url)
  | atEnd (noUrl : s.starturl = none) (nothing : w.unread = []) : TakesStill env w s none
  | noNumber (noUrl : s.starturl = none) (rc : (fscanfRecord w.unread).rc = 0)
      (stays : (fscanfRecord w.unread).rest = w.unread)
      (fits : env.garbageUrl.bytes.length < 2048) : TakesStill env w s (some env.garbageUrl)

/-- After the first URL of such a call: a read that finds nothing sets the indicator. -/
def World.taken (w : World Re) : Option CString → World Re
  | none => w.scan
  | some _ => w

/-- A read that moves nothing takes nothing and does not count. -/
theorem scan_still {w : World Re} (inFile : w.reader.pos ≤ w.urlTxt.length)
    (pos : w.scan.reader.pos = w.reader.pos) (line : w.scan.line = w.line) :
    (fscanfRecord w.unread).rest = w.unread ∧ ¬ 0 < (fscanfRecord w.unread).rc := by
  constructor
  · exact Reader.rest_of_pos inFile (fscanfRecord_suffix w.unread) pos
  · intro counts
    have moved : w.scan.line = w.line + 1 := if_pos counts
    omega

/-- A read that takes none of the bytes in front of it is no read. -/
theorem scan_nothing {w : World Re} (inFile : w.reader.pos ≤ w.urlTxt.length)
    (stays : (fscanfRecord w.unread).rest = w.unread) (some_ : w.unread ≠ [])
    (not : ¬ 0 < (fscanfRecord w.unread).rc) : w.scan = w := by
  have stream : w.scan.reader = w.reader := by
    show w.reader.leave w.urlTxt (fscanfRecord w.unread).rest = w.reader
    rw [stays]
    exact Reader.leave_ahead inFile some_
  have line : w.scan.line = w.line := if_neg not
  change { w with reader := w.scan.reader, line := w.scan.line } = w
  rw [stream, line]

/-- Of a read at the end of the file, only the indicator stays. -/
theorem scan_atEnd {w : World Re} (inFile : w.reader.pos ≤ w.urlTxt.length)
    (nothing : w.unread = []) : w.scan.reader.pos = w.reader.pos ∧ w.scan.line = w.line := by
  have scanned : fscanfRecord w.unread = ⟨EOF, none, none, []⟩ := by
    rw [nothing, fscanfRecord_nil]
  constructor
  · show (w.reader.leave w.urlTxt (fscanfRecord w.unread).rest).pos = w.reader.pos
    rw [scanned, Reader.leave_nil nothing inFile]
  · show (if (fscanfRecord w.unread).rc > 0 then w.line + 1 else w.line) = w.line
    rw [scanned]
    exact if_neg (by decide)

theorem TakesStill.kept {env : Env Re} {s : Spider Re} {w : World Re} {taken : Option CString}
    (takes : TakesStill env w s taken) (inFile : w.reader.pos ≤ w.urlTxt.length) :
    (w.taken taken).reader.pos = w.reader.pos ∧ (w.taken taken).line = w.line := by
  cases takes with
  | starturl => exact ⟨rfl, rfl⟩
  | atEnd noUrl nothing => exact scan_atEnd inFile nothing
  | noNumber => exact ⟨rfl, rfl⟩

theorem Next.still {env : Env Re} {r : Ref} {level : Int} {w w' : World Re}
    {next : Option (Int × CString)} (found : Next r level env.garbageUrl w next w')
    (inFile : w.reader.pos ≤ w.urlTxt.length) (pos : w'.reader.pos = w.reader.pos)
    (line : w'.line = w.line) :
    ∃ taken, w' = w.taken taken ∧ TakesStill env w (w.spider r) taken ∧
      next = taken.map (level, ·) := by
  cases found with
  | starturl assigned live fits => exact ⟨_, rfl, .starturl assigned live fits, rfl⟩
  | atEnd noUrl rc =>
    obtain ⟨rest, -⟩ := scan_still inFile pos line
    obtain ⟨-, nothing⟩ | ⟨other, -⟩ | counts := fscanfRecord_rc w.unread
    · exact ⟨none, rfl, .atEnd noUrl (rest ▸ nothing), rfl⟩
    · rw [rc] at other
      cases other
    · rw [rc] at counts
      cases counts
  | record noUrl rc fits =>
    obtain ⟨rest, not⟩ := scan_still inFile pos line
    obtain ⟨atEnd, -⟩ | ⟨zero, noLevel, none_⟩ | counts := fscanfRecord_rc w.unread
    · exact absurd atEnd rc
    · rw [none_] at fits
      have some_ : w.unread ≠ [] := by
        intro nothing
        rw [nothing, fscanfRecord_nil] at rc
        exact rc rfl
      refine ⟨some env.garbageUrl, scan_nothing inFile rest some_ not,
        .noNumber noUrl zero rest fits, ?_⟩
      rw [noLevel, none_]
      rfl
    · exact absurd counts not

theorem TakesStill.next {env : Env Re} {r : Ref} {w : World Re} {taken : Option CString}
    (takes : TakesStill env w (w.spider r) taken) (inFile : w.reader.pos ≤ w.urlTxt.length)
    (level : Int) : Next r level env.garbageUrl w (taken.map (level, ·)) (w.taken taken) := by
  cases takes with
  | starturl assigned live fits => exact .starturl assigned live fits
  | atEnd noUrl nothing => exact .atEnd noUrl (by rw [nothing, fscanfRecord_nil])
  | noNumber noUrl rc stays fits =>
    obtain ⟨atEnd, -⟩ | ⟨-, noLevel, none_⟩ | counts := fscanfRecord_rc w.unread
    · rw [rc] at atEnd
      cases atEnd
    · have found : Next r level env.garbageUrl w
          (some ((fscanfRecord w.unread).level.getD level,
            (fscanfRecord w.unread).url.getD env.garbageUrl)) w.scan :=
        .record noUrl (by rw [rc]; decide) (by rwa [none_])
      have some_ : w.unread ≠ [] := by
        intro nothing
        rw [nothing, fscanfRecord_nil] at rc
        cases rc
      rwa [noLevel, none_, scan_nothing inFile stays some_ (by rw [rc]; decide)] at found
    · rw [rc] at counts
      cases counts

/-- The level changes only with the counter. -/
theorem Next.level {r : Ref} {level lv : Int} {url u : CString} {w w' : World Re}
    (found : Next r level url w (some (lv, u)) w') : lv = level ∨ w.line < w'.line := by
  cases found with
  | starturl => exact .inl rfl
  | record noUrl rc fits =>
    obtain ⟨atEnd, -⟩ | ⟨-, noLevel, -⟩ | counts := fscanfRecord_rc w.unread
    · exact absurd atEnd rc
    · rw [noLevel]
      exact .inl rfl
    · right
      have moved : w.scan.line = w.line + 1 := if_pos counts
      omega

/-! ## Rounds of the loop -/

theorem Steady.renewPool {nested : Bool} {d : Int} {w : World Re} (h : Steady nested d w)
    (env : Env Re) (r : Ref) : Steady nested d (w.renewPool env r) :=
  h.later (by cases r <;> exact ⟨rfl, rfl, rfl, le_refl _, rfl⟩)

theorem saveCheckpoint_done {r : Ref} {line : Int} {w w' : World Re} {es : List (Event Re)}
    (run : saveCheckpoint r line w = (es, some ((), w'))) :
    w' = w ∧ ∀ e ∈ es, e.isStart = false := by
  rw [saveCheckpoint, spider_bind] at run
  split at run
  · cases run
    exact ⟨rfl, by simp [Event.isStart]⟩
  · cases run
    exact ⟨rfl, List.forall_mem_nil _⟩

theorem afterPage_limit {conf : Conf Re} {r : Ref} {level : Int} {w : World Re}
    (limit : Crawl.limitReached conf.toConf level w.line = true) :
    afterPage conf r level w = ([], some (false, w.eofSet r)) := by
  rw [afterPage, Prog.get_bind, if_pos limit]
  exact Prog.bind_silent (setEof_apply w r)

/-- Below the limits the inner loop goes on, perhaps after a checkpoint. -/
theorem afterPage_done {conf : Conf Re} {r : Ref} {level : Int} {w w' : World Re}
    {es : List (Event Re)} {again : Bool}
    (run : afterPage conf r level w = (es, some (again, w'))) :
    (again = false ∧ Crawl.limitReached conf.toConf level w.line = true ∧ es = [] ∧
        w' = w.eofSet r) ∨
      (again = true ∧ Crawl.limitReached conf.toConf level w.line = false ∧ w' = w ∧
        ∀ e ∈ es, e.isStart = false) := by
  cases limit : Crawl.limitReached conf.toConf level w.line with
  | true =>
    rw [afterPage_limit limit] at run
    cases run
    exact .inl ⟨rfl, rfl, rfl, rfl⟩
  | false =>
    rw [afterPage, Prog.get_bind, limit, if_neg Bool.false_ne_true] at run
    obtain ⟨_, _, _, _, saved, ends, rfl⟩ := Prog.bind_eq_done run
    cases ends
    obtain ⟨rfl, quiet⟩ := saveCheckpoint_done saved
    exact .inr ⟨rfl, rfl, rfl, by simpa using quiet⟩

/-- A round that ends, with what it logs; the loop goes on with the next one when the first index
is true. -/
inductive Round (env : Env Re) (fuel : Nat) (start : Nat → Run Re Unit) (conf : Conf Re) (r : Ref)
    (level : Int) (url : CString) (w : World Re) : Bool → Int → List (Event Re) → World Re → Prop
  | atEnd {w₁ : World Re} (next : Next r level url w none w₁) :
      Round env fuel start conf r level url w false level [] (w₁.eofSet r)
  | noPool {lv : Int} {u : CString} {w₁ : World Re} (next : Next r level url w (some (lv, u)) w₁)
      (refused : env.pool w₁.clock = false) :
      Round env fuel start conf r level url w false lv [] (w₁.renewPool env r)
  | page {lv : Int} {u u' : CString} {done : Bool} {w₁ w₂ : World Re} {es : List (Event Re)}
      (next : Next r level url w (some (lv, u)) w₁) (pooled : env.pool w₁.clock = true)
      (fetch : fetchPage env fuel start conf r lv u (w₁.renewPool env r) =
        (es, some ((done, u'), w₂)))
      (limit : done = true → Crawl.limitReached conf.toConf lv w₂.line = true) :
      Round env fuel start conf r level url w false lv es (if done then w₂.eofSet r else w₂)
  | goesOn {lv : Int} {u u' : CString} {w₁ w₂ : World Re} {es es' : List (Event Re)}
      (next : Next r level url w (some (lv, u)) w₁)
      (fetch : fetchPage env fuel start conf r lv u (w₁.renewPool env r) =
        (es, some ((true, u'), w₂)))
      (going : Crawl.limitReached conf.toConf lv w₂.line = false)
      (quiet : ∀ e ∈ es', e.isStart = false) :
      Round env fuel start conf r level url w true lv (es ++ es') w₂

section

variable {env : Env Re} {fuel : Nat} {start : Nat → Run Re Unit} {conf : Conf Re} {r : Ref}
  {level lv : Int} {url u : CString} {w w' : World Re} {again : Bool} {es : List (Event Re)}

theorem innerRound_done
    (run : innerRound env fuel start conf r level url w = (es, some ((again, lv, u), w'))) :
    Round env fuel start conf r level url w again lv es w' := by
  obtain ⟨_, next, w₁, _, first, rest, rfl⟩ := Prog.bind_eq_done run
  obtain ⟨rfl, found⟩ := nextUrl_done first
  cases next with
  | none =>
    dsimp only at rest
    rw [Prog.bind_silent (setEof_apply w₁ r)] at rest
    cases rest
    exact .atEnd found
  | some next =>
    obtain ⟨lv', u'⟩ := next
    dsimp only at rest
    rw [Prog.bind_silent (newPool_apply env r w₁)] at rest
    cases pooled : env.pool w₁.clock with
    | false =>
      rw [pooled] at rest
      cases rest
      exact .noPool found pooled
    | true =>
      rw [pooled, if_pos rfl] at rest
      obtain ⟨_, ⟨done, u''⟩, w₂, _, fetch, last, rfl⟩ := Prog.bind_eq_done rest
      cases done with
      | false =>
        cases last
        rw [List.nil_append, List.append_nil]
        exact .page found pooled fetch nofun
      | true =>
        dsimp only at last
        rw [if_pos rfl] at last
        obtain ⟨_, again', w₃, _, after, ends, rfl⟩ := Prog.bind_eq_done last
        cases ends
        obtain ⟨rfl, limit, rfl, rfl⟩ | ⟨rfl, going, rfl, quiet⟩ := afterPage_done after
        · simpa using Round.page found pooled fetch fun _ => limit
        · simpa using Round.goesOn found fetch going quiet

theorem Round.run (round : Round env fuel start conf r level url w false lv es w') :
    ∃ u, innerRound env fuel start conf r level url w = (es, some ((false, lv, u), w')) := by
  cases round with
  | atEnd next =>
    refine ⟨url, (Prog.bind_silent (nextUrl_apply next)).trans ?_⟩
    exact Prog.bind_silent (setEof_apply _ r)
  | @noPool lv u w₁ next refused =>
    refine ⟨u, (Prog.bind_silent (nextUrl_apply next)).trans ?_⟩
    apply (Prog.bind_silent (newPool_apply env r w₁)).trans
    rw [refused]
    rfl
  | @page lv u u' done w₁ w₂ es next pooled fetch limit =>
    refine ⟨u', (Prog.bind_silent (nextUrl_apply next)).trans ?_⟩
    apply (Prog.bind_silent (newPool_apply env r w₁)).trans
    rw [pooled, if_pos rfl, ← List.append_nil es]
    apply Prog.bind_then fetch
    cases done with
    | false => rfl
    | true =>
      exact Prog.bind_silent (afterPage_limit (limit rfl))

theorem outerTest_apply (env : Env Re) (fuel : Nat) (conf : Conf Re) (r : Ref) (level : Int)
    (goOn : Run Re Unit) (w : World Re) : outerTest env fuel conf r level goOn w =
      if Crawl.limitReached conf.toConf level w.line then leaveLoop env fuel conf r w
      else if w.top.eof then ([], some ((), w)) else goOn w := by
  rw [outerTest, Prog.get_bind]
  split
  · rfl
  · split <;> rfl

/-- What follows a round, when the loop comes to its end: below the limits, and unless the top-level
spider has seen the end of the file, the next one. -/
inductive AfterRound (env : Env Re) (fuel : Nat) (start : Nat → Run Re Unit) (conf : Conf Re)
    (r : Ref) (n : Nat) (again : Bool) (lv : Int) (u : CString) (w : World Re) :
    List (Event Re) → World Re → Prop
  | leaves {es : List (Event Re)} {w' : World Re} (ends : again = false)
      (limit : Crawl.limitReached conf.toConf lv w.line = true)
      (run : leaveLoop env fuel conf r w = (es, some ((), w'))) :
      AfterRound env fuel start conf r n again lv u w es w'
  | seenEnd (eof : w.top.eof = true) : AfterRound env fuel start conf r n again lv u w [] w
  | goesOn {es : List (Event Re)} {w' : World Re}
      (under : Crawl.limitReached conf.toConf lv w.line = false)
      (run : spiderLoop env fuel start conf r n lv u w = (es, some ((), w'))) :
      AfterRound env fuel start conf r n again lv u w es w'

/-- A loop that comes to its end is a round and what follows it. -/
theorem spiderLoop_done {n : Nat}
    (run : spiderLoop env fuel start conf r (n + 1) level url w = (es, some ((), w'))) :
    ∃ again lv u w₁ es₁ es₂,
      innerRound env fuel start conf r level url w = (es₁, some ((again, lv, u), w₁)) ∧
      AfterRound env fuel start conf r n again lv u w₁ es₂ w' ∧ es = es₁ ++ es₂ := by
  obtain ⟨es₁, ⟨again, lv, u⟩, w₁, es₂, inner, rest, rfl⟩ := Prog.bind_eq_done run
  refine ⟨again, lv, u, w₁, es₁, es₂, inner, ?_, rfl⟩
  cases again with
  | true =>
    cases innerRound_done inner with
    | goesOn next fetch going quiet => exact .goesOn going rest
  | false =>
    dsimp only at rest
    rw [if_neg Bool.false_ne_true, outerTest_apply] at rest
    split at rest
    · rename_i limit
      exact .leaves rfl limit rest
    · rename_i under
      split at rest
      · rename_i eof
        cases rest
        exact .seenEnd eof
      · exact .goesOn (Bool.eq_false_iff.2 under) rest

/-- A round at the limits, and what follows the loops. -/
theorem spiderLoop_leave {w₁ : World Re} {es₁ es₂ : List (Event Re)} (n : Nat)
    (round : Round env fuel start conf r level url w false lv es₁ w₁)
    (limit : Crawl.limitReached conf.toConf lv w₁.line = true)
    (leave : leaveLoop env fuel conf r w₁ = (es₂, some ((), w'))) :
    spiderLoop env fuel start conf r (n + 1) level url w = (es₁ ++ es₂, some ((), w')) := by
  obtain ⟨u, run⟩ := round.run
  apply Prog.bind_then run
  dsimp only
  rw [if_neg Bool.false_ne_true, outerTest_apply, if_pos limit, leave]

end

/-! ## The loop of a nested run -/

/-- A part of a nested run has come to its end: nothing has gone back. -/
structure Onward (d : Int) (w w' : World Re) : Prop where
  rpos : w.reader.pos ≤ w'.reader.pos
  line : w.line ≤ w'.line
  steady : Steady true d w'

section

variable {env : Env Re} {fuel : Nat} {start : Nat → Run Re Unit} {conf : Conf Re} {o : Nat}
  {d level lv : Int} {url : CString} {w w' : World Re} {again : Bool} {es : List (Event Re)}

theorem onward_of {L : Lang (Event Re)} {α : Type} {m : Run Re α} {Q : α → Prop} {a : α}
    (emits : Emits L onward (Steady true d) m Q) (ready : Steady true d w)
    (run : m w = (es, some (a, w'))) : Onward d w w' := by
  obtain ⟨-, ⟨rpos, line⟩, steady, -⟩ := emits.done ready run
  exact ⟨rpos, line, steady⟩

theorem Next.onward {next : Option (Int × CString)} (found : Next (.nested o) level url w next w')
    (ready : Steady true d w) : Onward d w w' :=
  have silent : Emits (.all fun _ => False) Page.onward (Steady true d)
      (nextUrl (.nested o) level url) fun _ => True := emits_nextUrl _ level url
  onward_of silent ready (nextUrl_apply found)

theorem fetchPage_onward (below : NestedSound onward conf d start) {result : Bool × CString}
    (ready : Steady true d w)
    (run : fetchPage env fuel start conf (.nested o) level url w = (es, some (result, w'))) :
    Onward d w w' :=
  onward_of (emits_fetchPage (r := .nested o) below env fuel (fun top => nomatch top) level url)
    ready run

/-- The level changes only with the counter. -/
theorem Round.sameLevel (below : NestedSound onward conf d start) (ready : Steady true d w)
    (round : Round env fuel start conf (.nested o) level url w again lv es w') :
    lv = level ∨ w.line < w'.line := by
  cases round with
  | atEnd => exact .inl rfl
  | noPool next => exact next.level
  | @page lv u u' done w₁ w₂ es next pooled fetch limit =>
    apply next.level.imp_right
    intro more
    have later := fetchPage_onward below ((next.onward ready).steady.renewPool env _) fetch
    have kept : (if done then w₂.eofSet (.nested o) else w₂).line = w₂.line := by
      cases done <;> rfl
    have line : w₁.line ≤ w₂.line := later.line
    omega
  | @goesOn lv u u' w₁ w₂ es es' next fetch going quiet =>
    apply next.level.imp_right
    intro more
    have later := fetchPage_onward below ((next.onward ready).steady.renewPool env _) fetch
    have line : w₁.line ≤ w'.line := later.line
    omega

theorem innerRound_onward (below : NestedSound onward conf d start)
    {result : Bool × Int × CString} (ready : Steady true d w)
    (run : innerRound env fuel start conf (.nested o) level url w = (es, some (result, w'))) :
    Onward d w w' :=
  onward_of (emits_innerRound (r := .nested o) below env fuel (fun top => nomatch top) level url)
    ready run

theorem leaveLoop_onward (ready : Steady true d w)
    (run : leaveLoop env fuel conf (.nested o) w = (es, some ((), w'))) : Onward d w w' :=
  have leaves : Emits (lang conf d) onward (Steady true d) (leaveLoop env fuel conf (.nested o))
      fun _ => True := emits_leaveLoop env fuel conf _
  onward_of leaves ready run

/-- **A loop that begins below the limits ends with a higher counter**: nothing else can change the
test, and the top-level spider has not seen the end of the file. -/
theorem spiderLoop_counts (below : NestedSound onward conf d start) (n : Nat) :
    ∀ {level url w es}, Steady true d w →
      Crawl.limitReached conf.toConf level w.line = false →
      spiderLoop env fuel start conf (.nested o) n level url w = (es, some ((), w')) →
      w.line < w'.line := by
  induction n with
  | zero => exact fun _ _ run => nomatch run
  | succ n ih =>
    intro level url w es ready under run
    obtain ⟨again, lv, u, w₁, es₁, es₂, inner, after, -⟩ := spiderLoop_done run
    have before := innerRound_onward below ready inner
    have up := before.line
    have same := (innerRound_done inner).sameLevel below ready
    cases after with
    | leaves ends limit leave =>
      have on := (leaveLoop_onward before.steady leave).line
      obtain rfl | more := same
      · have moved : w₁.line ≠ w.line := by
          intro line
          rw [line, under] at limit
          cases limit
        omega
      · omega
    | seenEnd eof =>
      rw [before.steady.going rfl] at eof
      cases eof
    | goesOn under' loop =>
      have counts := ih before.steady under' loop
      omega

/-- **A loop that leaves the counter alone is one round that does, and what follows the loops.** -/
theorem spiderLoop_still (below : NestedSound onward conf d start) {n : Nat}
    (ready : Steady true d w)
    (run : spiderLoop env fuel start conf (.nested o) (n + 1) level url w = (es, some ((), w')))
    (rpos : w'.reader.pos = w.reader.pos) (line : w'.line = w.line) :
    Crawl.limitReached conf.toConf level w.line = true ∧ ∃ es₁ es₂ w₁,
      Round env fuel start conf (.nested o) level url w false level es₁ w₁ ∧
      w₁.reader.pos = w.reader.pos ∧ w₁.line = w.line ∧
      leaveLoop env fuel conf (.nested o) w₁ = (es₂, some ((), w')) ∧
      es = es₁ ++ es₂ := by
  have limit : Crawl.limitReached conf.toConf level w.line = true := by
    by_contra under
    have counts := spiderLoop_counts below _ ready (Bool.eq_false_iff.2 under) run
    omega
  refine ⟨limit, ?_⟩
  obtain ⟨again, lv, u, w₁, es₁, es₂, inner, after, logs⟩ := spiderLoop_done run
  have before := innerRound_onward below ready inner
  have round := innerRound_done inner
  have lineUp := before.line
  have rposUp := before.rpos
  cases after with
  | leaves ends _ leave =>
    have later := leaveLoop_onward before.steady leave
    have lineOn := later.line
    have rposOn := later.rpos
    have sameLine : w₁.line = w.line := by omega
    obtain rfl := (round.sameLevel below ready).resolve_right (by omega)
    subst ends
    exact ⟨es₁, es₂, w₁, round, by omega, sameLine, leave, logs⟩
  | seenEnd eof =>
    rw [before.steady.going rfl] at eof
    cases eof
  | goesOn under loop =>
    have counts := spiderLoop_counts below _ before.steady under loop
    omega

end

/-! ## What is fetched -/

/-- No nested run starts, and the stream and the counter stay. -/
def unstarted : Moves (World Re) (Event Re) where
  rel w es w' := w'.reader.pos = w.reader.pos ∧ w'.line = w.line ∧ ∀ e ∈ es, e.isStart = false
  refl _ := ⟨rfl, rfl, List.forall_mem_nil _⟩
  trans h h' := ⟨h'.1.trans h.1, h'.2.1.trans h.2.1, fun e he =>
    (List.mem_append.1 he).elim (h.2.2 e) (h'.2.2 e)⟩

instance : AllowsQuiet (unstarted : Moves (World Re) (Event Re)) where
  quiet rpos line none_ := ⟨rpos, line, none_⟩

/-- The URL of a page fetched at the level `d`. -/
def Event.fetched (d : Int) : Event Re → Option CString
  | .fetch level url => if level = d then some url else none
  | _ => none

/-- The pages fetched at a level, by their URLs. -/
def fetchedAt (d : Int) (es : List (Event Re)) : List CString := es.filterMap (Event.fetched d)

section

variable {env : Env Re} {fuel : Nat} {start : Nat → Run Re Unit} {conf : Conf Re} {o : Nat}
  {d level : Int} {url : CString} {w w' : World Re} {es : List (Event Re)}

theorem fetchedAt_append (d : Int) (es es' : List (Event Re)) :
    fetchedAt d (es ++ es') = fetchedAt d es ++ fetchedAt d es' := List.filterMap_append

theorem fetchedAt_nil_of {es : List (Event Re)} (none_ : ∀ e ∈ es, e.fetched d = none) :
    fetchedAt d es = [] := List.filterMap_eq_nil_iff.2 none_

/-- Pages of deeper levels are not fetched at this one. -/
theorem Event.Sound.notFetched {e : Event Re} (sound : e.Sound conf (d + 1)) :
    e.fetched d = none := by
  cases e with
  | fetch level url =>
    have deep : d + 1 ≤ level := sound
    rw [Event.fetched, if_neg (by omega)]
  | _ => rfl

theorem fetchedAt_deeper (word : (lang conf (d + 1)).whole es) : fetchedAt d es = [] :=
  fetchedAt_nil_of fun e he => (word.2 e he).notFetched

/-- What follows the loops fetches nothing and leaves the stream and the counter alone. -/
theorem leaveLoop_quiet (ready : Steady true d w)
    (run : leaveLoop env fuel conf (.nested o) w = (es, some ((), w'))) :
    fetchedAt d es = [] ∧ unstarted.rel w es w' := by
  have leaves : Emits (lang conf (d + 1)) unstarted (Steady true d)
      (leaveLoop env fuel conf (.nested o)) fun _ => True := emits_leaveLoop env fuel conf _
  obtain ⟨word, quiet, -⟩ := leaves.done ready run
  exact ⟨fetchedAt_deeper word, quiet⟩

/-- A part that logs nothing. -/
theorem silent {nested : Bool} {α : Type} {m : Run Re α} {Q : α → Prop} {a : α}
    (emits : Emits (.all fun _ => False) onward (Steady nested d) m Q) (ready : Steady nested d w)
    (run : m w = (es, some (a, w'))) : es = [] ∧ Steady nested d w' := by
  obtain ⟨nothing, -, steady, -⟩ := emits.done ready run
  exact ⟨List.eq_nil_iff_forall_not_mem.2 nothing, steady⟩

/-- **A page is fetched once at the level of its spider.** -/
theorem fetchPage_fetched (below : NestedSound onward conf d start) {result : Bool × CString}
    (ready : Steady true d w)
    (run : fetchPage env fuel start conf (.nested o) level url w = (es, some (result, w'))) :
    fetchedAt d es = [url] := by
  rw [fetchPage, Prog.bind_silent (setEof_false_apply w (.nested o))] at run
  have ready' : Steady true d (w.eofCleared (.nested o)) := ready.setFalse (r := .nested o)
  obtain ⟨es₁, url', w₁, _, suffix, rest, rfl⟩ := Prog.bind_eq_done run
  obtain ⟨rfl, steady⟩ := silent (emits_withSuffix fuel (.nested o) _ _) ready' suffix
  rw [Prog.get_bind] at rest
  obtain ⟨es₂, _, w₂, _, logged, rest', rfl⟩ := Prog.bind_eq_done rest
  cases logged
  obtain ⟨es₃, done, w₃, _, work, ends, rfl⟩ := Prog.bind_eq_done rest'
  cases ends
  have page := emits_workPage (r := .nested o) below env fuel (fun _ => rfl) level url url'
  have none_ := fetchedAt_deeper (page.done steady work).1
  have first : fetchedAt d [(.fetch w₁.spiderLevel url : Event Re)] = [url] := by
    rw [steady.level]
    simp [fetchedAt, Event.fetched]
  simp only [List.nil_append, List.append_nil, fetchedAt_append, first, none_]

end

end SpiderFrame.Page
