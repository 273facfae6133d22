import SpiderFrame.Base.Once
import SpiderFrame.Base.Run
import SpiderFrame.Queue.Load

/-!
# Concurrent callers of `sf_proc_insert_url`

Any number of threads offer URLs to one table that was loaded from a file. A step is one
critical section of one thread: `urlSection` for its next URL, or `fileSection` for the
URL it has put into the table and not yet written. The table, the records appended and
the URLs in between are an instance of `Base.Once` by their fingerprints (`queue_once`),
which gives at-most-once queueing under every interleaving (`queued_at_most_once`).
-/

namespace SpiderFrame.Queue
open SpiderFrame.Base

/-- The arguments of a call. -/
structure Offer where
  level : Int
  url : CString
  deriving DecidableEq

/-- A thread: the calls it is still to make, and the URL it is about to write. -/
structure Caller where
  todo : List Offer
  writing : Option Offer

/-- The shared data, the threads, and what has happened: the calls begun and the records
appended, in order. -/
structure Calls where
  table : UrlTable
  urlTxt : List Byte
  callers : List Caller
  offered : List Offer
  appended : List Offer

/-- The next critical section of the thread `i`. -/
def callStep (q : Calls) (i : Nat) : Option Calls :=
  match q.callers[i]? with
  | none => none
  | some ⟨todo, some o⟩ =>
    some { q with
      urlTxt := fileSection q.urlTxt o.level o.url
      callers := q.callers.set i ⟨todo, none⟩
      appended := q.appended ++ [o] }
  | some ⟨[], none⟩ => none
  | some ⟨o :: todo, none⟩ =>
    match urlSection q.table o.url with
    | (t, true) =>
      some { q with
        table := t
        callers := q.callers.set i ⟨todo, some o⟩
        offered := q.offered ++ [o] }
    | (t, false) =>
      some { q with
        table := t
        callers := q.callers.set i ⟨todo, none⟩
        offered := q.offered ++ [o] }

/-- Threads with these calls to make, on a table loaded from these bytes. -/
def startCalls (t : UrlTable) (bytes : List Byte) (todos : List (List Offer)) : Calls :=
  ⟨t, bytes, todos.map fun todo => ⟨todo, none⟩, [], []⟩

/-- What a step can do: write the URL in between, or take the next call, which finds its
URL new or known. -/
theorem callStep_cases {q q' : Calls} {i : Nat} (h : callStep q i = some q') :
    (∃ todo o, q.callers[i]? = some ⟨todo, some o⟩ ∧
      q' = { q with
        urlTxt := fileSection q.urlTxt o.level o.url
        callers := q.callers.set i ⟨todo, none⟩
        appended := q.appended ++ [o] }) ∨
    (∃ todo o, q.callers[i]? = some ⟨o :: todo, none⟩ ∧
      q.table.seen (fingerprint o.url) = false ∧
      q' = { q with
        table := q.table.insert o.url
        callers := q.callers.set i ⟨todo, some o⟩
        offered := q.offered ++ [o] }) ∨
    (∃ todo o, q.callers[i]? = some ⟨o :: todo, none⟩ ∧
      q.table.seen (fingerprint o.url) = true ∧
      q' = { q with
        callers := q.callers.set i ⟨todo, none⟩
        offered := q.offered ++ [o] }) := by
  unfold callStep at h
  split at h
  · cases h
  · rename_i todo o here
    exact .inl ⟨todo, o, here, (Option.some.inj h).symm⟩
  · cases h
  · rename_i o todo here
    right
    cases known : q.table.seen (fingerprint o.url) with
    | false =>
      rw [urlSection_new known] at h
      exact .inl ⟨todo, o, here, known, (Option.some.inj h).symm⟩
    | true =>
      rw [urlSection_known known] at h
      exact .inr ⟨todo, o, here, known, (Option.some.inj h).symm⟩

/-! ## The invariant -/

/-- The fingerprint a thread has put into the table and not yet written. -/
def Calls.claimed (q : Calls) (i : Nat) : Option Fingerprint :=
  (q.callers[i]?).bind fun c => c.writing.map fun o => fingerprint o.url

def Offer.fp (o : Offer) : Fingerprint := fingerprint o.url

structure QueueInv (bytes : List Byte) (urls : List CString) (q : Calls) : Prop where
  once : Once (fun k => q.table.seen k = true) (urls.map fingerprint) (q.appended.map Offer.fp)
    q.claimed
  offered : ∀ k, q.table.seen k = true ↔ k ∈ urls.map fingerprint ∨ k ∈ q.offered.map Offer.fp
  file : q.urlTxt = bytes ++ q.appended.flatMap fun o => fprintfRecord o.level o.url

theorem claimed_set {q q' : Calls} {i : Nat} {c c' : Caller} (here : q.callers[i]? = some c)
    (set : q'.callers = q.callers.set i c') :
    q'.claimed = Function.update q.claimed i (c'.writing.map fun o => fingerprint o.url) := by
  funext j
  have bound := (List.getElem?_eq_some_iff.1 here).1
  by_cases own : j = i
  · subst own
    simp [Calls.claimed, set, bound]
  · simp [Calls.claimed, set, Function.update_of_ne own, List.getElem?_set_ne (Ne.symm own)]

/-- **A step of any thread keeps the invariant.** -/
theorem callStep_inv {bytes : List Byte} {urls : List CString} {q q' : Calls} {i : Nat}
    (inv : QueueInv bytes urls q) (h : callStep q i = some q') : QueueInv bytes urls q' := by
  obtain ⟨once, offered, file⟩ := inv
  obtain ⟨todo, o, here, rfl⟩ | ⟨todo, o, here, new, rfl⟩ | ⟨todo, o, here, known, rfl⟩ :=
    callStep_cases h
  · have mine : q.claimed i = some o.fp := by simp [Calls.claimed, here, Offer.fp]
    refine ⟨?_, offered, ?_⟩
    · rw [claimed_set here rfl, List.map_append]
      exact once.append mine
    · simp [fileSection, file]
  · have idle : q.claimed i = none := by simp [Calls.claimed, here]
    refine ⟨?_, fun k => ?_, file⟩
    · rw [claimed_set here rfl]
      exact once.claim idle (by simp [new]) fun k => q.table.seen_insert o.url k
    · simp only [UrlTable.seen_insert, offered k, List.map_append, List.mem_append]
      simp only [List.map_cons, List.map_nil, List.mem_singleton, Offer.fp]
      rw [or_comm, or_assoc]
  · have idle : q.claimed i = none := by simp [Calls.claimed, here]
    have same : Function.update q.claimed i none = q.claimed := by
      rw [← idle, Function.update_eq_self]
    refine ⟨?_, fun k => ?_, file⟩
    · rw [claimed_set here rfl]
      show Once _ _ _ (Function.update q.claimed i none)
      rw [same]
      exact once
    · rw [offered k, List.map_append, List.mem_append, ← or_assoc]
      refine ⟨.inl, fun hk => hk.elim id fun own => ?_⟩
      rw [List.map_singleton, List.mem_singleton] at own
      exact (offered k).1 (own ▸ known)

theorem startCalls_inv {t : UrlTable} {urls : List CString} (loaded : Holds t urls)
    (bytes : List Byte) (todos : List (List Offer)) :
    QueueInv bytes urls (startCalls t bytes todos) := by
  refine ⟨?_, fun k => ?_, by simp [startCalls]⟩
  · have idle : (startCalls t bytes todos).claimed = fun _ => none := by
      funext i
      simp only [Calls.claimed, startCalls, List.getElem?_map]
      cases todos[i]? <;> rfl
    rw [idle]
    exact Once.init loaded
  · simpa [startCalls] using loaded k

/-- Every state that the threads reach. -/
theorem queue_inv {t : UrlTable} {urls : List CString} (loaded : Holds t urls)
    {bytes : List Byte} {todos : List (List Offer)} {q : Calls}
    (h : Reach callStep Any (startCalls t bytes todos) q) : QueueInv bytes urls q :=
  h.invariant (startCalls_inv loaded bytes todos) fun _ _ _ _ inv _ taken => callStep_inv inv taken

/-! ## At-most-once queueing -/

theorem urls_distinct {l : List Offer} (h : (l.map Offer.fp).Nodup) : (l.map Offer.url).Nodup := by
  have split : l.map Offer.fp = (l.map Offer.url).map fingerprint := by
    simp [Function.comp_def, Offer.fp]
  exact List.Nodup.of_map fingerprint (split ▸ h)

/-- **No URL is queued twice, and every offered fingerprint is accounted for.** -/
theorem queued_at_most_once {fuel : Nat} {garbage : CString} {bytes : List Byte} {t : UrlTable}
    (loaded : sfProcInitUrlEntry fuel garbage bytes = some t) (todos : List (List Offer))
    {q : Calls} (h : Reach callStep Any (startCalls t bytes todos) q) :
    ∃ urls, loadedUrls fuel garbage bytes = some urls ∧
      q.urlTxt = bytes ++ q.appended.flatMap (fun o => fprintfRecord o.level o.url) ∧
      (q.appended.map Offer.url).Nodup ∧
      (∀ o ∈ q.appended, o.url ∉ urls) ∧
      ((∀ c ∈ q.callers, c.writing = none) → ∀ o ∈ q.offered,
        q.table.seen (fingerprint o.url) = true ∧
        ((fingerprint o.url ∈ urls.map fingerprint ∧
            (q.appended.map Offer.fp).count (fingerprint o.url) = 0) ∨
          (q.appended.map Offer.fp).count (fingerprint o.url) = 1)) := by
  obtain ⟨urls, read, holds⟩ := sfProcInitUrlEntry_holds loaded
  obtain ⟨once, offered, file⟩ := queue_inv holds h
  refine ⟨urls, read, file, urls_distinct once.distinct, ?_, ?_⟩
  · intro o ho hu
    exact once.fresh o.fp (List.mem_map_of_mem ho) (List.mem_map_of_mem hu)
  · intro quiet o ho
    have seen : q.table.seen (fingerprint o.url) = true :=
      (offered _).2 (.inr (List.mem_map_of_mem ho))
    have idle : ∀ i, q.claimed i = none := by
      intro i
      cases here : q.callers[i]? with
      | none => simp [Calls.claimed, here]
      | some c => simp [Calls.claimed, here, quiet c (List.mem_of_getElem? here)]
    refine ⟨seen, ?_⟩
    rcases once.settled idle seen with old | ⟨-, one⟩
    · exact .inl old
    · exact .inr one

/-- The string `b`. -/
def urlB : CString := .letter 1

theorem calls_of_two_threads : (exec callStep (startCalls .init [] [[⟨1, urlB⟩], [⟨2, urlB⟩]])
    [0, 1, 0]).isSome := by decide +kernel

/-- Two threads offer one URL: it is written once. -/
theorem queued_at_most_once_two :
    let q := (exec callStep (startCalls .init [] [[⟨1, urlB⟩], [⟨2, urlB⟩]]) [0, 1, 0]).get
      calls_of_two_threads
    (q.appended.map Offer.url).Nodup ∧ (q.appended.map Offer.fp).count (fingerprint urlB) = 1 := by
  intro q
  have reached := exec_reach (Option.some_get calls_of_two_threads).symm
  obtain ⟨urls, read, -, distinct, -, settled⟩ := queued_at_most_once
    (show sfProcInitUrlEntry 1 .empty [] = some .init from rfl) _ reached
  refine ⟨distinct, ?_⟩
  obtain ⟨-, ⟨old, -⟩ | one⟩ := settled (by decide +kernel) ⟨1, urlB⟩ (by decide +kernel)
  · cases read
    cases old
  · exact one

/-! ## What the table cannot tell apart -/

/-- **A call appends its record unless a URL of the same fingerprint came before.** -/
theorem insert_appends_iff {fuel : Nat} {garbage : CString} {bytes : List Byte} {t : UrlTable}
    (loaded : sfProcInitUrlEntry fuel garbage bytes = some t) (todos : List (List Offer))
    {q : Calls} (h : Reach callStep Any (startCalls t bytes todos) q) (level : Int)
    (url : CString) :
    ∃ urls, loadedUrls fuel garbage bytes = some urls ∧
      (fingerprint url ∈ urls.map fingerprint ∨ fingerprint url ∈ q.offered.map Offer.fp →
        (sfProcInsertUrl q.table q.urlTxt level url).2 = q.urlTxt) ∧
      (¬ (fingerprint url ∈ urls.map fingerprint ∨ fingerprint url ∈ q.offered.map Offer.fp) →
        (sfProcInsertUrl q.table q.urlTxt level url).2 =
          q.urlTxt ++ fprintfRecord level url) := by
  obtain ⟨urls, read, holds⟩ := sfProcInitUrlEntry_holds loaded
  have came := (queue_inv holds h).offered (fingerprint url)
  refine ⟨urls, read, fun before => ?_, fun new => ?_⟩
  · simp only [sfProcInsertUrl, urlSection_known (came.2 before)]
  · have notSeen : q.table.seen (fingerprint url) = false :=
      Bool.eq_false_iff.2 fun seen => new (came.1 seen)
    simp only [sfProcInsertUrl, urlSection_new notSeen, fileSection]

/-- The string `http://a/jkrogvghmsogqa`. -/
def urlJkr : CString := ⟨[104#8, 116#8, 116#8, 112#8, 58#8, 47#8, 47#8, 97#8, 47#8, 106#8, 107#8,
  114#8, 111#8, 103#8, 118#8, 103#8, 104#8, 109#8, 115#8, 111#8, 103#8, 113#8, 97#8], by decide⟩

/-- The string `http://a/bdyaosmkonovqm`. -/
def urlBdy : CString := ⟨[104#8, 116#8, 116#8, 112#8, 58#8, 47#8, 47#8, 97#8, 47#8, 98#8, 100#8,
  121#8, 97#8, 111#8, 115#8, 109#8, 107#8, 111#8, 110#8, 111#8, 118#8, 113#8, 109#8], by decide⟩

/-- The two URLs share a bucket and a hash. -/
theorem fingerprint_collision : fingerprint urlJkr = fingerprint urlBdy := by decide +kernel

theorem call_of_one_thread :
    (exec callStep (startCalls .init [] [[⟨1, urlJkr⟩]]) [0, 0]).isSome := by decide +kernel

/-- After a call for one URL, a call for another of a different fingerprint writes. -/
theorem insert_appends_after_one :
    let q := (exec callStep (startCalls .init [] [[⟨1, urlJkr⟩]]) [0, 0]).get call_of_one_thread
    (sfProcInsertUrl q.table q.urlTxt 1 urlB).2 = q.urlTxt ++ fprintfRecord 1 urlB := by
  intro q
  have reached := exec_reach (Option.some_get call_of_one_thread).symm
  obtain ⟨urls, read, -, appends⟩ := insert_appends_iff
    (show sfProcInitUrlEntry 1 .empty [] = some .init from rfl) _ reached 1 urlB
  cases read
  exact appends (by decide +kernel)

/-- A URL that no file held and nobody offered is dropped. -/
theorem distinct_url_dropped : ¬ ∀ (fuel : Nat) (garbage : CString) (bytes : List Byte)
    (t : UrlTable) (todos : List (List Offer)) (q : Calls) (urls : List CString) (level : Int)
    (url : CString), sfProcInitUrlEntry fuel garbage bytes = some t →
      Reach callStep Any (startCalls t bytes todos) q →
      loadedUrls fuel garbage bytes = some urls → url ∉ urls → url ∉ q.offered.map Offer.url →
      (sfProcInsertUrl q.table q.urlTxt level url).2 = q.urlTxt ++ fprintfRecord level url := by
  intro claim
  have reached := exec_reach (Option.some_get call_of_one_thread).symm
  have known : ((exec callStep (startCalls .init [] [[⟨1, urlJkr⟩]]) [0, 0]).get
      call_of_one_thread).table.seen (fingerprint urlBdy) = true := by
    rw [← fingerprint_collision]
    decide +kernel
  have appended := claim 1 .empty [] .init _ _ [] 1 urlBdy rfl reached rfl (by decide)
    (by decide +kernel)
  simp only [sfProcInsertUrl, urlSection_known known] at appended
  have grown := congrArg List.length appended
  simp [fprintfRecord] at grown

end SpiderFrame.Queue
