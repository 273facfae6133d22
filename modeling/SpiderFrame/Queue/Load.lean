import SpiderFrame.Queue.Table

/-!
# Loading the table (`sf_proc_init_url_entry`)

The loop reads `url.txt` until `fscanf` returns `EOF` and puts every URL it reads into
the table once. A call that stores no URL leaves the buffer as it was, and the loop goes
on with that. On bytes where `fscanf` neither advances nor ends, the loop does not end;
then it runs out of fuel.
-/

namespace SpiderFrame.Queue

/-- The loop of `sf_proc_init_url_entry` with the buffer `url`. -/
def loadLoop : Nat → UrlTable → CString → List Byte → Option UrlTable
  | 0, _, _, _ => none
  | fuel + 1, t, url, bs =>
    let r := fscanfRecord bs
    if r.rc = EOF then some t
    else
      let url := r.url.getD url
      loadLoop fuel (urlSection t url).1 url r.rest

/-- `sf_proc_init_url_entry(NULL, "url.txt")`; the buffer starts out as garbage. -/
def sfProcInitUrlEntry (fuel : Nat) (garbage : CString) (bytes : List Byte) : Option UrlTable :=
  loadLoop fuel .init garbage bytes

/-- The URLs that the calls of `fscanf` leave in the buffer. -/
def loadedUrls : Nat → CString → List Byte → Option (List CString)
  | 0, _, _ => none
  | fuel + 1, url, bs =>
    let r := fscanfRecord bs
    if r.rc = EOF then some []
    else
      let url := r.url.getD url
      (loadedUrls fuel url r.rest).map (url :: ·)

/-- A table that has seen the URLs `urls` and no other. -/
def Holds (t : UrlTable) (urls : List CString) : Prop :=
  ∀ k, t.seen k = true ↔ k ∈ urls.map fingerprint

theorem holds_init : Holds .init [] := fun k => by simp [UrlTable.seen_init]

theorem Holds.urlSection {t : UrlTable} {urls : List CString} (h : Holds t urls) (url : CString) :
    Holds (urlSection t url).1 (urls ++ [url]) := by
  intro k
  rw [urlSection_seen, h k, List.map_append, List.mem_append, or_comm]
  simp

theorem loadLoop_holds {fuel : Nat} : ∀ {t t' : UrlTable} {url : CString} {bs : List Byte}
    {before : List CString}, Holds t before → loadLoop fuel t url bs = some t' →
    ∃ urls, loadedUrls fuel url bs = some urls ∧ Holds t' (before ++ urls) := by
  induction fuel with
  | zero => intro _ _ _ _ _ _ run; cases run
  | succ fuel ih =>
    intro t t' url bs before h run
    unfold loadLoop at run
    unfold loadedUrls
    by_cases atEnd : (fscanfRecord bs).rc = EOF
    · simp only [atEnd, if_true, Option.some_inj] at run ⊢
      exact ⟨[], rfl, by rw [List.append_nil, ← run]; exact h⟩
    · simp only [atEnd, if_false] at run ⊢
      obtain ⟨urls, more, holds⟩ := ih (h.urlSection _) run
      exact ⟨_, by rw [more]; rfl, by simpa using holds⟩

/-- **The table that was loaded has seen exactly the URLs read.** -/
theorem sfProcInitUrlEntry_holds {fuel : Nat} {garbage : CString} {bytes : List Byte}
    {t : UrlTable} (run : sfProcInitUrlEntry fuel garbage bytes = some t) :
    ∃ urls, loadedUrls fuel garbage bytes = some urls ∧ Holds t urls :=
  loadLoop_holds holds_init run

/-- On a well-formed file the URLs read are those of its records. -/
theorem loadedUrls_encodeAll (rs : List Record) : ∀ {fuel : Nat} (url : CString),
    rs.length < fuel → loadedUrls fuel url (encodeAll rs) = some (rs.map fun r => r.url.str) := by
  induction rs with
  | nil =>
    intro fuel url enough
    cases fuel with
    | zero => omega
    | succ fuel => rfl
  | cons r rs ih =>
    intro fuel url enough
    cases fuel with
    | zero => omega
    | succ fuel =>
      rw [List.length_cons] at enough
      unfold loadedUrls
      rw [fscanfRecord_cons]
      have rest := ih r.url.str (Nat.lt_of_succ_lt_succ enough)
      simp [EOF, rest]

theorem loadLoop_encodeAll (rs : List Record) : ∀ {fuel : Nat} (t : UrlTable) (url : CString),
    rs.length < fuel → (loadLoop fuel t url (encodeAll rs)).isSome := by
  induction rs with
  | nil =>
    intro fuel t url enough
    cases fuel with
    | zero => omega
    | succ fuel => rfl
  | cons r rs ih =>
    intro fuel t url enough
    cases fuel with
    | zero => omega
    | succ fuel =>
      rw [List.length_cons] at enough
      unfold loadLoop
      rw [fscanfRecord_cons]
      exact ih _ r.url.str (Nat.lt_of_succ_lt_succ enough)

/-- A well-formed file is loaded. -/
theorem sfProcInitUrlEntry_encodeAll (rs : List Record) (garbage : CString) :
    (sfProcInitUrlEntry (rs.length + 1) garbage (encodeAll rs)).isSome :=
  loadLoop_encodeAll rs .init garbage (Nat.lt_succ_self _)

end SpiderFrame.Queue
